import ApiManifest.Proofs.JsonLexing

/-!
# Faults of JSON texts in YAML

The lexer stops at a tab between two tokens, and at a string in which the document seems to end. All
parts before are read as they are in a text without faults.
-/

namespace ApiManifest

namespace JsonText

open Yaml

/-! ## Strings -/

/-- The reader of a string stops at a mark of the document's end behind a break. -/
theorem quotedFrom_break {mode : QuotedMode} (hm : mode.Between) {c : Char} (hc : isUnescaped c)
    (hbreak : isBreak c) {rest : List Char} (hmark : documentMark rest = true) (read : List Char)
    (p : Place) : ∃ e, quotedFrom true mode read p (c :: rest) = .error e := by
  obtain ⟨htab, -, hreturn⟩ := ne_of_isUnescaped hc
  have hjoins : joinsNext c rest = false := by simp [joinsNext, hreturn]
  have hspace : c ≠ ' ' := by
    rintro rfl
    cases hbreak
  cases mode with
  | words | blanks _ | breaks _ _ =>
      refine ⟨.yaml, ?_⟩
      simp [quotedFrom, hspace, htab, hjoins, hbreak, hmark]
  | _ => exact hm.elim

theorem quotedFrom_marked {s : List Piece} (hs : ¬ Unmarked s) {mode : QuotedMode}
    (hm : mode.Between) (read rest : List Char) (p : Place) :
    ∃ e, quotedFrom true mode read p (charsOf s ++ '"' :: rest) = .error e := by
  induction s generalizing mode read p with
  | nil => exact absurd trivial hs
  | cons piece s ih =>
      have hchars : charsOf (piece :: s) ++ '"' :: rest
          = piece.chars ++ (charsOf s ++ '"' :: rest) := by
        simp [charsOf]
      rw [hchars]
      by_cases hmark : piece.raw?.any isBreak → documentMark (charsOf s ++ ['"']) = false
      · have hrest : ¬ Unmarked s := fun h => hs ⟨hmark, h⟩
        obtain ⟨hbetween, p₁, hstep⟩ := quotedFrom_piece piece hm
          (fun h => (documentMark_quote _ rest).trans (hmark h)) read p
        obtain ⟨e, herror⟩ := ih hrest hbetween (piece.step mode read).2 p₁
        exact ⟨e, hstep.trans herror⟩
      · obtain ⟨hbreak, hmarked⟩ := Classical.not_imp.mp hmark
        rw [Bool.not_eq_false, ← documentMark_quote _ rest] at hmarked
        cases piece with
        | plain c hc => exact quotedFrom_break hm hc hbreak hmarked read p
        | escape | code => cases hbreak

/-! ## Gaps -/

theorem Gap.of_mem_laid {gap : Gap} {c : Char} (hc : c ∈ gap.laid) :
    c = ' ' ∨ c = '\n' ∨ c = '\t' := by
  have hlaid (cs : List Char) (hcs : cs.all JsonText.isBlank) :
      ∀ c ∈ Manifest.unifyLines cs, c = ' ' ∨ c = '\n' ∨ c = '\t' := by
    fun_induction Manifest.unifyLines cs <;> simp_all [JsonText.isBlank]
    grind
  exact hlaid _ gap.isBlank c hc

theorem Gap.tab_mem_laid {gap : Gap} (h : '\t' ∈ gap.chars) : '\t' ∈ gap.laid := by
  have hlaid (cs : List Char) (hcs : '\t' ∈ cs) : '\t' ∈ Manifest.unifyLines cs := by
    fun_induction Manifest.unifyLines cs <;> simp_all
    grind
  exact hlaid _ h

/-- Up to its first tab, a gap is laid out as YAML lays one out. -/
theorem Gap.exists_tab {gap : Gap} (h : '\t' ∈ gap.chars) :
    ∃ before behind, gap.laid = before ++ '\t' :: behind ∧ IsLaid before := by
  obtain ⟨before, behind, heq, hnot⟩ := List.eq_append_cons_of_mem (tab_mem_laid h)
  refine ⟨before, behind, heq, fun c hc => ?_⟩
  have hmem : c ∈ gap.laid := heq ▸ List.mem_append_left _ hc
  rcases of_mem_laid hmem with rfl | rfl | rfl
  · exact .inl rfl
  · exact .inr rfl
  · exact absurd hc hnot

/-- The characters of a quoted string cannot be read to its end. -/
theorem quoted_marked {s : List Piece} (hs : ¬ Unmarked s) (rest : List Char) (p : Place) :
    ∃ e, Lexeme.quoted true ⟨p, quoted s ++ rest⟩ = .error e := by
  have hstart : QuotedMode.words.Between := trivial
  obtain ⟨e, herror⟩ := quotedFrom_marked hs hstart [] rest (p.after '"' (charsOf s ++ '"' :: rest))
  refine ⟨e, ?_⟩
  simpa [Lexeme.quoted, quoted, Cursor.skip, Cursor.skipFrom] using herror

end JsonText

namespace Yaml.Lexer

open JsonText

variable {l l' : Lexer} {depth : Nat} {c : Char} {rest gap : List Char} {tokens : List Token}

/-! ## Errors -/

/-- Reading does not come to the end of the text. -/
def Stops (l : Lexer) : Prop :=
  .streamEnd ∉ l.tokens → ∀ steps, l.cursor.rest.length < steps →
    .streamEnd ∉ (readFrom steps l).1

theorem Reads.stops (h : Reads l l') (htokens : l'.tokens = tokens.reverse ++ l.tokens)
    (hend : .streamEnd ∉ tokens) (hl' : l'.Stops) : l.Stops := by
  obtain ⟨n, hn, hread⟩ := h
  intro hopen steps hsteps
  obtain ⟨more, rfl⟩ : ∃ more, steps = n + more := ⟨steps - n, by omega⟩
  rw [hread]
  refine hl' ?_ more (by omega)
  rw [htokens, List.mem_append, List.mem_reverse]
  exact not_or.mpr ⟨hend, hopen⟩

theorem Passes.stops {allowed : Bool} (h : Passes l l' depth allowed tokens rest)
    (hend : .streamEnd ∉ tokens) (hl' : l'.Stops) : l.Stops :=
  h.reads.stops h.tokens hend hl'

theorem Arrives.stops (h : Arrives l l' depth tokens rest) (hend : .streamEnd ∉ tokens)
    (hl' : l'.Stops) : l.Stops :=
  h.reads.stops h.tokens hend hl'

/-- There is no token where the lexer is. -/
theorem stops_of_error {next : Lexer} {e : Error} (hgap : l.skipGap.dropStaleKeys = .ok next)
    (hunwind : next.unwind next.cursor.place.column = next) (hrest : next.cursor.rest = c :: rest)
    (hread : next.readToken c rest = .error e) : l.Stops := by
  intro hopen steps hsteps
  obtain ⟨more, rfl⟩ : ∃ more, steps = more + 1 := ⟨steps - 1, by omega⟩
  rw [readFrom, hgap]
  simp only [hunwind, hrest, hread]
  exact fun h => hopen (List.mem_of_mem_drop h)

theorem Nears.stops (h : l.Nears (c :: rest)) (hrests : l.Rests depth)
    (hread : ∀ next : Lexer, next.Rests depth → next.cursor.rest = c :: rest →
      next.keyAllowed = l.keyAllowed → ∃ e, next.readToken c rest = .error e) : l.Stops := by
  obtain ⟨next, hnext, hgap, hunwind, hrest, -, -, hallowed, -⟩ := h.next hrests
  obtain ⟨e, herror⟩ := hread next hnext hrest hallowed
  exact stops_of_error hgap hunwind hrest herror

/-- No token begins with a tab. -/
theorem readToken_tab (l : Lexer) (rest : List Char) : l.readToken '\t' rest = .error .yaml := by
  simp [readToken, documentMark, beginsPlain, isSpace]

/-- A gap with a tab, in brackets or outside of all. -/
theorem stops_gap {gap : Gap} (htab : '\t' ∈ gap.chars) (hrests : l.Rests depth)
    (hplace : l.inFlow = true ∨ l.indent = -1) (hrest : l.cursor.rest = gap.laid ++ rest) :
    l.Stops := by
  obtain ⟨before, behind, hgap, hlaid⟩ := gap.exists_tab htab
  rw [hgap, List.append_assoc, List.cons_append] at hrest
  have hstart : isTokenStart '\t' := rfl
  obtain ⟨ended, hskip⟩ := gapFrom_laid hlaid hstart false l.cursor.place (behind ++ rest)
  rw [← hrest] at hskip
  have hskipped := skipGap_eq (hrest ▸ head?_laid hlaid hstart) hskip
  have hbehind : (Cursor.skipFrom l.cursor.place before.length l.cursor.rest).rest
      = '\t' :: (behind ++ rest) := by
    rw [Cursor.rest_skipFrom, hrest, List.drop_left]
  generalize Cursor.skipFrom l.cursor.place before.length l.cursor.rest = cursor at hskipped hbehind
  generalize (l.keyAllowed || (ended && !l.inFlow)) = allowed at hskipped
  obtain ⟨keys, hkeys, hnext⟩ : ∃ keys,
      ({ l with cursor, keyAllowed := allowed } : Lexer).dropStaleKeys
        = .ok { l with cursor, keyAllowed := allowed, keys } ∧
      ({ l with cursor, keyAllowed := allowed, keys } : Lexer).Rests depth :=
    Rests.dropStaleKeys ⟨hrests.depth, hrests.unforced, hrests.count⟩
  refine stops_of_error (hskipped ▸ hkeys) (unwind_of_le ?_) hbehind (readToken_tab _ _)
  refine hplace.imp (fun hflow => ?_) fun hindent => ?_
  · rwa [hnext.inFlow, ← hrests.inFlow]
  · show l.indent ≤ _
    omega

theorem stops_inside {gap : Gap} (htab : '\t' ∈ gap.chars) (hrests : l.Rests (depth + 1))
    (hrest : l.cursor.rest = gap.laid ++ rest) : l.Stops :=
  stops_gap htab hrests (.inl (by simp [hrests.inFlow])) hrest

/-- A string in which the document seems to end. -/
theorem stops_string {s : List Piece} (hs : ¬ Unmarked s) (hrests : l.Rests (depth + 1))
    (hnears : l.Nears (quoted s ++ rest)) : l.Stops := by
  refine hnears.stops hrests fun next hnext hrest hallowed => ?_
  obtain ⟨keys, hnote, -⟩ := hnext.noteKey fun _ => Nat.succ_pos depth
  obtain ⟨e, hquoted⟩ := quoted_marked hs rest next.cursor.place
  have hcursor : next.cursor = ⟨next.cursor.place, quoted s ++ rest⟩ :=
    congrArg (Cursor.mk next.cursor.place) hrest
  rw [← hcursor] at hquoted
  refine ⟨e, ?_⟩
  simp [readToken, documentMark, readNode, hnote, hquoted, bind, Except.bind]

/-! ## Parts -/

/-- The end of a text is no token of a part of it. -/
theorem not_mem_nameTokens (name : List Piece) (gap : List Char) :
    .streamEnd ∉ nameTokens name gap := by
  unfold nameTokens
  split <;> simp

end Yaml.Lexer

namespace JsonText

mutual

theorem Text.not_mem_tokens : ∀ t : Text, .streamEnd ∉ t.tokens
  | .null | .bool _ | .number _ | .string _ | .emptyArray _ | .emptyObject _ => by
      simp [Text.tokens]
  | .array items => by simp [Text.tokens, items.not_mem_tokens]
  | .object members => by simp [Text.tokens, members.not_mem_tokens]

theorem Items.not_mem_tokens : ∀ items : Items, .streamEnd ∉ items.tokens
  | .last _ value _ => value.not_mem_tokens
  | .more _ value _ rest => by
      simp [Items.tokens, value.not_mem_tokens, rest.not_mem_tokens]

theorem Members.not_mem_tokens : ∀ members : Members, .streamEnd ∉ members.tokens
  | .last _ name colon _ value _ => by
      simp [Members.tokens, Yaml.Lexer.not_mem_nameTokens, value.not_mem_tokens]
  | .more _ name colon _ value _ rest => by
      simp [Members.tokens, Yaml.Lexer.not_mem_nameTokens, value.not_mem_tokens,
        rest.not_mem_tokens]

end

end JsonText

namespace Yaml.Lexer

open JsonText

variable {l l' : Lexer} {depth : Nat} {c : Char} {rest gap : List Char} {tokens : List Token}

/-! ## Productions -/

/-- Reading stops in these characters, wherever in brackets they begin. -/
structure Faults (chars : List Char) : Prop where
  stops : ∀ {l : Lexer} {depth : Nat} {rest : List Char}, l.Rests (depth + 1) →
    l.Nears (chars ++ rest) → l.Stops

/-- Reading stops in these characters, if they stand behind a bracket or a comma. -/
structure FaultsInside (chars : List Char) : Prop where
  stops : ∀ {l : Lexer} {depth : Nat} {rest : List Char}, l.Rests (depth + 1) →
    l.keyAllowed = true → l.cursor.rest = chars ++ rest → l.Stops

variable {chars chars' : List Char}

theorem faultsInside_gap {gap : Gap} (htab : '\t' ∈ gap.chars) : FaultsInside gap.laid :=
  ⟨fun hrests _ hrest => stops_inside htab hrests hrest⟩

theorem FaultsInside.enclosed (h : FaultsInside chars) (e : Enclosing)
    (hstart : .streamEnd ∉ [e.start]) : Faults (e.opening :: chars ++ [e.closing]) where
  stops hrests hnears := by
    rw [List.cons_append, List.cons_append, List.append_assoc] at hnears
    obtain ⟨l', hopen⟩ := passes_open e.start (e.reads_opening · _) hrests
      (fun _ => Nat.succ_pos _) hnears
    exact hopen.stops hstart (h.stops hopen.rests hopen.allowed hopen.cursor)

/-- Behind the first parts, in which there is no fault. -/
theorem IsInside.faultsInside (h : IsInside chars tokens) (hend : .streamEnd ∉ tokens)
    (h' : FaultsInside chars') : FaultsInside (chars ++ ',' :: chars') where
  stops hrests hallowed hrest := by
    obtain ⟨l₁, h₁⟩ := h.reads hrests hallowed (by simpa using hrest) (.inl (.inl rfl))
    obtain ⟨l₂, h₂⟩ := passes_comma h₁.rests h₁.nears
    exact h₁.stops hend (h₂.stops (by simp) (h'.stops h₂.rests h₂.allowed h₂.cursor))

/-- Some characters are read, and a tab comes. -/
theorem Arrives.stops_tab (h : Arrives l l' depth tokens ('\t' :: rest))
    (hend : .streamEnd ∉ tokens) : l.Stops :=
  h.stops hend (h.nears.stops h.rests fun next _ _ _ => ⟨_, readToken_tab next rest⟩)

/-- A value with the gaps around it. -/
theorem stops_value {t : Text} {before behind : Gap} (hrests : l.Rests (depth + 1))
    (hrest : l.cursor.rest = before.laid ++ (t.written Gap.laid ++ (behind.laid ++ rest)))
    (htext : ¬ (∀ part ∈ t.parts, part.IsLexed) → Faults (t.written Gap.laid))
    (hfault : ¬ ('\t' ∉ before.chars ∧ (∀ part ∈ t.parts, part.IsLexed) ∧ '\t' ∉ behind.chars)) :
    l.Stops := by
  by_cases hbefore : '\t' ∈ before.chars
  · exact stops_inside hbefore hrests hrest
  have hnears : l.Nears (t.written Gap.laid ++ (behind.laid ++ rest)) := by
    obtain ⟨c, cs, hchars, hc⟩ := exists_written t Gap.laid
    rw [hchars] at hrest ⊢
    exact nears_laid hrests (Gap.isLaid hbefore) hrest hc
  by_cases hparts : ∀ part ∈ t.parts, part.IsLexed
  · have hbehind : '\t' ∈ behind.chars := by
      by_contra hnot
      exact hfault ⟨hbefore, hparts, hnot⟩
    obtain ⟨laid, more, heq, hlaid⟩ := behind.exists_tab hbehind
    rw [heq, List.append_assoc, List.cons_append] at hnears
    obtain ⟨l', harrives⟩ := (isItem_text t hparts).reads hrests hnears hlaid (.inr rfl)
    exact harrives.stops_tab t.not_mem_tokens
  · exact (htext hparts).stops hrests hnears

/-- A member with the gaps in it. -/
theorem stops_member {name : List Piece} {t : Text} {before colon middle behind : Gap}
    (hrests : l.Rests (depth + 1)) (hallowed : l.keyAllowed = true)
    (hrest : l.cursor.rest = before.laid ++ (quoted name ++ (colon.laid ++
      ':' :: (middle.laid ++ (t.written Gap.laid ++ (behind.laid ++ rest))))))
    (htext : ¬ (∀ part ∈ t.parts, part.IsLexed) → Faults (t.written Gap.laid))
    (hfault : ¬ ('\t' ∉ before.chars ∧ Unmarked name ∧ '\t' ∉ colon.chars ∧
      '\t' ∉ middle.chars ∧ (∀ part ∈ t.parts, part.IsLexed) ∧ '\t' ∉ behind.chars)) :
    l.Stops := by
  by_cases hbefore : '\t' ∈ before.chars
  · exact stops_inside hbefore hrests hrest
  have hnears := nears_laid hrests (Gap.isLaid hbefore) hrest (by decide : isTokenStart '"')
  by_cases hname : Unmarked name
  · obtain ⟨l₁, key, hnamed⟩ := exists_names hname hrests hallowed hnears
    by_cases hcolon : '\t' ∈ colon.chars
    · have hstops := stops_inside hcolon hnamed.rests hnamed.cursor_rest
      exact hnamed.reads.stops (hnamed.tokens.trans rfl) (List.mem_singleton.not.mpr nofun) hstops
    · obtain ⟨l₂, hpasses⟩ := hnamed.passes_colon (Gap.isLaid hcolon)
      refine hpasses.stops (not_mem_nameTokens name _)
        (stops_value hpasses.rests hpasses.cursor htext fun h => hfault ?_)
      exact ⟨hbefore, hname, hcolon, h⟩
  · exact stops_string hname hrests hnears

mutual

/-- **Reading stops at a fault of a value.** -/
theorem faults_text : ∀ t : Text, ¬ (∀ part ∈ t.parts, part.IsLexed) →
    Faults (t.written Gap.laid)
  | .null, h | .bool _, h => absurd (by simp [Text.parts]) h
  | .number _, h => absurd (by simp [Text.parts, Part.IsLexed]) h
  | .string s, h =>
      ⟨stops_string (by simpa [Text.parts, Part.IsLexed] using h)⟩
  | .emptyArray gap, h =>
      (faultsInside_gap (by simpa [Text.parts, Part.IsLexed] using h)).enclosed brackets (by decide)
  | .array items, h => (faultsInside_items items h).enclosed brackets (by decide)
  | .emptyObject gap, h =>
      (faultsInside_gap (by simpa [Text.parts, Part.IsLexed] using h)).enclosed braces (by decide)
  | .object members, h => (faultsInside_members members h).enclosed braces (by decide)

theorem faultsInside_items : ∀ items : Items, ¬ (∀ part ∈ items.parts, part.IsLexed) →
    FaultsInside (items.written Gap.laid)
  | .last before value behind, h => by
      refine ⟨fun hrests _ hrest => ?_⟩
      exact stops_value hrests (by simpa [Items.written] using hrest) (faults_text value)
        fun hall => h (Items.forall_parts_last.mpr hall)
  | .more before value behind items, h => by
      rw [Items.forall_parts_more] at h
      by_cases hfirst : '\t' ∉ before.chars ∧ (∀ part ∈ value.parts, part.IsLexed) ∧
          '\t' ∉ behind.chars
      · obtain ⟨hbefore, hvalue, hbehind⟩ := hfirst
        have hinside := (isItem_text value hvalue).isInside (Gap.isLaid hbefore)
          (Gap.isLaid hbehind)
        exact hinside.faultsInside value.not_mem_tokens
          (faultsInside_items items fun hrest => h ⟨hbefore, hvalue, hbehind, hrest⟩)
      · refine ⟨fun hrests _ hrest => ?_⟩
        exact stops_value hrests (by simpa [Items.written] using hrest) (faults_text value) hfirst

theorem faultsInside_members : ∀ members : Members, ¬ (∀ part ∈ members.parts, part.IsLexed) →
    FaultsInside (members.written Gap.laid)
  | .last before name colon middle value behind, h => by
      refine ⟨fun hrests hallowed hrest => ?_⟩
      refine stops_member hrests hallowed (by simpa [Members.written] using hrest)
        (faults_text value) fun hall => h ?_
      obtain ⟨hbefore, hname, hcolon, hmiddle, hvalue, hbehind⟩ := hall
      exact Members.forall_parts_last.mpr
        ⟨hbefore, hname, trivial, hcolon, hmiddle, hvalue, hbehind⟩
  | .more before name colon middle value behind members, h => by
      rw [Members.forall_parts_more] at h
      by_cases hfirst : '\t' ∉ before.chars ∧ Unmarked name ∧ '\t' ∉ colon.chars ∧
          '\t' ∉ middle.chars ∧ (∀ part ∈ value.parts, part.IsLexed) ∧ '\t' ∉ behind.chars
      · obtain ⟨hbefore, hname, hcolon, hmiddle, hvalue, hbehind⟩ := hfirst
        have hinside := (isItem_text value hvalue).isInside_member hname (Gap.isLaid hbefore)
          (Gap.isLaid hcolon) (Gap.isLaid hmiddle) (Gap.isLaid hbehind)
        refine hinside.faultsInside ?_ (faultsInside_members members fun hrest =>
          h ⟨hbefore, hname, trivial, hcolon, hmiddle, hvalue, hbehind, hrest⟩)
        exact fun hmem => (List.mem_append.mp hmem).elim (not_mem_nameTokens name _)
          value.not_mem_tokens
      · refine ⟨fun hrests hallowed hrest => ?_⟩
        exact stops_member hrests hallowed (by simpa [Members.written] using hrest)
          (faults_text value) hfirst

end

end Yaml.Lexer

/-! ## Files -/

namespace JsonText

open Yaml Yaml.Lexer

theorem exists_faultsInside (f : File) (h : ¬ ∀ part ∈ f.value.parts, part.IsLexed) :
    ∃ chars, f.value.written Gap.laid = '\x7b' :: chars ++ ['\x7d'] ∧ FaultsInside chars := by
  obtain ⟨before, value, behind, hobject⟩ := f
  cases value with
  | emptyObject gap =>
      exact ⟨_, rfl, faultsInside_gap (by simpa [Text.parts, Part.IsLexed] using h)⟩
  | object members => exact ⟨_, rfl, faultsInside_members members h⟩
  | _ => simp at hobject

theorem stops_written {f : File} (h : ¬ ∀ part ∈ f.parts, part.IsLexed) :
    Stops { cursor := Cursor.start (f.written Gap.laid) } := by
  have hstart : Rests { cursor := Cursor.start (f.written Gap.laid) } 0 := ⟨rfl, by simp, rfl⟩
  have hrest : (Cursor.start (f.written Gap.laid)).rest
      = f.before.laid ++ (f.value.written Gap.laid ++ f.behind.laid) :=
    List.append_assoc ..
  by_cases hbefore : '\t' ∈ f.before.chars
  · exact stops_gap hbefore hstart (.inr rfl) hrest
  by_cases hvalue : ∀ part ∈ f.value.parts, part.IsLexed
  · have hbehind : '\t' ∈ f.behind.chars := by
      by_contra hnot
      refine h (List.forall_mem_cons.mpr ⟨hbefore, List.forall_mem_append.mpr ⟨hvalue, ?_⟩⟩)
      exact List.forall_mem_singleton.mpr hnot
    obtain ⟨chars, tokens, hchars, htokens, hinside⟩ := exists_inside f hvalue
    obtain ⟨l₁, hopen⟩ := exists_passes_brace hbefore hchars
    obtain ⟨l₂, hpasses⟩ := hinside.passes braces hopen
    have hend : .streamEnd ∉ braces.start :: tokens ++ [braces.stop] :=
      htokens ▸ f.value.not_mem_tokens
    have hindent : l₂.indent = -1 := (List.cons.inj hpasses.indents).1
    exact hpasses.stops hend (stops_gap hbehind hpasses.rests (.inr hindent)
      (hpasses.cursor.trans (List.append_nil _).symm))
  · obtain ⟨chars, hchars, hfaults⟩ := exists_faultsInside f hvalue
    obtain ⟨l₁, hopen⟩ := exists_passes_brace hbefore hchars
    exact hopen.stops (by simp) (hfaults.stops hopen.rests hopen.allowed hopen.cursor)

/-- **The lexer does not get through a file with a fault.** -/
theorem isLexed_of_streamEnd {f : File} (h : .streamEnd ∈ (tokensOf (f.written Gap.laid)).1) :
    ∀ part ∈ f.parts, part.IsLexed := by
  by_contra hfault
  exact stops_written hfault List.not_mem_nil _ (Nat.lt_succ_self _) (List.mem_reverse.mp h)

end JsonText
end ApiManifest
