import ApiManifest.Proofs.JsonFlows

/-!
# Tokens of whole JSON texts

The tokens that the lexer finds in a text of JSON, part by part. It gets through if no gap has a tab
and no string holds the mark of a document's end.
-/

namespace ApiManifest

namespace Manifest

variable {c : Char} {cs rest : List Char}

theorem unifyLines_cons (hc : c ≠ '\r') : unifyLines (c :: rest) = c :: unifyLines rest := by
  rw [unifyLines.eq_3 _ _ (by grind) (by grind)]

/-- Without carriage returns, there is nothing to unify. -/
theorem unifyLines_append_of_not_mem (h : '\r' ∉ cs) (rest : List Char) :
    unifyLines (cs ++ rest) = cs ++ unifyLines rest := by
  induction cs with
  | nil => rfl
  | cons c cs ih =>
      simp only [List.mem_cons, not_or] at h
      rw [List.cons_append, unifyLines_cons (Ne.symm h.1), ih h.2]
      rfl

/-- Two parts of a text are unified each for itself, if no line feed begins the second one. -/
theorem unifyLines_append (h : rest.head? ≠ some '\n') :
    unifyLines (cs ++ rest) = unifyLines cs ++ unifyLines rest := by
  fun_induction unifyLines cs with
  | case1 cs ih => simp [unifyLines, ih]
  | case2 cs hcs ih =>
      rw [List.cons_append, unifyLines.eq_2, ih]
      · rfl
      · cases cs with
        | nil => simpa [List.head?_eq_some_iff] using h
        | cons c cs => simpa using hcs
  | case3 c cs hc hc' ih =>
      rw [List.cons_append, unifyLines.eq_3 _ _ (by grind) (by grind), ih]
      rfl
  | case4 => rfl

end Manifest

namespace JsonText

open Yaml Yaml.Lexer

/-! ## Words -/

theorem Digits.isPlain (d : Digits) : IsPlain d.chars :=
  isPlain_of_digits fun _ => List.all_eq_true.mp d.isDigit _

theorem Exponent.inner (e : Exponent) : e.chars.all isInner ∧ e.chars.count '-' ≤ 1 := by
  have hinner := e.digits.isPlain.inner
  have hcount := e.digits.isPlain.count
  cases hlarge : e.isLarge <;> cases hsign : e.sign <;>
    simp [Exponent.chars, Sign.chars, hlarge, hsign, hinner, hcount, isInner]

namespace Number

variable (n : Number)

theorem isPlain_mantissa : IsPlain n.mantissa := by
  refine List.forall_mem_append.mpr ⟨n.whole.isPlain, ?_⟩
  cases n.fraction with
  | none => simp
  | some d => exact List.forall_mem_cons.mpr ⟨.inr rfl, d.isPlain⟩

theorem isUnsigned : IsUnsigned n.unsigned where
  starts := by
    obtain ⟨c, cs, h⟩ := List.exists_cons_of_ne_nil n.whole.ne_nil
    have hc : c.isDigit := List.all_eq_true.mp n.whole.isDigit c (h ▸ List.mem_cons_self)
    simp [unsigned, mantissa, h, hc]
  inner := by
    rw [unsigned, List.all_append, n.isPlain_mantissa.inner, Bool.true_and]
    cases n.exponent with
    | none => rfl
    | some e => exact e.inner.1
  dashes := by
    rw [unsigned, List.count_append, n.isPlain_mantissa.count, Nat.zero_add]
    cases n.exponent with
    | none => exact Nat.zero_le 1
    | some e => exact e.inner.2

theorem isWord : IsWord n.chars := n.isUnsigned.isWord_signed n.isNegative

end Number

theorem isWord_null : IsWord "null".toList :=
  ⟨⟨_, _, rfl, .inl (by decide)⟩, by decide, .inr (by decide)⟩

theorem isWord_bool (b : Bool) : IsWord (if b then "true".toList else "false".toList) := by
  cases b <;> exact ⟨⟨_, _, rfl, .inl (by decide)⟩, by decide, .inr (by decide)⟩

/-! ## Lines -/

/-- What stands between two tokens, with a line feed at the end of each line. -/
def Gap.laid (gap : Gap) : List Char := Manifest.unifyLines gap.chars

theorem Gap.isLaid {gap : Gap} (h : '\t' ∉ gap.chars) : IsLaid gap.laid := by
  have hlaid (cs : List Char) (hcs : ∀ c ∈ cs, JsonText.isBlank c ∧ c ≠ '\t') :
      IsLaid (Manifest.unifyLines cs) := by
    fun_induction Manifest.unifyLines cs with
    | case1 cs ih =>
        exact List.forall_mem_cons.mpr ⟨.inr rfl, ih fun c hc => hcs c (by simp [hc])⟩
    | case2 cs _ ih =>
        exact List.forall_mem_cons.mpr ⟨.inr rfl, ih fun c hc => hcs c (by simp [hc])⟩
    | case3 c cs hc hc' ih =>
        refine List.forall_mem_cons.mpr ⟨?_, ih fun c hc => hcs c (by simp [hc])⟩
        have hc := hcs c List.mem_cons_self
        simp only [JsonText.isBlank, Bool.or_eq_true, beq_iff_eq] at hc
        grind
    | case4 => simp [IsLaid]
  exact hlaid _ fun c hc => ⟨List.all_eq_true.mp gap.isBlank c hc, ne_of_mem_of_not_mem hc h⟩

theorem exists_written (t : Text) (gap : Gap → List Char) :
    ∃ c cs, t.written gap = c :: cs ∧ isTokenStart c := by
  cases t with
  | null => exact exists_isTokenStart isWord_null
  | bool b => exact exists_isTokenStart (isWord_bool b)
  | number n => exact exists_isTokenStart n.isWord
  | string | emptyArray | array | emptyObject | object => exact ⟨_, _, rfl, by decide⟩

theorem not_mem_of_isWord {cs : List Char} (h : IsWord cs) : '\r' ∉ cs :=
  fun hmem => absurd (List.all_eq_true.mp h.inner _ hmem) (by decide)

theorem not_mem_quoted (s : List Piece) : '\r' ∉ quoted s :=
  fun hmem => absurd (le_toNat_of_mem hmem) (by decide)

theorem unifyLines_gap (gap : Gap) {c : Char} (hc : c ≠ '\n') (rest : List Char) :
    Manifest.unifyLines (gap.chars ++ c :: rest) = gap.laid ++ Manifest.unifyLines (c :: rest) :=
  Manifest.unifyLines_append (by simpa using hc)

theorem unifyLines_quoted (s : List Piece) (rest : List Char) :
    Manifest.unifyLines (quoted s ++ rest) = quoted s ++ Manifest.unifyLines rest :=
  Manifest.unifyLines_append_of_not_mem (not_mem_quoted s) rest

theorem unifyLines_gap_written (gap : Gap) (t : Text) (rest : List Char) :
    Manifest.unifyLines (gap.chars ++ (t.written Gap.chars ++ rest))
      = gap.laid ++ Manifest.unifyLines (t.written Gap.chars ++ rest) := by
  obtain ⟨c, cs, h, hc⟩ := exists_written t Gap.chars
  have hfeed : c ≠ '\n' := by
    rintro rfl
    exact absurd hc (by decide)
  rw [h]
  exact unifyLines_gap gap hfeed _

mutual

/-- Only what stands between tokens changes when lines are unified. -/
theorem unifyLines_text : ∀ (t : Text) (rest : List Char),
    Manifest.unifyLines (t.written Gap.chars ++ rest)
      = t.written Gap.laid ++ Manifest.unifyLines rest
  | .null, _ => Manifest.unifyLines_append_of_not_mem (not_mem_of_isWord isWord_null) _
  | .bool b, _ => Manifest.unifyLines_append_of_not_mem (not_mem_of_isWord (isWord_bool b)) _
  | .number n, _ => Manifest.unifyLines_append_of_not_mem (not_mem_of_isWord n.isWord) _
  | .string s, _ => unifyLines_quoted s _
  | .emptyArray gap, rest | .emptyObject gap, rest => by
      simp [Text.written, Manifest.unifyLines_cons, unifyLines_gap]
  | .array items, rest => by
      simp [Text.written, Manifest.unifyLines_cons, unifyLines_items items]
  | .object members, rest => by
      simp [Text.written, Manifest.unifyLines_cons, unifyLines_members members]

theorem unifyLines_items : ∀ (items : Items) {c : Char} (_ : c ≠ '\n') (rest : List Char),
    Manifest.unifyLines (items.written Gap.chars ++ c :: rest)
      = items.written Gap.laid ++ Manifest.unifyLines (c :: rest)
  | .last before value behind, c, hc, rest => by
      simp only [Items.written, List.append_assoc]
      rw [unifyLines_gap_written, unifyLines_text value, unifyLines_gap _ hc]
  | .more before value behind items, c, hc, rest => by
      simp only [Items.written, List.append_assoc, List.cons_append]
      rw [unifyLines_gap_written, unifyLines_text value, unifyLines_gap _ (by decide),
        Manifest.unifyLines_cons (by decide), unifyLines_items items hc]

theorem unifyLines_members : ∀ (members : Members) {c : Char} (_ : c ≠ '\n') (rest : List Char),
    Manifest.unifyLines (members.written Gap.chars ++ c :: rest)
      = members.written Gap.laid ++ Manifest.unifyLines (c :: rest)
  | .last before name colon middle value behind, c, hc, rest => by
      have hquote (rest : List Char) : Manifest.unifyLines (before.chars ++ (quoted name ++ rest))
          = before.laid ++ Manifest.unifyLines (quoted name ++ rest) :=
        unifyLines_gap before (by decide) _
      simp only [Members.written, List.append_assoc, List.cons_append]
      rw [hquote, unifyLines_quoted, unifyLines_gap _ (by decide),
        Manifest.unifyLines_cons (by decide), unifyLines_gap_written, unifyLines_text value,
        unifyLines_gap _ hc]
  | .more before name colon middle value behind members, c, hc, rest => by
      have hquote (rest : List Char) : Manifest.unifyLines (before.chars ++ (quoted name ++ rest))
          = before.laid ++ Manifest.unifyLines (quoted name ++ rest) :=
        unifyLines_gap before (by decide) _
      simp only [Members.written, List.append_assoc, List.cons_append]
      rw [hquote, unifyLines_quoted, unifyLines_gap _ (by decide),
        Manifest.unifyLines_cons (by decide), unifyLines_gap_written, unifyLines_text value,
        unifyLines_gap _ (by decide), Manifest.unifyLines_cons (by decide),
        unifyLines_members members hc]

end

/-- What is left of a file when its lines are unified. -/
theorem unifyLines_written (f : File) :
    Manifest.unifyLines (f.written Gap.chars) = f.written Gap.laid := by
  simp only [File.written, List.append_assoc]
  rw [unifyLines_gap_written, unifyLines_text]
  rfl

/-! ## Tokens -/

mutual

/-- The tokens of a value. -/
def Text.tokens : Text → List Token
  | .null => [.scalar (String.ofList "null".toList) true]
  | .bool b => [.scalar (String.ofList (if b then "true".toList else "false".toList)) true]
  | .number n => [.scalar (String.ofList n.chars) true]
  | .string s => [.scalar (Yaml.textOf (heard .words [] s)) false]
  | .emptyArray _ => [.flowSequenceStart, .flowSequenceEnd]
  | .array items => .flowSequenceStart :: items.tokens ++ [.flowSequenceEnd]
  | .emptyObject _ => [.flowMappingStart, .flowMappingEnd]
  | .object members => .flowMappingStart :: members.tokens ++ [.flowMappingEnd]

/-- The tokens of some items. -/
def Items.tokens : Items → List Token
  | .last _ value _ => value.tokens
  | .more _ value _ rest => value.tokens ++ .flowEntry :: rest.tokens

/-- The tokens of some members. -/
def Members.tokens : Members → List Token
  | .last _ name colon _ value _ => nameTokens name colon.laid ++ value.tokens
  | .more _ name colon _ value _ rest =>
    nameTokens name colon.laid ++ value.tokens ++ .flowEntry :: rest.tokens

end

/-- The lexer gets through the part. -/
def Part.IsLexed : Part → Prop
  | .gap blanks => '\t' ∉ blanks.chars
  | .string s => Unmarked s
  | .name _ _ | .number _ => True

end JsonText

namespace Yaml.Lexer

open JsonText

variable {l l' : Lexer} {chars chars' gap gap' before behind colon middle : List Char}
  {tokens tokens' : List Token}

/-- Some characters in brackets are read as some tokens, up to what parts or closes. -/
structure IsItem (chars : List Char) (tokens : List Token) : Prop where
  starts : ∃ c cs, chars = c :: cs ∧ isTokenStart c
  reads : ∀ {l : Lexer} {depth : Nat} {gap : List Char} {c : Char} {rest : List Char},
    l.Rests (depth + 1) → l.Nears (chars ++ (gap ++ c :: rest)) → IsLaid gap → endsWord c →
    ∃ l', Arrives l l' (depth + 1) tokens (c :: rest)

/-- All that stands in brackets, or some of it, is read as some tokens. -/
structure IsInside (chars : List Char) (tokens : List Token) : Prop where
  reads : ∀ {l : Lexer} {depth : Nat} {c : Char} {rest : List Char}, l.Rests (depth + 1) →
    l.keyAllowed = true → l.cursor.rest = chars ++ c :: rest → endsWord c →
    ∃ l', Arrives l l' (depth + 1) tokens (c :: rest)

theorem isItem_word {cs : List Char} (h : IsWord cs) :
    IsItem cs [.scalar (String.ofList cs) true] :=
  ⟨exists_isTokenStart h, fun hrests hnears hgap hc => arrives_word h hrests hnears hgap hc⟩

theorem isItem_string {s : List Piece} (hs : Unmarked s) :
    IsItem (quoted s) [.scalar (Yaml.textOf (heard .words [] s)) false] where
  starts := ⟨'"', _, rfl, by decide⟩
  reads hrests hnears hgap hc := by
    obtain ⟨l', h⟩ := passes_string hs hrests (fun _ => Nat.succ_pos _) hnears
    exact ⟨l', h.arrives hgap (isTokenStart_of_endsWord hc)⟩

theorem isInside_gap (hgap : IsLaid gap) : IsInside gap [] where
  reads {l _ _ _} hrests _ hrest hc := by
    have hnears := nears_laid hrests hgap hrest (isTokenStart_of_endsWord hc)
    exact ⟨l, ⟨0, by simp, fun _ => by rw [Nat.zero_add]⟩, hrests, hnears, rfl, rfl⟩

theorem IsItem.isInside (h : IsItem chars tokens) (hbefore : IsLaid before)
    (hbehind : IsLaid behind) : IsInside (before ++ chars ++ behind) tokens where
  reads {l _ c rest} hrests _ hrest hc := by
    obtain ⟨d, ds, hchars, hd⟩ := h.starts
    have hnears : l.Nears (chars ++ (behind ++ c :: rest)) := by
      simp only [List.append_assoc, hchars, List.cons_append] at hrest ⊢
      exact nears_laid hrests hbefore hrest hd
    exact h.reads hrests hnears hbehind hc

/-- A member of an object. -/
theorem IsItem.isInside_member (h : IsItem chars tokens) {name : List Piece}
    (hname : Unmarked name) (hbefore : IsLaid before) (hcolon : IsLaid colon)
    (hmiddle : IsLaid middle) (hbehind : IsLaid behind) :
    IsInside (before ++ quoted name ++ colon ++ ':' :: middle ++ chars ++ behind)
      (nameTokens name colon ++ tokens) where
  reads {l _ c rest} hrests hallowed hrest hc := by
    have hnears :
        l.Nears (quoted name ++ (colon ++ ':' :: (middle ++ chars ++ behind ++ c :: rest))) :=
      nears_laid hrests hbefore (by rw [hrest]; simp [quoted]) (by decide)
    obtain ⟨l₁, key, hnamed⟩ := exists_names hname hrests hallowed hnears
    obtain ⟨l₂, hpasses⟩ := hnamed.passes_colon hcolon
    obtain ⟨d, ds, hchars, hd⟩ := h.starts
    have hnears₂ : l₂.Nears (chars ++ (behind ++ c :: rest)) := by
      have hrest₂ := hpasses.cursor
      simp only [List.append_assoc, hchars, List.cons_append] at hrest₂ ⊢
      exact nears_laid hpasses.rests hmiddle hrest₂ hd
    obtain ⟨l₃, harrives⟩ := h.reads hpasses.rests hnears₂ hbehind hc
    exact ⟨l₃, hpasses.arrives_trans harrives⟩

/-- A comma between two parts of what stands in brackets. -/
theorem IsInside.parted (h : IsInside chars tokens) (h' : IsInside chars' tokens') :
    IsInside (chars ++ ',' :: chars') (tokens ++ .flowEntry :: tokens') where
  reads hrests hallowed hrest hc := by
    obtain ⟨l₁, h₁⟩ := h.reads hrests hallowed (by simpa using hrest) (.inl (.inl rfl))
    obtain ⟨l₂, h₂⟩ := passes_comma h₁.rests h₁.nears
    obtain ⟨l₃, h₃⟩ := h'.reads h₂.rests h₂.allowed h₂.cursor hc
    exact ⟨l₃, by simpa using (h₁.passes h₂).arrives_trans h₃⟩

/-- Brackets are closed behind what stands in them. -/
theorem IsInside.passes (h : IsInside chars tokens) (e : Enclosing) {depth : Nat}
    {rest : List Char}
    (hopen : Passes l l' (depth + 1) true [e.start] (chars ++ e.closing :: rest)) :
    ∃ l'', Passes l l'' depth false (e.start :: tokens ++ [e.stop]) rest := by
  obtain ⟨l₁, h₁⟩ := h.reads hopen.rests hopen.allowed hopen.cursor (.inl e.closes)
  obtain ⟨l₂, h₂⟩ := passes_close e.stop (e.reads_closing · rest) h₁.rests h₁.nears
  exact ⟨l₂, (hopen.arrives_trans h₁).passes h₂⟩

theorem IsInside.enclosed (h : IsInside chars tokens) (e : Enclosing) :
    IsItem (e.opening :: chars ++ [e.closing]) (e.start :: tokens ++ [e.stop]) where
  starts := ⟨_, _, rfl, e.starts⟩
  reads hrests hnears hgap hc := by
    rw [List.cons_append, List.cons_append, List.append_assoc] at hnears
    obtain ⟨l₁, h₁⟩ := passes_open e.start (e.reads_opening · _) hrests (fun _ => Nat.succ_pos _)
      hnears
    obtain ⟨l₂, h₂⟩ := h.passes e h₁
    exact ⟨l₂, h₂.arrives hgap (isTokenStart_of_endsWord hc)⟩

mutual

/-- **A value is read as its tokens.** -/
theorem isItem_text : ∀ t : Text, (∀ part ∈ t.parts, part.IsLexed) →
    IsItem (t.written Gap.laid) t.tokens
  | .null, _ => isItem_word isWord_null
  | .bool b, _ => isItem_word (isWord_bool b)
  | .number n, _ => isItem_word n.isWord
  | .string s, h => isItem_string (h (.string s) List.mem_cons_self)
  | .emptyArray gap, h =>
      (isInside_gap (Gap.isLaid (h (.gap gap) List.mem_cons_self))).enclosed brackets
  | .array items, h => (isInside_items items h).enclosed brackets
  | .emptyObject gap, h =>
      (isInside_gap (Gap.isLaid (h (.gap gap) List.mem_cons_self))).enclosed braces
  | .object members, h => (isInside_members members h).enclosed braces

theorem isInside_items : ∀ items : Items, (∀ part ∈ items.parts, part.IsLexed) →
    IsInside (items.written Gap.laid) items.tokens
  | .last before value behind, h => by
      obtain ⟨hbefore, hvalue, hbehind⟩ := Items.forall_parts_last.mp h
      exact (isItem_text value hvalue).isInside (Gap.isLaid hbefore) (Gap.isLaid hbehind)
  | .more before value behind rest, h => by
      obtain ⟨hbefore, hvalue, hbehind, hrest⟩ := Items.forall_parts_more.mp h
      exact ((isItem_text value hvalue).isInside (Gap.isLaid hbefore) (Gap.isLaid hbehind)).parted
        (isInside_items rest hrest)

theorem isInside_members : ∀ members : Members, (∀ part ∈ members.parts, part.IsLexed) →
    IsInside (members.written Gap.laid) members.tokens
  | .last before name colon middle value behind, h => by
      obtain ⟨hbefore, hname, -, hcolon, hmiddle, hvalue, hbehind⟩ :=
        Members.forall_parts_last.mp h
      exact (isItem_text value hvalue).isInside_member hname (Gap.isLaid hbefore)
        (Gap.isLaid hcolon) (Gap.isLaid hmiddle) (Gap.isLaid hbehind)
  | .more before name colon middle value behind rest, h => by
      obtain ⟨hbefore, hname, -, hcolon, hmiddle, hvalue, hbehind, hrest⟩ :=
        Members.forall_parts_more.mp h
      exact ((isItem_text value hvalue).isInside_member hname (Gap.isLaid hbefore)
        (Gap.isLaid hcolon) (Gap.isLaid hmiddle) (Gap.isLaid hbehind)).parted
        (isInside_members rest hrest)

end

/-! ## Files -/

/-- A bracket or a brace with which a text begins. No key is due there. -/
theorem passes_root (token : Token) {c : Char} {rest : List Char}
    (htoken : ∀ next : Lexer, next.readToken c rest = next.openFlow token) (hrests : l.Rests 0)
    (hindent : l.indent = -1) (hnears : l.Nears (c :: rest)) :
    ∃ l', Passes l l' 1 true [token] rest := by
  obtain ⟨next, hnext, hskip, hunwind, hrest, htokens, hindents, -, hle⟩ := hnears.next hrests
  obtain ⟨keys, hnote, hkeys⟩ : ∃ keys, next.noteKey = .ok { next with keys } ∧
      ({ next with keys } : Lexer).Rests 0 := by
    by_cases hallowed : next.keyAllowed = true
    · have hunforced : (next.indent == next.cursor.place.column) = false := by
        rw [(List.cons.inj hindents).1, hindent, beq_eq_false_iff_ne]
        omega
      rw [noteKey, if_pos hallowed, hnext.dropKey]
      exact ⟨_, rfl, (hnext.setKey none rfl).setKey _ (by simp [hunforced])⟩
    · exact ⟨next.keys, by rw [noteKey, if_neg hallowed]; rfl, hnext⟩
  have hopened : ({ next with keys := none :: keys } : Lexer).Rests 1 :=
    ⟨congrArg (· + 1) hkeys.depth, List.forall_mem_cons.mpr ⟨rfl, hkeys.unforced⟩, hkeys.count⟩
  have hread := (htoken next).trans (openFlow_eq hnote token)
  have hbehind := rest_skip_one
    (l := { next with keys := none :: keys, keyAllowed := true }.push token) hrest
  refine ⟨_, .token hskip hunwind hrest hread ?_, hopened.push token _ true, rfl, hbehind,
    congrArg (token :: ·) htokens, hindents⟩
  rw [hbehind]
  exact hle

/-- Behind the last token of a text, only blanks are left. -/
theorem readFrom_laid (hrests : l.Rests 0) (hindents : l.indent :: l.outer = [-1])
    (hrest : l.cursor.rest = gap) (hgap : IsLaid gap) (steps : Nat) :
    readFrom (steps + 1) l = (.streamEnd :: l.tokens, none) := by
  -- nothing but blanks is left, so that they are skipped up to the end
  have hlast (gap : List Char) (hgap : IsLaid gap) (ended : Bool) (p : Place) :
      ∃ ended' place, gapFrom false ended p gap = (ended', ⟨place, []⟩) := by
    induction gap generalizing ended p with
    | nil => exact ⟨ended, p, rfl⟩
    | cons c gap ih =>
        obtain ⟨hc, hlaid⟩ := List.forall_mem_cons.mp hgap
        rw [gapFrom]
        rcases hc with rfl | rfl
        · simpa [joinsNext, isBreak] using ih hlaid ended (p.after ' ' gap)
        · simpa [joinsNext, isBreak] using ih hlaid true (p.after '\n' gap)
  obtain ⟨ended, place, hskip⟩ := hlast gap hgap false l.cursor.place
  have hmark : l.cursor.rest.head? ≠ some '\uFEFF' := by
    rw [hrest]
    cases gap with
    | nil => simp
    | cons c gap => rcases (List.forall_mem_cons.mp hgap).1 with rfl | rfl <;> simp
  have hskipped := skipGap_eq hmark (hrest ▸ hskip)
  generalize hallowed : (l.keyAllowed || (ended && !l.inFlow)) = allowed at hskipped
  obtain ⟨keys, hkeys, hnext⟩ : ∃ keys,
      ({ l with cursor := ⟨place, []⟩, keyAllowed := allowed } : Lexer).dropStaleKeys
        = .ok { l with cursor := ⟨place, []⟩, keyAllowed := allowed, keys } ∧
      ({ l with cursor := ⟨place, []⟩, keyAllowed := allowed, keys } : Lexer).Rests 0 :=
    Rests.dropStaleKeys ⟨hrests.depth, hrests.unforced, hrests.count⟩
  obtain ⟨last, hfinish, htokens⟩ :=
    finish_of_endsTo hnext ⟨[], by simpa using hindents, by simp, rfl⟩
  have hcolumn : l.indent ≤ (place.column : Int) := by
    rw [(List.cons.inj hindents).1]
    omega
  have hunwind := unwind_of_le
    (l := { l with cursor := ⟨place, []⟩, keyAllowed := allowed, keys }) (.inr hcolumn)
  rw [readFrom, hskipped, hkeys]
  simp only [hunwind, hfinish, htokens]
  rfl

/-- The beginning of a text. -/
theorem nears_start {c : Char} (hgap : IsLaid gap) (hc : isTokenStart c) (rest : List Char) :
    Nears { cursor := Cursor.start (gap ++ c :: rest) } (c :: rest) := by
  obtain ⟨ended, hskip⟩ := gapFrom_laid hgap hc false {} rest
  have hbehind := Cursor.rest_skipFrom {} gap.length (gap ++ c :: rest)
  rw [List.drop_left] at hbehind
  refine ⟨(Cursor.skipFrom {} gap.length (gap ++ c :: rest)).place, ?_, .inr ?_⟩
  · rw [skipGap_eq (head?_laid hgap hc) hskip]
    generalize Cursor.skipFrom {} gap.length (gap ++ c :: rest) = cursor at hbehind
    rw [← hbehind]
    rfl
  · show (-1 : Int) ≤ _
    omega

end Yaml.Lexer

namespace JsonText

open Yaml Yaml.Lexer

theorem exists_inside (f : File) (h : ∀ part ∈ f.value.parts, part.IsLexed) :
    ∃ chars tokens, f.value.written Gap.laid = '\x7b' :: chars ++ ['\x7d'] ∧
      f.value.tokens = .flowMappingStart :: tokens ++ [.flowMappingEnd] ∧
      IsInside chars tokens := by
  obtain ⟨before, value, behind, hobject⟩ := f
  cases value with
  | emptyObject gap =>
      exact ⟨_, [], rfl, rfl, isInside_gap (Gap.isLaid (h (.gap gap) List.mem_cons_self))⟩
  | object members => exact ⟨_, _, rfl, rfl, isInside_members members h⟩
  | _ => simp at hobject

/-- The brace with which a file begins. -/
theorem exists_passes_brace {f : File} (hbefore : '\t' ∉ f.before.chars) {chars : List Char}
    (hchars : f.value.written Gap.laid = '\x7b' :: chars ++ ['\x7d']) :
    ∃ l, Passes { cursor := Cursor.start (f.written Gap.laid) } l 1 true [.flowMappingStart]
      (chars ++ '\x7d' :: f.behind.laid) := by
  have hwritten : f.before.laid ++ '\x7b' :: (chars ++ '\x7d' :: f.behind.laid)
      = f.written Gap.laid := by
    simp [File.written, hchars]
  have hnears := nears_start (Gap.isLaid hbefore) (by decide : isTokenStart '\x7b')
    (chars ++ '\x7d' :: f.behind.laid)
  rw [hwritten] at hnears
  exact passes_root .flowMappingStart (fun next => braces.reads_opening next _)
    ⟨rfl, by simp, rfl⟩ rfl hnears

/-- **The tokens of a file.** -/
theorem tokensOf_written (f : File) (h : ∀ part ∈ f.parts, part.IsLexed) :
    tokensOf (f.written Gap.laid) = (f.value.tokens ++ [.streamEnd], none) := by
  obtain ⟨chars, tokens, hchars, htokens, hinside⟩ := exists_inside f
    fun part hpart => h part (by simp [File.parts, hpart])
  have hbefore : '\t' ∉ f.before.chars := h (.gap f.before) (by simp [File.parts])
  have hbehind : IsLaid f.behind.laid := Gap.isLaid (h (.gap f.behind) (by simp [File.parts]))
  obtain ⟨l₁, hopen⟩ := exists_passes_brace hbefore hchars
  obtain ⟨l₂, ⟨n, hn, hread⟩, hrests, -, hrest, hread', hindents⟩ := hinside.passes braces hopen
  -- there are steps left for the end of the text
  obtain ⟨steps, hsteps⟩ : ∃ steps, (f.written Gap.laid).length + 1 = n + (steps + 1) :=
    ⟨(f.written Gap.laid).length - n, by simp only [Cursor.start] at hn; omega⟩
  unfold tokensOf
  rw [hsteps, hread, readFrom_laid hrests hindents hrest hbehind, hread', htokens]
  simp [braces]

end JsonText
end ApiManifest
