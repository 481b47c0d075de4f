import ApiManifest.Manifest
import ApiManifest.Proofs.JsonStrings
import ApiManifest.Proofs.JsonTokens
import ApiManifest.Proofs.LoadCauses

/-!
# Tokens of JSON texts

How the lexer goes through a text of JSON. All of it stands in brackets, so blanks and the ends of
lines do not matter between two tokens, but a tab is no blank to YAML. What is most particular is
the name of a member. It may turn out to be a key when its colon comes, if that stands on the same
line and is not too far away. Otherwise the token is missing that announces a key.
-/

namespace ApiManifest

namespace Yaml

/-! ## Places -/

section Places

variable {p : Place} {n : Nat} {cs : List Char}

theorem Place.index_after (p : Place) (c : Char) (rest : List Char) :
    (p.after c rest).index = p.index + 1 := by
  unfold Place.after
  split
  · rfl
  · split <;> rfl

theorem Place.line_after (p : Place) {c : Char} (hc : c ≠ '\r') (rest : List Char) :
    (p.after c rest).line = if isBreak c then p.line + 1 else p.line := by
  have hjoins : joinsNext c rest = false := by simp [joinsNext, hc]
  unfold Place.after
  rw [hjoins]
  by_cases hbreak : isBreak c = true
  · simp [hbreak]
  · simp only [hbreak, Bool.false_and, Bool.false_eq_true, if_false]
    split <;> rfl

namespace Cursor

theorem index_skipFrom (h : n ≤ cs.length) : (skipFrom p n cs).place.index = p.index + n := by
  induction n generalizing p cs with
  | zero => rfl
  | succ n ih =>
      cases cs with
      | nil => exact absurd h (Nat.not_succ_le_zero n)
      | cons c rest =>
          rw [skipFrom, ih (Nat.le_of_succ_le_succ h), Place.index_after]
          omega

theorem rest_skipFrom (p : Place) (n : Nat) (cs : List Char) :
    (skipFrom p n cs).rest = cs.drop n := by
  induction n generalizing p cs with
  | zero => rfl
  | succ n ih =>
      cases cs with
      | nil => rfl
      | cons c rest => exact ih _ rest

/-- The line is that of the beginning exactly if no line ends before. -/
theorem line_skipFrom (h : ∀ c ∈ cs.take n, c ≠ '\r') :
    p.line ≤ (skipFrom p n cs).place.line ∧
      ((skipFrom p n cs).place.line = p.line ↔ (cs.take n).all (!isBreak ·)) := by
  induction n generalizing p cs with
  | zero => simp [skipFrom]
  | succ n ih =>
      cases cs with
      | nil => simp [skipFrom]
      | cons c rest =>
          obtain ⟨hc, hrest⟩ := List.forall_mem_cons.mp h
          obtain ⟨hle, hiff⟩ := ih (p := p.after c rest) hrest
          rw [Place.line_after p hc] at hle hiff
          rw [skipFrom, List.take_succ_cons, List.all_cons]
          cases hbreak : isBreak c with
          | true =>
              simp only [hbreak, if_true] at hle
              simp only [Bool.not_true, Bool.false_and, Bool.false_eq_true, iff_false]
              omega
          | false =>
              simp only [hbreak, Bool.false_eq_true, if_false] at hle hiff
              rw [Bool.not_false, Bool.true_and]
              exact ⟨hle, hiff⟩

theorem skipFrom_add (p : Place) (m n : Nat) (cs : List Char) :
    skipFrom p (m + n) cs = skipFrom (skipFrom p m cs).place n (cs.drop m) := by
  induction m generalizing p cs with
  | zero => simp [skipFrom]
  | succ m ih =>
      cases cs with
      | nil => cases n <;> simp [skipFrom]
      | cons c rest =>
          rw [Nat.succ_add, skipFrom, ih]
          rfl

end Cursor

/-- A reader comes from one place of a text to another one. -/
def Moves (p : Place) (cs : List Char) (c : Cursor) : Prop :=
  ∃ n ≤ cs.length, c = Cursor.skipFrom p n cs

theorem Moves.cons {c : Char} {rest : List Char} {cursor : Cursor}
    (h : Moves (p.after c rest) rest cursor) : Moves p (c :: rest) cursor := by
  obtain ⟨n, hn, rfl⟩ := h
  exact ⟨n + 1, Nat.succ_le_succ hn, rfl⟩

/-- How far a reader has come is shown by what it has left. -/
theorem Moves.eq {read rest : List Char} {cursor : Cursor} (h : Moves p (read ++ rest) cursor)
    (hrest : cursor.rest = rest) : cursor = Cursor.skipFrom p read.length (read ++ rest) := by
  obtain ⟨n, hn, rfl⟩ := h
  have hlength := congrArg List.length ((Cursor.rest_skipFrom _ _ _).symm.trans hrest)
  simp only [List.length_drop, List.length_append] at hlength hn
  rw [show n = read.length by omega]

theorem moves_quotedFrom {double : Bool} {mode : QuotedMode} {read : List Char} {lexeme : Lexeme}
    (h : quotedFrom double mode read p cs = .ok lexeme) : Moves p cs lexeme.cursor := by
  induction hn : cs.length using Nat.strongRecOn generalizing cs mode read p with
  | ind n ih =>
      cases cs with
      | nil => cases h
      | cons c rest =>
          -- Whatever the character is, the text ends behind it, goes on behind it or behind the
          -- next one, or the character ends a code.
          have hend : Moves p (c :: rest) ⟨p.after c rest, rest⟩ := ⟨1, by simp, rfl⟩
          have hnext (mode : QuotedMode) (read : List Char)
              (h : quotedFrom double mode read (p.after c rest) rest = .ok lexeme) :
              Moves p (c :: rest) lexeme.cursor :=
            (ih rest.length (by simp [← hn]) h rfl).cons
          have hmore (mode : QuotedMode) (read : List Char) (d : Char) (more : List Char)
              (hrest : rest = d :: more)
              (h : quotedFrom double mode read ((p.after c rest).after d more) more = .ok lexeme) :
              Moves p (c :: rest) lexeme.cursor := by
            subst hrest
            exact (ih more.length (by simp only [← hn, List.length_cons]; omega) h rfl).cons.cons
          have hcode (code : Nat) (read : List Char) (h : (do
              let x ← ofCode code
              quotedFrom double .words (x :: read) (p.after c rest) rest) = .ok lexeme) :
              Moves p (c :: rest) lexeme.cursor := by
            cases hx : ofCode code with
            | error e =>
                rw [hx] at h
                cases h
            | ok x =>
                rw [hx] at h
                exact hnext _ _ h
          rw [quotedFrom.eq_def] at h
          dsimp -zeta only at h
          extract_lets next lineStart word at h
          have hline (mode : QuotedMode) (read : List Char) (h : lineStart mode read = .ok lexeme) :
              Moves p (c :: rest) lexeme.cursor := by
            simp only [lineStart] at h
            split at h
            · cases h
            · exact hnext _ _ h
          have hword (read : List Char) (h : word read = .ok lexeme) :
              Moves p (c :: rest) lexeme.cursor := by
            simp only [word] at h
            grind
          clear_value lineStart word
          cases mode with
          | code missing value =>
              dsimp only at h
              split at h
              · cases h
              split at h
              · exact hcode _ _ h
              · exact hnext _ _ h
          | _ => grind

end Places

/-! ## Between two tokens -/

/-- What may stand between two tokens in brackets. -/
def IsLaid (gap : List Char) : Prop := ∀ c ∈ gap, c = ' ' ∨ c = '\n'

namespace Lexer

variable {l l' l'' : Lexer} {gap rest : List Char} {c : Char} {depth : Nat}

theorem gapFrom_laid (hgap : IsLaid gap) (hc : isTokenStart c) (ended : Bool) (p : Place)
    (rest : List Char) :
    ∃ ended', gapFrom false ended p (gap ++ c :: rest)
      = (ended', Cursor.skipFrom p gap.length (gap ++ c :: rest)) := by
  induction gap generalizing ended p with
  | nil => exact ⟨ended, gapFrom_start hc ended p rest⟩
  | cons x gap ih =>
      obtain ⟨hx, hlaid⟩ := List.forall_mem_cons.mp hgap
      rw [List.cons_append, gapFrom]
      rcases hx with rfl | rfl
      · obtain ⟨ended', h⟩ := ih hlaid ended (p.after ' ' (gap ++ c :: rest))
        exact ⟨ended', by simpa [joinsNext, isBreak, Cursor.skipFrom] using h⟩
      · obtain ⟨ended', h⟩ := ih hlaid true (p.after '\n' (gap ++ c :: rest))
        exact ⟨ended', by simpa [joinsNext, isBreak, Cursor.skipFrom] using h⟩

theorem head?_laid (hgap : IsLaid gap) (hc : isTokenStart c) :
    (gap ++ c :: rest).head? ≠ some '\uFEFF' := by
  cases gap with
  | nil =>
      simp only [isTokenStart, Bool.and_eq_true, bne_iff_ne] at hc
      simp [hc]
  | cons x gap =>
      rcases (List.forall_mem_cons.mp hgap).1 with rfl | rfl <;> simp

/-- In brackets, blanks are passed, and the ends of lines as well. -/
theorem skipGap_laid (hflow : l.inFlow = true) (hgap : IsLaid gap)
    (hrest : l.cursor.rest = gap ++ c :: rest) (hc : isTokenStart c) :
    l.skipGap = { l with
      cursor := Cursor.skipFrom l.cursor.place gap.length (gap ++ c :: rest) } := by
  obtain ⟨ended, h⟩ := gapFrom_laid hgap hc false l.cursor.place rest
  rw [← hrest] at h ⊢
  rw [skipGap_eq (hrest ▸ head?_laid hgap hc) h]
  simp [hflow]

theorem nears_laid (hrests : l.Rests (depth + 1)) (hgap : IsLaid gap)
    (hrest : l.cursor.rest = gap ++ c :: rest) (hc : isTokenStart c) : l.Nears (c :: rest) := by
  have hflow : l.inFlow = true := by simp [hrests.inFlow]
  have hdrop := Cursor.rest_skipFrom l.cursor.place gap.length (gap ++ c :: rest)
  rw [List.drop_left] at hdrop
  refine ⟨(Cursor.skipFrom l.cursor.place gap.length (gap ++ c :: rest)).place, ?_, .inl hflow⟩
  rw [skipGap_laid hflow hgap hrest hc]
  generalize Cursor.skipFrom l.cursor.place gap.length (gap ++ c :: rest) = cursor at hdrop
  rw [← hdrop]

/-- Reading passes some tokens of a flow, and comes near to what stands behind them. -/
structure Arrives (l l' : Lexer) (depth : Nat) (tokens : List Token) (chars : List Char) :
    Prop where
  reads : Reads l l'
  rests : l'.Rests depth
  nears : l'.Nears chars
  tokens : l'.tokens = tokens.reverse ++ l.tokens
  indents : l'.indent :: l'.outer = l.indent :: l.outer

theorem Passes.arrives {allowed : Bool} {tokens : List Token}
    (h : Passes l l' (depth + 1) allowed tokens (gap ++ c :: rest)) (hgap : IsLaid gap)
    (hc : isTokenStart c) : Arrives l l' (depth + 1) tokens (c :: rest) :=
  ⟨h.reads, h.rests, nears_laid h.rests hgap h.cursor hc, h.tokens, h.indents⟩

theorem Arrives.passes {depth' : Nat} {allowed : Bool} {tokens tokens' : List Token}
    {chars : List Char} (h : Arrives l l' depth tokens chars)
    (h' : Passes l' l'' depth' allowed tokens' rest) :
    Passes l l'' depth' allowed (tokens ++ tokens') rest where
  reads := h.reads.trans h'.reads
  rests := h'.rests
  allowed := h'.allowed
  cursor := h'.cursor
  tokens := by rw [h'.tokens, h.tokens, List.reverse_append, List.append_assoc]
  indents := h'.indents.trans h.indents

theorem Passes.arrives_trans {depth' : Nat} {allowed : Bool} {tokens tokens' : List Token}
    {chars : List Char} (h : Passes l l' depth allowed tokens rest)
    (h' : Arrives l' l'' depth' tokens' chars) :
    Arrives l l'' depth' (tokens ++ tokens') chars where
  reads := h.reads.trans h'.reads
  rests := h'.rests
  nears := h'.nears
  tokens := by rw [h'.tokens, h.tokens, List.reverse_append, List.append_assoc]
  indents := h'.indents.trans h.indents

/-! ## Words -/

/-- A character at which a word in brackets ends for good. A tab is one, though no token can begin
with it. -/
def endsWord (c : Char) : Prop := closesItem c ∨ c = '\t'

theorem isTokenStart_of_endsWord (hc : endsWord c) : isTokenStart c := by
  rcases hc with (rfl | rfl | rfl) | rfl <;> rfl

theorem documentMark_laid (hgap : IsLaid gap) (hc : endsWord c) (rest : List Char) :
    documentMark (gap ++ c :: rest) = false := by
  cases gap with
  | nil =>
      rcases hc with (rfl | rfl | rfl) | rfl <;> exact documentMark_of_ne (by decide) (by decide) _
  | cons x gap =>
      rcases (List.forall_mem_cons.mp hgap).1 with rfl | rfl <;>
        exact documentMark_of_ne (by decide) (by decide) _

/-- The reader of a word goes on over all blanks, as if another word could come. -/
theorem plainFrom_laid (hgap : IsLaid gap) (hc : endsWord c) (indent : Int) (mode : PlainMode)
    (read : List Char) (p : Place) (rest : List Char) :
    (plainFrom true indent mode read p (gap ++ c :: rest)).text = textOf read ∧
      (plainFrom true indent mode read p (gap ++ c :: rest)).cursor.rest = c :: rest := by
  induction gap generalizing mode p with
  | nil =>
      rcases hc with (rfl | rfl | rfl) | rfl <;> cases mode <;>
        simp [plainFrom, joinsNext, isBreak, endsPlain, isSpace, isFlowIndicator]
  | cons x gap ih =>
      obtain ⟨hx, hlaid⟩ := List.forall_mem_cons.mp hgap
      have hmark := documentMark_laid hlaid hc rest
      rcases hx with rfl | rfl
      · cases mode <;> simp [plainFrom, ih hlaid]
      · cases mode <;> simp [plainFrom, joinsNext, isBreak, hmark, ih hlaid]

theorem plain_laid {cs : List Char} (hcs : cs.all isInner) (hgap : IsLaid gap) (hc : endsWord c)
    (indent : Int) (p : Place) (rest : List Char) :
    (Lexeme.plain true indent ⟨p, cs ++ (gap ++ c :: rest)⟩).text = String.ofList cs ∧
      (Lexeme.plain true indent ⟨p, cs ++ (gap ++ c :: rest)⟩).cursor.rest = c :: rest := by
  obtain ⟨p', h⟩ := exists_plainFrom hcs true indent [] (gap ++ c :: rest) p
  obtain ⟨htext, hrest⟩ := plainFrom_laid hgap hc indent .words (cs.reverse ++ []) p' rest
  rw [Lexeme.plain, h]
  exact ⟨htext.trans (by simp [textOf]), hrest⟩

/-- A number or a name in brackets. -/
theorem arrives_word {cs : List Char} (h : IsWord cs) (hrests : l.Rests (depth + 1))
    (hnears : l.Nears (cs ++ (gap ++ c :: rest))) (hgap : IsLaid gap) (hc : endsWord c) :
    ∃ l', Arrives l l' (depth + 1) [.scalar (String.ofList cs) true] (c :: rest) := by
  -- skip what is in between, note a possible key, read the word, and skip again
  obtain ⟨next, hnext, hskip, hunwind, hrest, htokens, hindents, -, hle⟩ := hnears.next hrests
  obtain ⟨keys, hnote, hkeys⟩ := hnext.noteKey (fun _ => Nat.succ_pos depth)
  obtain ⟨x, more, hcs, -⟩ := exists_isTokenStart h
  have hflow : ({ next with keys } : Lexer).inFlow = true := by simp [hkeys.inFlow]
  have hcursor : next.cursor = ⟨next.cursor.place, cs ++ (gap ++ c :: rest)⟩ :=
    congrArg (Cursor.mk next.cursor.place) hrest
  obtain ⟨htext, hbehind⟩ := plain_laid h.inner hgap hc (next.indent + 1)
    next.cursor.place rest
  rw [← hcursor] at htext hbehind
  generalize hlexeme : Lexeme.plain true (next.indent + 1) next.cursor = lexeme at htext hbehind
  have hread : next.readToken x (more ++ (gap ++ c :: rest)) =
      .ok { ({ next with keys } : Lexer).push (.scalar lexeme.text true) with
        cursor := lexeme.cursor, keyAllowed := lexeme.brokeLine } := by
    rw [readToken_of_isWord h hcs, readPlain, hnote]
    simp only [bind, Except.bind, hflow, hlexeme]
    rfl
  have hlength : (c :: rest).length < l.cursor.rest.length := by
    refine Nat.lt_of_lt_of_le ?_ hle
    simp only [hcs, List.length_append, List.length_cons]
    omega
  rw [hcs] at hrest
  refine ⟨_, .token hskip hunwind hrest hread (hbehind.symm ▸ hlength),
    hkeys.push _ _ _, ?_, ?_, hindents⟩
  · exact nears_laid (hkeys.push _ _ _) (show IsLaid [] by simp [IsLaid]) hbehind
      (isTokenStart_of_endsWord hc)
  · rw [← htext, ← htokens]
    rfl

/-! ## Texts between quotes -/

open JsonText in
/-- A string, in brackets or not. -/
theorem passes_string {s : List Piece} (hs : Unmarked s) (hrests : l.Rests depth)
    (hallowed : l.keyAllowed = true → 0 < depth) (hnears : l.Nears (quoted s ++ rest)) :
    ∃ l', Passes l l' depth false [.scalar (Yaml.textOf (heard .words [] s)) false] rest := by
  refine passes_of_readToken hrests hnears (by simp [charsOf]; omega)
    fun next hnext hallowed' hrest => ?_
  obtain ⟨keys, hnote, hkeys⟩ := hnext.noteKey (hallowed' ▸ hallowed)
  obtain ⟨place, hquoted⟩ := quoted_string hs rest next.cursor.place
  have hcursor : next.cursor = ⟨next.cursor.place, quoted s ++ rest⟩ :=
    congrArg (Cursor.mk next.cursor.place) hrest
  rw [← hcursor] at hquoted
  refine ⟨_, ?_, hkeys.push (.scalar _ false) ⟨place, rest⟩ false, rfl, rfl, rfl, rfl⟩
  simp [readToken, documentMark, readNode, hnote, hquoted, bind, Except.bind, pure, Except.pure]

end Lexer

end Yaml

namespace JsonText

open Yaml

/-! ## Names of members -/

theorem le_toNat_of_hexValue? {c : Char} {d : Nat} (h : Text.hexValue? c = some d) :
    0x20 ≤ c.toNat := by
  have hle {x : Char} (hx : 0x20 ≤ x.toNat) (h : x ≤ c) : 0x20 ≤ c.toNat :=
    Nat.le_trans hx (UInt32.le_iff_toNat_le.mp h)
  unfold Text.hexValue? at h
  simp only [Bool.and_eq_true, decide_eq_true_eq] at h
  split at h
  · exact hle (x := '0') (by decide) (And.left ‹_›)
  split at h
  · exact hle (x := 'a') (by decide) (And.left ‹_›)
  split at h
  · exact hle (x := 'A') (by decide) (And.left ‹_›)
  · cases h

theorem le_toNat_of_mem_chars {piece : Piece} {c : Char} (h : c ∈ piece.chars) :
    0x20 ≤ c.toNat := by
  cases piece with
  | plain x hx =>
      rw [List.mem_singleton.mp h]
      simp only [isUnescaped, Bool.and_eq_true, decide_eq_true_eq] at hx
      exact hx.1.1
  | escape letter value hvalue =>
      rcases List.mem_cons.mp h with rfl | h
      · decide
      · rw [List.mem_singleton.mp h]
        unfold JsonText.escaped? at hvalue
        split at hvalue <;> first | decide | cases hvalue
  | code digits value hvalue hvalid =>
      obtain ⟨c₁, c₂, c₃, c₄, w, x, y, z, rfl, hw, hx, hy, hz, -⟩ := code?_cases hvalue
      simp only [Piece.chars, List.mem_cons, List.not_mem_nil, or_false] at h
      rcases h with rfl | rfl | rfl | rfl | rfl | rfl
      · decide
      · decide
      · exact le_toNat_of_hexValue? hw
      · exact le_toNat_of_hexValue? hx
      · exact le_toNat_of_hexValue? hy
      · exact le_toNat_of_hexValue? hz

/-- No character of a string is a control character, escapes included. -/
theorem le_toNat_of_mem {s : List Piece} {c : Char} (hc : c ∈ quoted s) : 0x20 ≤ c.toNat := by
  simp only [quoted, List.cons_append, List.mem_cons, List.mem_append, charsOf, List.mem_flatMap,
    List.not_mem_nil, or_false] at hc
  rcases hc with rfl | ⟨piece, -, h⟩ | rfl
  · decide
  · exact le_toNat_of_mem_chars h
  · decide

/-- Where a quoted string ends. -/
theorem quoted_eq_skipFrom {s : List Piece} (hs : Unmarked s) (rest : List Char) (p : Place) :
    Lexeme.quoted true ⟨p, quoted s ++ rest⟩ = .ok
      { text := Yaml.textOf (heard .words [] s)
        cursor := Cursor.skipFrom p (quoted s).length (quoted s ++ rest) } := by
  obtain ⟨p', h⟩ := quoted_string hs rest p
  have hmoves : Moves p (quoted s ++ rest) ⟨p', rest⟩ := Moves.cons (moves_quotedFrom h)
  rw [h, ← hmoves.eq rfl]

/-- The colon behind a name can make it a key. -/
def isNear (s : List Piece) (gap : List Char) : Bool :=
  (quoted s ++ gap).all (!isBreak ·) && (quoted s ++ gap).length ≤ PossibleKey.maxLength

theorem isCurrent_eq {cs : List Char} (hcs : ∀ c ∈ cs, c ≠ '\r') (rest : List Char)
    (key : PossibleKey) :
    key.isCurrent (Cursor.skipFrom key.place cs.length (cs ++ rest)).place
      = (cs.all (!isBreak ·) && cs.length ≤ PossibleKey.maxLength) := by
  have htake : ∀ c ∈ (cs ++ rest).take cs.length, c ≠ '\r' := by simpa using hcs
  have hlength : cs.length ≤ (cs ++ rest).length := by simp
  have hline := (Cursor.line_skipFrom (p := key.place) htake).2
  have hindex := Cursor.index_skipFrom (p := key.place) hlength
  rw [List.take_left] at hline
  rw [PossibleKey.isCurrent, hindex, Nat.add_sub_cancel_left, Bool.eq_iff_iff, Bool.and_eq_true,
    Bool.and_eq_true, beq_iff_eq, eq_comm, hline]

/-- The tokens of a name and its colon. -/
def nameTokens (s : List Piece) (gap : List Char) : List Token :=
  (if isNear s gap then [.key] else []) ++ [.scalar (Yaml.textOf (heard .words [] s)) false, .value]

end JsonText

namespace Yaml.Lexer

open JsonText

variable {l l' : Lexer} {gap rest : List Char} {depth : Nat}

theorem rests_filter (h : l.Rests depth) (keep : PossibleKey → Bool) :
    ({ l with keys := l.keys.map (·.filter keep) } : Lexer).Rests depth := by
  refine ⟨by simpa using h.depth, ?_, h.count⟩
  intro kept hkept
  obtain ⟨key, hkey, rfl⟩ := List.mem_map.mp hkept
  have := h.unforced key hkey
  cases key <;> simp_all [Option.filter]
  split <;> simp_all

theorem dropStaleKeys_eq (h : l.Rests depth) : l.dropStaleKeys =
    .ok { l with keys := l.keys.map (·.filter (·.isCurrent l.cursor.place)) } := by
  have hnone : (l.keys.any (·.any fun key => !key.isCurrent l.cursor.place && key.required))
      = false := by
    rw [List.any_eq_false]
    intro key hkey
    have := h.unforced key hkey
    cases key <;> simp_all
  unfold dropStaleKeys
  simp only [hnone, Bool.not_not, Bool.false_eq_true, if_false]

theorem noteKey_flow (h : l.Rests (depth + 1)) (hallowed : l.keyAllowed = true) :
    l.noteKey = .ok (l.setKey (some ⟨l.count, l.cursor.place, false⟩)) := by
  have hflow : l.inFlow = true := by simp [h.inFlow]
  rw [noteKey, if_pos hallowed, h.dropKey]
  simp [hflow, bind, Except.bind, pure, Except.pure, setKey]

/-- Reading passes a string that may turn out to be a key. -/
structure Names (l l' : Lexer) (depth : Nat) (s : List Piece) (rest : List Char)
    (key : PossibleKey) : Prop where
  reads : Reads l l'
  rests : l'.Rests depth
  possible : l'.possibleKey = some key
  number : key.number + 1 = l'.count
  cursor : l'.cursor = Cursor.skipFrom key.place (quoted s).length (quoted s ++ rest)
  tokens : l'.tokens = .scalar (Yaml.textOf (heard .words [] s)) false :: l.tokens
  indents : l'.indent :: l'.outer = l.indent :: l.outer

theorem Names.cursor_rest {s : List Piece} {key : PossibleKey} (h : Names l l' depth s rest key) :
    l'.cursor.rest = rest := by
  rw [h.cursor, Cursor.rest_skipFrom, List.drop_left]

/-- A name. -/
theorem exists_names {s : List Piece} (hs : Unmarked s) (hrests : l.Rests (depth + 1))
    (hallowed : l.keyAllowed = true) (hnears : l.Nears (quoted s ++ rest)) :
    ∃ l' key, Names l l' (depth + 1) s rest key := by
  obtain ⟨next, hnext, hskip, hunwind, hrest, htokens, hindents, hallowed', hle⟩ :=
    hnears.next hrests
  let key : PossibleKey := ⟨next.count, next.cursor.place, false⟩
  let text := Yaml.textOf (heard .words [] s)
  let cursor := Cursor.skipFrom next.cursor.place (quoted s).length (quoted s ++ rest)
  have hquoted : Lexeme.quoted true next.cursor = .ok { text, cursor } := by
    have hcursor : next.cursor = ⟨next.cursor.place, quoted s ++ rest⟩ :=
      congrArg (Cursor.mk next.cursor.place) hrest
    rw [hcursor]
    exact quoted_eq_skipFrom hs _ _
  have hbehind : cursor.rest = rest := by rw [Cursor.rest_skipFrom, List.drop_left]
  let named : Lexer := { (next.setKey (some key)).push (.scalar text false) with
    cursor, keyAllowed := false }
  have hread : next.readToken '"' (charsOf s ++ ['"'] ++ rest) = .ok named := by
    have hnote := noteKey_flow hnext (hallowed'.trans hallowed)
    simp [readToken, documentMark, readNode, hnote, hquoted, bind, Except.bind, pure, Except.pure,
      named, setKey, key]
  have hlength : named.cursor.rest.length < l.cursor.rest.length := by
    rw [show named.cursor.rest = rest from hbehind]
    refine Nat.lt_of_lt_of_le ?_ hle
    simp only [quoted, List.length_append, List.length_cons]
    omega
  exact ⟨named, key, .token hskip hunwind hrest hread hlength,
    (hnext.setKey (some key) rfl).push _ _ _, rfl, rfl, rfl, by rw [← htokens]; rfl, hindents⟩

/-- At its colon a name can still be a key if it is near. -/
theorem Names.isCurrent {s : List Piece} {key : PossibleKey}
    (h : Names l l' depth s (gap ++ ':' :: rest) key) (hgap : IsLaid gap) :
    key.isCurrent (Cursor.skipFrom l'.cursor.place gap.length (gap ++ ':' :: rest)).place
      = isNear s gap := by
  have hplace : Cursor.skipFrom l'.cursor.place gap.length (gap ++ ':' :: rest) =
      Cursor.skipFrom key.place (quoted s ++ gap).length ((quoted s ++ gap) ++ ':' :: rest) := by
    rw [List.length_append, Cursor.skipFrom_add, List.append_assoc, List.drop_left, ← h.cursor]
  have hreturn : ∀ c ∈ quoted s ++ gap, c ≠ '\r' := by
    rintro c hc rfl
    rcases List.mem_append.mp hc with hc | hc
    · exact absurd (le_toNat_of_mem hc) (by decide)
    · exact absurd (hgap _ hc) (by decide)
  rw [hplace, isCurrent_eq hreturn, isNear]

/-- A colon behind a possible key. -/
theorem readValue_key (h : l.Rests (depth + 1)) {key : PossibleKey}
    (hkey : l.possibleKey = some key) : l.readValue = .ok (((((l.setKey none).insertAt key.number
      .key).allowKey false).push .value).skip 1) := by
  have hinserted := (h.setKey none rfl).insertAt key.number .key
  rw [readValue, hkey]
  simp [hinserted.inFlow, pure, Except.pure]

/-- A colon without a possible key. -/
theorem readValue_unkeyed (h : l.Rests (depth + 1)) (hkey : l.possibleKey = none) :
    l.readValue = .ok ((((l.allowKey false).setKey none).push .value).skip 1) := by
  have hflow : l.inFlow = true := by simp [h.inFlow]
  have hdrop : (l.allowKey false).dropKey = .ok ((l.allowKey false).setKey none) :=
    (⟨h.depth, h.unforced, h.count⟩ : (l.allowKey false).Rests (depth + 1)).dropKey
  rw [readValue, hkey]
  simp [beginBlock, hflow, hdrop, bind, Except.bind, pure, Except.pure]

/-- The colon behind a name. The name becomes a key if it can still be one. -/
theorem Names.passes_colon {s : List Piece} {key : PossibleKey}
    (h : Names l l' (depth + 1) s (gap ++ ':' :: rest) key) (hgap : IsLaid gap) :
    ∃ l'', Passes l l'' (depth + 1) false (nameTokens s gap) rest := by
  let cursor := Cursor.skipFrom l'.cursor.place gap.length (gap ++ ':' :: rest)
  let reached : Lexer := { l' with
    cursor, keys := l'.keys.map (·.filter (·.isCurrent cursor.place)) }
  have hflow : l'.inFlow = true := by simp [h.rests.inFlow]
  have hrests : reached.Rests (depth + 1) := by
    have hfilter := rests_filter h.rests (·.isCurrent cursor.place)
    exact ⟨hfilter.depth, hfilter.unforced, hfilter.count⟩
  have hflow' : reached.inFlow = true := by simp [hrests.inFlow]
  have hskip : l'.skipGap.dropStaleKeys = .ok reached := by
    rw [skipGap_laid hflow hgap h.cursor_rest (by decide : isTokenStart ':')]
    exact dropStaleKeys_eq ⟨h.rests.depth, h.rests.unforced, h.rests.count⟩
  have hrest : reached.cursor.rest = ':' :: rest := by
    rw [Cursor.rest_skipFrom, List.drop_left]
  have hread : reached.readToken ':' rest = reached.readValue := by
    simp [readToken, documentMark, hflow']
  have hsteps {l'' : Lexer} (hvalue : reached.readValue = .ok l'')
      (hcursor : l''.cursor.rest = rest) : Reads l l'' := by
    refine h.reads.trans (.token hskip (unwind_of_le (.inl hflow')) hrest (hread.trans hvalue) ?_)
    rw [hcursor, h.cursor_rest]
    simp only [List.length_append, List.length_cons]
    omega
  have hkey : reached.possibleKey = if isNear s gap then some key else none := by
    have hhead : reached.possibleKey = l'.possibleKey.filter (·.isCurrent cursor.place) := by
      simp only [reached, possibleKey]
      cases l'.keys <;> rfl
    rw [hhead, h.possible, Option.filter, h.isCurrent hgap]
  -- the colon belongs to the key if this one is near enough, and stands alone otherwise
  cases hcase : isNear s gap with
  | true =>
      rw [hcase, if_pos rfl] at hkey
      have hcursor : (((((reached.setKey none).insertAt key.number .key).allowKey false).push
          .value).skip 1).cursor.rest = rest := rest_skip_one hrest
      have hinserted := (hrests.setKey none rfl).insertAt key.number .key
      refine ⟨_, hsteps (readValue_key hrests hkey) hcursor, hinserted.push .value _ false, rfl,
        hcursor, ?_, h.indents⟩
      have hlater : l'.count - key.number = 1 := by
        have := h.number
        omega
      simp [nameTokens, hcase, Lexer.skip, Lexer.push, Lexer.allowKey, insertAt, reached, setKey,
        hlater, h.tokens]
  | false =>
      rw [hcase] at hkey
      have hcursor : ((((reached.allowKey false).setKey none).push .value).skip 1).cursor.rest
          = rest := rest_skip_one hrest
      refine ⟨_, hsteps (readValue_unkeyed hrests hkey) hcursor,
        (hrests.setKey none rfl).push .value _ false, rfl, hcursor, ?_, h.indents⟩
      simp [nameTokens, hcase, Lexer.skip, Lexer.push, Lexer.allowKey, reached, setKey, h.tokens]

end Yaml.Lexer
end ApiManifest
