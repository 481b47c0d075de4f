import ApiManifest.Proofs.JsonTexts
import ApiManifest.Proofs.Quotes

/-!
# Strings of JSON in YAML

YAML reads a string of JSON as a text between double quotes. Escapes mean the same in both. But JSON
lets a string hold characters at which YAML ends a line, and there YAML folds the text: some breaks
become spaces, and blanks around a break are dropped. At the beginning of a line the document may
even end.
-/

namespace ApiManifest

namespace Yaml.QuotedMode

/-- What has been read if the line goes on, the last character first. -/
def whole : QuotedMode → List Char → List Char
  | .blanks seen, read => seen ++ read
  | .breaks first more, read => folded first more ++ read
  | _, read => read

/-- Where the reader is behind a character that stands for itself, and what it has read. -/
def behind (mode : QuotedMode) (read : List Char) (c : Char) : QuotedMode × List Char :=
  if c = ' ' then
    match mode with
    | .breaks first more => (.breaks first more, read)
    | .blanks seen => (.blanks (' ' :: seen), read)
    | _ => (.blanks [' '], read)
  else if isBreak c then
    match mode with
    | .breaks first more => (.breaks first (breakValue c :: more), read)
    | _ => (.breaks (breakValue c) [], read)
  else (.words, c :: mode.whole read)

end Yaml.QuotedMode

namespace JsonText

open Yaml

/-! ## Reading pieces -/

namespace Piece

/-- The character that stands for itself. -/
def raw? : Piece → Option Char
  | plain c _ => some c
  | _ => none

/-- Where the reader is behind a piece, and what it has read. -/
def step (mode : QuotedMode) (read : List Char) : Piece → QuotedMode × List Char
  | plain c _ => mode.behind read c
  | p => (.words, p.value :: mode.whole read)

end Piece

/-- What is read of a string, the last character first. -/
def heard (mode : QuotedMode) (read : List Char) : List Piece → List Char
  | [] => mode.whole read
  | p :: rest => heard (p.step mode read).1 (p.step mode read).2 rest

/-- The document does not end in a string: no mark of its end stands behind a break. -/
def Unmarked : List Piece → Prop
  | [] => True
  | p :: rest => (p.raw?.any isBreak → documentMark (charsOf rest ++ ['"']) = false) ∧ Unmarked rest

instance Unmarked.decidable : ∀ s : List Piece, Decidable (Unmarked s)
  | [] => .isTrue trivial
  | p :: rest =>
    have := Unmarked.decidable rest
    inferInstanceAs (Decidable ((p.raw?.any isBreak →
      documentMark (charsOf rest ++ ['"']) = false) ∧ Unmarked rest))

section

variable {mode : QuotedMode} {c : Char} {read rest : List Char} {p : Place}

attribute [local simp] quotedFrom

/-- What is no blank shows that the line goes on. -/
theorem quotedFrom_whole (hm : mode.Between) (hc : isSpace c = false) :
    quotedFrom true mode read p (c :: rest)
      = quotedFrom true .words (mode.whole read) p (c :: rest) := by
  cases mode with
  | words => rfl
  | blanks seen => exact quotedFrom_held trivial hc
  | breaks first more =>
      simp only [isSpace, Bool.or_eq_false_iff, beq_eq_false_iff_ne] at hc
      simp [hc, joinsNext_of_not_isBreak hc.2, QuotedMode.whole]
  | _ => exact hm.elim

theorem ne_of_isUnescaped (hc : isUnescaped c) : c ≠ '\t' ∧ c ≠ '\n' ∧ c ≠ '\r' := by
  refine ⟨?_, ?_, ?_⟩ <;> rintro rfl <;> exact absurd hc (by decide)

/-- A character that stands for itself. -/
theorem quotedFrom_plain (hm : mode.Between) (hc : isUnescaped c)
    (hmark : isBreak c → documentMark rest = false) (read : List Char) (p : Place) :
    (mode.behind read c).1.Between ∧ quotedFrom true mode read p (c :: rest) =
      quotedFrom true (mode.behind read c).1 (mode.behind read c).2 (p.after c rest) rest := by
  obtain ⟨htab, hfeed, hreturn⟩ := ne_of_isUnescaped hc
  have hjoins : joinsNext c rest = false := by simp [joinsNext, hreturn]
  by_cases hspace : c = ' '
  · subst hspace
    cases mode with
    | words | blanks _ | breaks _ _ =>
        exact ⟨trivial, by simp [QuotedMode.behind]⟩
    | _ => exact hm.elim
  by_cases hbreak : isBreak c = true
  · have hnot := hmark hbreak
    cases mode with
    | words | blanks _ | breaks _ _ =>
        refine ⟨by simp [QuotedMode.behind, hspace, hbreak, QuotedMode.Between], ?_⟩
        simp [QuotedMode.behind, hspace, htab, hjoins, hbreak, hnot]
    | _ => exact hm.elim
  · simp only [isUnescaped, Bool.and_eq_true, decide_eq_true_eq, bne_iff_ne] at hc
    have hblank : isSpace c = false := by simp [isSpace, hspace, htab, hbreak]
    have hbehind : mode.behind read c = (.words, c :: mode.whole read) := by
      simp [QuotedMode.behind, hspace, hbreak]
    rw [hbehind, quotedFrom_whole hm hblank]
    exact ⟨trivial, quotedFrom_word trivial hblank hc.1.2 hc.2⟩

theorem escaped?_of_escaped? {letter : Char} (h : JsonText.escaped? letter = some c) :
    Yaml.escaped? letter = some c ∧ isBreak letter = false := by
  unfold JsonText.escaped? at h
  split at h <;> cases h <;> decide

theorem code?_cases {digits : List Char} {value : Nat} (h : code? digits = some value) :
    ∃ c₁ c₂ c₃ c₄ w x y z, digits = [c₁, c₂, c₃, c₄] ∧ Text.hexValue? c₁ = some w ∧
      Text.hexValue? c₂ = some x ∧ Text.hexValue? c₃ = some y ∧ Text.hexValue? c₄ = some z ∧
      value = ((w * 16 + x) * 16 + y) * 16 + z := by
  unfold code? at h
  split at h
  · split at h
    · cases h
      exact ⟨_, _, _, _, _, _, _, _, rfl, ‹_›, ‹_›, ‹_›, ‹_›, rfl⟩
    · cases h
  · cases h

theorem quotedFrom_codeDigits {digits : List Char} {value : Nat} (h : code? digits = some value)
    (hvalid : value.isValidChar) (read rest : List Char) (p : Place) : ∃ p',
    quotedFrom true .words read p ('\\' :: 'u' :: digits ++ rest)
      = quotedFrom true .words (Char.ofNat value :: read) p' rest := by
  obtain ⟨c₁, c₂, c₃, c₄, w, x, y, z, rfl, hw, hx, hy, hz, rfl⟩ := code?_cases h
  have hle : ((w * 16 + x) * 16 + y) * 16 + z ≤ 0x10FFFF := by
    unfold Nat.isValidChar at hvalid
    omega
  have hletter (cs : List Char) (q : Place) : quotedFrom true .escape read q ('u' :: cs)
      = quotedFrom true (.code 4 0) read (q.after 'u' cs) cs := by
    simp [joinsNext, isBreak, Yaml.escaped?, codeLength?]
  have hline : QuotedMode.words.OnLine := trivial
  have hheld : QuotedMode.words.held read = read := rfl
  rw [List.cons_append, List.cons_append, quotedFrom_slash hline, hheld, hletter]
  simp only [List.cons_append, List.nil_append]
  rw [quotedFrom_digit hw, quotedFrom_digit hx, quotedFrom_digit hy,
    quotedFrom_lastDigit hz (by simpa using hle)]
  simp only [Nat.zero_mul, Nat.zero_add]
  exact ⟨_, rfl⟩

/-- A piece of a string. -/
theorem quotedFrom_piece (piece : Piece) (hm : mode.Between)
    (hmark : piece.raw?.any isBreak → documentMark rest = false) (read : List Char) (p : Place) :
    (piece.step mode read).1.Between ∧ ∃ p', quotedFrom true mode read p (piece.chars ++ rest) =
      quotedFrom true (piece.step mode read).1 (piece.step mode read).2 p' rest := by
  cases piece with
  | plain c hc =>
      obtain ⟨hbetween, hread⟩ := quotedFrom_plain hm hc hmark read p
      exact ⟨hbetween, _, hread⟩
  | escape letter value hvalue =>
      obtain ⟨hletter, hbreak⟩ := escaped?_of_escaped? hvalue
      have hline : QuotedMode.words.OnLine := trivial
      obtain ⟨p', hread⟩ := quotedFrom_escape hline hletter hbreak (mode.whole read) rest p
      exact ⟨trivial, p', (quotedFrom_whole hm (by decide)).trans hread⟩
  | code digits value hvalue hvalid =>
      obtain ⟨p', hread⟩ := quotedFrom_codeDigits hvalue hvalid (mode.whole read) rest p
      exact ⟨trivial, p', (quotedFrom_whole hm (by decide)).trans hread⟩

end

theorem documentMark_cons (a b c : Char) (rest : List Char) : documentMark (a :: b :: c :: rest) =
    (((a == '-' && b == '-' && c == '-') || (a == '.' && b == '.' && c == '.')) &&
      spaceAhead rest) := by
  unfold documentMark
  split <;> simp_all
  grind

/-- Nothing behind the quote that ends a string makes a mark of what stands before it. -/
theorem documentMark_quote (cs rest : List Char) :
    documentMark (cs ++ '"' :: rest) = documentMark (cs ++ ['"']) := by
  rcases cs with _ | ⟨c₁, _ | ⟨c₂, _ | ⟨c₃, _ | ⟨c₄, cs⟩⟩⟩⟩
  · simp [documentMark]
  · simp [documentMark]
  · simp [documentMark]
  · simp only [List.cons_append, List.nil_append, documentMark_cons, spaceAhead]
  · simp only [List.cons_append, documentMark_cons, spaceAhead]

/-- A string is read up to the quote behind it. -/
theorem quotedFrom_charsOf {s : List Piece} (hs : Unmarked s) {mode : QuotedMode}
    (hm : mode.Between) (read rest : List Char) (p : Place) : ∃ p',
    quotedFrom true mode read p (charsOf s ++ '"' :: rest)
      = .ok { text := Yaml.textOf (heard mode read s), cursor := ⟨p', rest⟩ } := by
  induction s generalizing mode read p with
  | nil =>
      refine ⟨p.after '"' rest, ?_⟩
      rw [charsOf, List.flatMap_nil, List.nil_append, quotedFrom_whole hm (by decide), quotedFrom]
      simp [joinsNext, isBreak, heard]
  | cons piece s ih =>
      obtain ⟨hmark, hs⟩ := hs
      have hmark' (h : piece.raw?.any isBreak) : documentMark (charsOf s ++ '"' :: rest) = false :=
        (documentMark_quote _ _).trans (hmark h)
      obtain ⟨hbetween, p₁, hstep⟩ := quotedFrom_piece piece hm hmark' read p
      obtain ⟨p', hread⟩ := ih hs hbetween (piece.step mode read).2 p₁
      refine ⟨p', ?_⟩
      rw [charsOf, List.flatMap_cons, List.append_assoc]
      exact hstep.trans hread

/-- **A quoted string is read as what is heard of it.** -/
theorem quoted_string {s : List Piece} (hs : Unmarked s) (rest : List Char) (p : Place) : ∃ p',
    Lexeme.quoted true ⟨p, quoted s ++ rest⟩
      = .ok { text := Yaml.textOf (heard .words [] s), cursor := ⟨p', rest⟩ } := by
  have hstart : QuotedMode.words.Between := trivial
  obtain ⟨p', hread⟩ := quotedFrom_charsOf hs hstart [] rest
    (p.after '"' (charsOf s ++ '"' :: rest))
  refine ⟨p', ?_⟩
  simpa [Lexeme.quoted, quoted, Cursor.skip, Cursor.skipFrom] using hread

/-! ## What stays of a string -/

namespace Piece

/-- A space that stands for itself. -/
def isSpace (p : Piece) : Bool := p.raw? == some ' '

/-- A line separator of Unicode that stands for itself. -/
def isSeparator (p : Piece) : Bool := p.raw?.any fun c => c == '\u2028' || c == '\u2029'

end Piece

/-- Nothing of a string is folded. YAML takes a next line for a line feed, and drops the spaces
around every break, but keeps the line separators of Unicode. -/
def Unfolded : List Piece → Prop
  | [] => True
  | p :: rest => p.raw? ≠ some '\u0085' ∧ (p.isSpace → ¬ rest.head?.any Piece.isSeparator) ∧
      (p.isSeparator → ¬ rest.head?.any Piece.isSpace) ∧ Unfolded rest

instance Unfolded.decidable : ∀ s : List Piece, Decidable (Unfolded s)
  | [] => .isTrue trivial
  | p :: rest =>
    have := Unfolded.decidable rest
    inferInstanceAs (Decidable (p.raw? ≠ some '\u0085' ∧
      (p.isSpace → ¬ rest.head?.any Piece.isSeparator) ∧
      (p.isSeparator → ¬ rest.head?.any Piece.isSpace) ∧ Unfolded rest))

namespace Piece

/-- A piece is a space, a next line, a separator, or something at which no line ends. -/
theorem cases_step (p : Piece) :
    (p.isSpace ∧ p.isSeparator = false ∧ p.value = ' ' ∧
      ∀ mode read, p.step mode read = mode.behind read ' ') ∨
    (p.raw? = some '\u0085' ∧ p.value = '\u0085' ∧ p.isSpace = false ∧
      ∀ mode read, p.step mode read = mode.behind read '\u0085') ∨
    (p.isSeparator ∧ p.isSpace = false ∧ p.raw? ≠ some '\u0085' ∧
      breakValue p.value = p.value ∧ p.value ≠ '\n' ∧ p.value ≠ ' ' ∧ isBreak p.value ∧
      ∀ mode read, p.step mode read = mode.behind read p.value) ∨
    (p.isSpace = false ∧ p.isSeparator = false ∧ p.raw? ≠ some '\u0085' ∧
      ∀ mode read, p.step mode read = (.words, p.value :: mode.whole read)) := by
  cases p with
  | plain c hc =>
      -- a character that is no space, no line break and no separator stands for itself
      by_cases hspace : c = ' '
      · subst hspace
        exact .inl ⟨rfl, rfl, rfl, fun _ _ => rfl⟩
      by_cases hnext : c = '\u0085'
      · subst hnext
        exact .inr (.inl ⟨rfl, rfl, rfl, fun _ _ => rfl⟩)
      by_cases hseparator : c = '\u2028' ∨ c = '\u2029'
      · refine .inr (.inr (.inl ?_))
        rcases hseparator with rfl | rfl <;>
          exact ⟨rfl, rfl, by simp [raw?], rfl, by simp [value], by simp [value], rfl,
            fun _ _ => rfl⟩
      · obtain ⟨-, hfeed, hreturn⟩ := ne_of_isUnescaped hc
        have hbreak : isBreak c = false := by simp_all [isBreak]
        refine .inr (.inr (.inr ⟨by simpa [isSpace, raw?] using hspace,
          by simpa [isSeparator, raw?] using hseparator, by simpa [raw?] using hnext,
          fun mode read => ?_⟩))
        simp [step, QuotedMode.behind, hspace, hbreak, value]
  | escape | code =>
      exact .inr (.inr (.inr ⟨rfl, rfl, by simp [raw?], fun _ _ => rfl⟩))

end Piece

/-- All that has been read, blanks and breaks included, the last character first. -/
def passed : QuotedMode → List Char → List Char
  | .blanks seen, read => seen ++ read
  | .breaks first more, read => more ++ first :: read
  | _, read => read

/-- Between two pieces. -/
def Stands : QuotedMode → Prop
  | .words | .breaks _ _ => True
  | .blanks seen => seen ≠ []
  | _ => False

/-- The next piece does not make the reader drop anything that it has passed, or that piece. -/
def Spares : QuotedMode → List Piece → Prop
  | .blanks _, s => ¬ s.head?.any Piece.isSeparator
  | .breaks _ _, s => ¬ s.head?.any Piece.isSpace
  | _, _ => True

/-- The breaks that have been passed count. -/
def Counts : QuotedMode → Prop
  | .breaks first _ => first ≠ '\n'
  | _ => True

theorem whole_eq {mode : QuotedMode} (h : Counts mode) (read : List Char) :
    mode.whole read = passed mode read := by
  cases mode with
  | breaks first more => simp [QuotedMode.whole, passed, folded, show first ≠ '\n' from h]
  | _ => rfl

/-- A string in which nothing is folded is heard as it is. -/
theorem heard_eq {s : List Piece} (hs : Unfolded s) {mode : QuotedMode} (hm : Stands mode)
    (hcounts : Counts mode) (hspares : Spares mode s) (read : List Char) :
    heard mode read s = (s.map Piece.value).reverse ++ passed mode read := by
  induction s generalizing mode read with
  | nil => exact whole_eq hcounts read
  | cons p s ih =>
      obtain ⟨hnext, hspace, hseparator, hs⟩ := hs
      -- each kind of piece adds its value to what is heard, and the conditions carry over
      have hstep : Stands (p.step mode read).1 ∧ Counts (p.step mode read).1 ∧
          Spares (p.step mode read).1 s ∧
          passed (p.step mode read).1 (p.step mode read).2 = p.value :: passed mode read := by
        rcases p.cases_step with ⟨h, -, hvalue, hbehind⟩ | ⟨h, -⟩ |
          ⟨h, -, -, hkept, hfeed, hne, hbreak, hbehind⟩ | ⟨-, -, -, hbehind⟩
        · rw [hbehind, hvalue]
          cases mode with
          | words | blanks => exact ⟨List.cons_ne_nil _ _, trivial, hspace h, rfl⟩
          | breaks => exact absurd h hspares
          | _ => exact hm.elim
        · exact absurd h hnext
        · rw [hbehind]
          simp only [QuotedMode.behind, if_neg hne, if_pos hbreak, hkept]
          cases mode with
          | words => exact ⟨trivial, hfeed, hseparator h, rfl⟩
          | blanks => exact absurd h hspares
          | breaks => exact ⟨trivial, hcounts, hseparator h, rfl⟩
          | _ => exact hm.elim
        · rw [hbehind, ← whole_eq hcounts]
          exact ⟨trivial, trivial, trivial, rfl⟩
      obtain ⟨hm', hcounts', hspares', hpassed⟩ := hstep
      rw [heard, ih hs hm' hcounts' hspares', hpassed]
      simp

/-- What a character weighs. A next line weighs more than what is read of it. -/
def cost (c : Char) : Nat := if c = '\u0085' then 2 else 1

/-- What a text weighs. Nothing that is folded gets heavier. -/
def weight : List Char → Nat
  | [] => 0
  | c :: cs => cost c + weight cs

@[simp] theorem weight_nil : weight [] = 0 := rfl

@[simp] theorem weight_cons (c : Char) (cs : List Char) : weight (c :: cs) = cost c + weight cs :=
  rfl

@[simp] theorem weight_append (cs ds : List Char) : weight (cs ++ ds) = weight cs + weight ds := by
  induction cs with
  | nil => simp
  | cons c cs ih => simp [ih, Nat.add_assoc]

@[simp] theorem weight_reverse (cs : List Char) : weight cs.reverse = weight cs := by
  induction cs with
  | nil => rfl
  | cons c cs ih => simp [ih, Nat.add_comm]

theorem cost_pos (c : Char) : 0 < cost c := by
  unfold cost
  split <;> omega

theorem weight_pos {cs : List Char} (h : cs ≠ []) : 0 < weight cs := by
  obtain ⟨c, rest, rfl⟩ := List.exists_cons_of_ne_nil h
  have := cost_pos c
  simp only [weight_cons]
  omega

theorem weight_whole (mode : QuotedMode) (read : List Char) :
    weight (mode.whole read) ≤ weight (passed mode read) := by
  cases mode with
  | breaks first more =>
      have hpos := cost_pos first
      have hspace : cost ' ' = 1 := rfl
      simp only [QuotedMode.whole, passed, folded]
      split
      · simp
      split
      · simp
        omega
      · simp
  | _ => exact Nat.le_refl _

/-- A piece adds no more than it weighs. If it adds all of that, nothing has been dropped. -/
theorem weight_step {mode : QuotedMode} (hm : Stands mode) (read : List Char) (p : Piece)
    (rest : List Piece) :
    Stands (p.step mode read).1 ∧
    weight (passed (p.step mode read).1 (p.step mode read).2)
      ≤ cost p.value + weight (passed mode read) ∧
    (weight (passed (p.step mode read).1 (p.step mode read).2)
      = cost p.value + weight (passed mode read) →
      p.raw? ≠ some '\u0085' ∧ Spares mode (p :: rest)) := by
  rcases p.cases_step with ⟨h, hnot, hvalue, hbehind⟩ | ⟨h, hvalue, -, hbehind⟩ |
    ⟨h, hnot, hnext, hkept, hfeed, hne, hbreak, hbehind⟩ | ⟨hnot, hnot', hnext, hbehind⟩
  -- a space, a next-line character, a separator, or any other piece: each of them in every mode
  all_goals rw [hbehind]
  · have hnext : p.raw? ≠ some '\u0085' := by
      have : p.raw? = some ' ' := by simpa [Piece.isSpace] using h
      simp [this]
    have hcost : cost ' ' = 1 := rfl
    rw [hvalue]
    cases mode with
    | words => simp [QuotedMode.behind, passed, Stands, hnext, Spares]
    | blanks => simp [QuotedMode.behind, passed, Stands, hnext, Spares, hnot]
    | breaks => simp [QuotedMode.behind, passed, Stands, hcost]
    | _ => exact hm.elim
  · have hcost : cost '\u0085' = 2 := rfl
    have hcost' : cost (breakValue '\u0085') = 1 := rfl
    have hbreak : isBreak '\u0085' = true := rfl
    have hne : '\u0085' ≠ ' ' := by decide
    rw [hvalue]
    simp only [QuotedMode.behind, if_neg hne, if_pos hbreak]
    cases mode with
    | words => simp [passed, hcost, hcost', Stands]
    | blanks => simp [passed, hcost, hcost', Stands]; omega
    | breaks => simp [passed, hcost, hcost', Stands]
    | _ => exact hm.elim
  · simp only [QuotedMode.behind, if_neg hne, if_pos hbreak, hkept]
    cases mode with
    | words => simp [passed, Stands, hnext, Spares]
    | blanks seen =>
        have := weight_pos hm
        simp [passed, Stands]
        omega
    | breaks => simp [passed, Stands, hnext, Spares, hnot]
    | _ => exact hm.elim
  · have hwhole := weight_whole mode read
    refine ⟨trivial, by simpa [passed] using hwhole, fun _ => ⟨hnext, ?_⟩⟩
    cases mode <;> simp [Spares, hnot, hnot']

/-- Where neither a piece nor the next one is dropped, no break stands next to a space. -/
theorem not_folded_of_spares {mode : QuotedMode} (hm : Stands mode) (read : List Char) {p : Piece}
    {rest : List Piece} (h : Spares mode (p :: rest)) (h' : Spares (p.step mode read).1 rest) :
    (p.isSpace → ¬ rest.head?.any Piece.isSeparator) ∧
      (p.isSeparator → ¬ rest.head?.any Piece.isSpace) := by
  rcases p.cases_step with ⟨hp, hnot, -, hbehind⟩ | ⟨hp, -, hnot, -⟩ |
    ⟨-, hnot, -, -, -, hne, hbreak, hbehind⟩ | ⟨hnot, hnot', -, -⟩
  · refine ⟨fun _ => ?_, by simp [hnot]⟩
    rw [hbehind] at h'
    cases mode with
    | words | blanks => exact h'
    | breaks => exact absurd hp h
    | _ => exact hm.elim
  · exact ⟨by simp [hnot], by simp [Piece.isSeparator, hp]⟩
  · refine ⟨by simp [hnot], fun _ => ?_⟩
    rw [hbehind] at h'
    simp only [QuotedMode.behind, if_neg hne, if_pos hbreak] at h'
    cases mode with
    | words | blanks | breaks => exact h'
    | _ => exact hm.elim
  · simp [hnot, hnot']

/-- A string is heard with no more than its weight. If it is heard with all of that, nothing is
folded in it. -/
theorem weight_heard {mode : QuotedMode} (hm : Stands mode) (read : List Char) (s : List Piece) :
    weight (heard mode read s) ≤ weight (s.map Piece.value) + weight (passed mode read) ∧
    (weight (heard mode read s) = weight (s.map Piece.value) + weight (passed mode read) →
      Unfolded s ∧ Spares mode s) := by
  induction s generalizing mode read with
  | nil =>
      refine ⟨by simpa [heard] using weight_whole mode read, fun _ => ⟨trivial, ?_⟩⟩
      cases mode <;> simp [Spares]
  | cons p s ih =>
      obtain ⟨hm', hle, htight⟩ := weight_step hm read p s
      obtain ⟨hle', htight'⟩ := ih hm' (p.step mode read).2
      simp only [heard, List.map_cons, weight_cons]
      refine ⟨by omega, fun heq => ?_⟩
      obtain ⟨hnext, hspares⟩ := htight (by omega)
      obtain ⟨hs, hspares'⟩ := htight' (by omega)
      obtain ⟨hspace, hseparator⟩ := not_folded_of_spares hm read hspares hspares'
      exact ⟨⟨hnext, hspace, hseparator, hs⟩, hspares⟩

/-- **A string is heard as the text that it stands for exactly if nothing in it is folded.** -/
theorem textOf_heard_iff {s : List Piece} :
    Yaml.textOf (heard .words [] s) = textOf s ↔ Unfolded s := by
  have hm : Stands .words := trivial
  constructor
  · intro h
    have heq : (heard .words [] s).reverse = s.map Piece.value := String.ofList_injective h
    refine ((weight_heard hm [] s).2 ?_).1
    rw [← heq]
    simp [passed]
  · intro hs
    rw [Yaml.textOf, textOf, heard_eq hs hm trivial trivial]
    simp [passed]

end JsonText
end ApiManifest
