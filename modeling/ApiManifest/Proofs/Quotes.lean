import ApiManifest.Baseline

/-!
# Quoted texts of the template

A text is filled into the template between quotes, escaped first as JSON and then once more for
HTML. YAML has quotes and escapes of its own. Here the two meet: whatever is written for a
character, the reader of quoted scalars takes it for that character again.

The reader does not take every blank at once: one at the end of a line would not count. So its
state has blanks that are not read yet, and what a line holds so far is what was read together with
them.
-/

namespace ApiManifest

namespace Yaml

/-! ## Reading along a line -/

namespace QuotedMode

/-- Among the characters of a line, behind blanks or not. -/
def OnLine : QuotedMode → Prop
  | .words | .blanks _ => True
  | _ => False

/-- What the line holds if it goes on, the last character first. -/
def held : QuotedMode → List Char → List Char
  | .blanks seen, read => seen ++ read
  | _, read => read

end QuotedMode

theorem joinsNext_of_not_isBreak {c : Char} (h : isBreak c = false) (rest : List Char) :
    joinsNext c rest = false := by
  cases hr : c == '\r'
  · simp [joinsNext, hr]
  · rw [beq_iff_eq.mp hr] at h
    simp [isBreak] at h

section

variable {mode : QuotedMode} {c : Char} {read rest : List Char} {p : Place}

attribute [local simp] quotedFrom

/-- What is no blank shows that the line goes on. -/
theorem quotedFrom_held (hm : mode.OnLine) (hc : isSpace c = false) :
    quotedFrom true mode read p (c :: rest)
      = quotedFrom true .words (mode.held read) p (c :: rest) := by
  cases mode with
  | words => rfl
  | blanks seen =>
      simp only [isSpace, Bool.or_eq_false_iff, beq_eq_false_iff_ne] at hc
      simp [hc, joinsNext_of_not_isBreak hc.2, QuotedMode.held]
  | _ => exact hm.elim

/-- A character that stands for itself. -/
theorem quotedFrom_word (hm : mode.OnLine) (hc : isSpace c = false) (hquote : c ≠ '"')
    (hslash : c ≠ '\\') :
    quotedFrom true mode read p (c :: rest)
      = quotedFrom true .words (c :: mode.held read) (p.after c rest) rest := by
  rw [quotedFrom_held hm hc]
  simp only [isSpace, Bool.or_eq_false_iff, beq_eq_false_iff_ne] at hc
  simp [hc, joinsNext_of_not_isBreak hc.2, hquote, hslash]

/-- A space is held back, and counts once the line goes on. -/
theorem quotedFrom_space (hm : mode.OnLine) (read rest : List Char) (p : Place) : ∃ seen read',
    quotedFrom true mode read p (' ' :: rest)
      = quotedFrom true (.blanks seen) read' (p.after ' ' rest) rest ∧
    seen ++ read' = ' ' :: mode.held read := by
  cases mode with
  | words => exact ⟨[' '], read, by simp, rfl⟩
  | blanks seen => exact ⟨' ' :: seen, read, by simp, rfl⟩
  | _ => exact hm.elim

/-- A backslash begins an escape. -/
theorem quotedFrom_slash (hm : mode.OnLine) (read rest : List Char) (p : Place) :
    quotedFrom true mode read p ('\\' :: rest)
      = quotedFrom true .escape (mode.held read) (p.after '\\' rest) rest := by
  rw [quotedFrom_held hm (by decide)]
  simp [joinsNext, isBreak]

/-- A backslash and a letter. -/
theorem quotedFrom_escape (hm : mode.OnLine) {letter : Char} (hletter : escaped? letter = some c)
    (hbreak : isBreak letter = false) (read rest : List Char) (p : Place) : ∃ p',
    quotedFrom true mode read p ('\\' :: letter :: rest)
      = quotedFrom true .words (c :: mode.held read) p' rest := by
  refine ⟨(p.after '\\' (letter :: rest)).after letter rest, ?_⟩
  rw [quotedFrom_slash hm]
  simp [joinsNext_of_not_isBreak hbreak, hbreak, hletter]

/-- A digit of a code, but for the last one. -/
theorem quotedFrom_digit {digit missing value : Nat} (hdigit : Text.hexValue? c = some digit) :
    quotedFrom true (.code (missing + 2) value) read p (c :: rest)
      = quotedFrom true (.code (missing + 1) (value * 16 + digit)) read (p.after c rest) rest := by
  simp [hdigit]

/-- The last digit of a code. -/
theorem quotedFrom_lastDigit {digit value : Nat} (hdigit : Text.hexValue? c = some digit)
    (hcode : value * 16 + digit ≤ 0x10FFFF) :
    quotedFrom true (.code 1 value) read p (c :: rest)
      = quotedFrom true .words (Char.ofNat (value * 16 + digit) :: read) (p.after c rest) rest := by
  simp [hdigit, ofCode, hcode, bind, Except.bind]

theorem hexValue?_hexDigit : ∀ d, d < 16 → Text.hexValue? (Text.hexDigit d) = some d := by decide

/-- A code of four digits. -/
theorem quotedFrom_code (hm : mode.OnLine) {code : Nat} (hcode : code < 0x10000)
    (read rest : List Char) (p : Place) : ∃ p',
    quotedFrom true mode read p ('\\' :: 'u' :: Text.hexPadded code 4 ++ rest)
      = quotedFrom true .words (Char.ofNat code :: mode.held read) p' rest := by
  have hdigit (n : Nat) : Text.hexValue? (Text.hexDigit (n % 16)) = some (n % 16) :=
    hexValue?_hexDigit _ (Nat.mod_lt _ (by decide))
  have hvalue : (((code / 16 / 16 / 16 % 16) * 16 + code / 16 / 16 % 16) * 16 + code / 16 % 16) * 16
      + code % 16 = code := by omega
  have hletter (read cs : List Char) (q : Place) : quotedFrom true .escape read q ('u' :: cs)
      = quotedFrom true (.code 4 0) read (q.after 'u' cs) cs := by
    simp [joinsNext, isBreak, escaped?, codeLength?]
  rw [List.cons_append, List.cons_append, quotedFrom_slash hm, hletter]
  simp only [Text.hexPadded, List.nil_append, List.cons_append]
  rw [quotedFrom_digit (hdigit _), quotedFrom_digit (hdigit _), quotedFrom_digit (hdigit _),
    quotedFrom_lastDigit (hdigit _) (by omega)]
  simp only [Nat.zero_mul, Nat.zero_add, hvalue]
  exact ⟨_, rfl⟩

end

end Yaml

namespace Baseline

open Yaml

/-! ## What is written for a character -/

/-- A character that the template carries: JSON has a code for it, or YAML can read it and ends no
line there. -/
def isPlain (c : Char) : Bool :=
  let n := c.toNat
  n < 0x20 || (0x20 ≤ n && n ≤ 0x7E) || (0xA0 ≤ n && n ≤ 0xD7FF && n != 0x2028 && n != 0x2029)
    || (0xE000 ≤ n && n ≤ 0xFFFD) || 0xFFFF < n

/-- What stands in the template for a character of a text. -/
def written (c : Char) : List Char := (Json.quotedChar c).flatMap escapedChar

theorem escapedChar_hexDigit : ∀ d, d < 16 → escapedChar (Text.hexDigit d) = [Text.hexDigit d] := by
  decide

theorem flatMap_escapedChar_hexPadded (n width : Nat) :
    (Text.hexPadded n width).flatMap escapedChar = Text.hexPadded n width := by
  induction width generalizing n with
  | zero => rfl
  | succ width ih =>
      rw [Text.hexPadded, List.flatMap_append, ih]
      simp [escapedChar_hexDigit _ (Nat.mod_lt n (by decide : 0 < 16))]

/-- JSON writes a character as a backslash and a letter, as a code, or as itself. -/
theorem quotedChar_cases (c : Char) :
    (∃ letter, Json.quotedChar c = ['\\', letter] ∧ escaped? letter = some c ∧
      isReadable letter ∧ isBreak letter = false ∧ escapedChar letter = [letter]) ∨
    (c.toNat < 0x20 ∧ Json.quotedChar c = '\\' :: 'u' :: Text.hexPadded c.toNat 4) ∨
    (0x20 ≤ c.toNat ∧ c ≠ '"' ∧ c ≠ '\\' ∧ Json.quotedChar c = [c]) := by
  by_cases h₁ : c = '"'
  · exact Or.inl ⟨'"', by subst h₁; decide⟩
  by_cases h₂ : c = '\\'
  · exact Or.inl ⟨'\\', by subst h₂; decide⟩
  by_cases h₃ : c = '\n'
  · exact Or.inl ⟨'n', by subst h₃; decide⟩
  by_cases h₄ : c = '\r'
  · exact Or.inl ⟨'r', by subst h₄; decide⟩
  by_cases h₅ : c = '\t'
  · exact Or.inl ⟨'t', by subst h₅; decide⟩
  by_cases h₆ : c = '\x08'
  · exact Or.inl ⟨'b', by subst h₆; decide⟩
  by_cases h₇ : c = '\x0c'
  · exact Or.inl ⟨'f', by subst h₇; decide⟩
  by_cases h₈ : c.toNat < 0x20
  · exact Or.inr (Or.inl ⟨h₈, by simp [Json.quotedChar, *]⟩)
  · exact Or.inr (Or.inr ⟨by omega, h₁, h₂, by simp [Json.quotedChar, *]⟩)

/-- A character that is written as itself is a space, or YAML reads it and parts no words there. -/
theorem isSpace_of_isPlain {c : Char} (hc : isPlain c) (hcode : 0x20 ≤ c.toNat) :
    isReadable c ∧ (c = ' ' ∨ isSpace c = false) := by
  constructor
  · simp only [isPlain, isReadable, Bool.or_eq_true, Bool.and_eq_true, decide_eq_true_eq] at hc ⊢
    omega
  · by_cases hspace : c = ' '
    · exact Or.inl hspace
    · refine Or.inr (Bool.eq_false_iff.mpr fun h => ?_)
      simp only [isSpace, isBreak, Bool.or_eq_true, beq_iff_eq] at h
      rcases h with (h | h) | (((h | h) | h) | h) | h
      · exact hspace h
      all_goals
        subst h
        revert hc hcode
        decide

/-- The template writes a character as a backslash and a letter, as a code, or as itself. -/
theorem written_cases (c : Char) :
    (∃ letter, written c = ['\\', letter] ∧ escaped? letter = some c ∧ isReadable letter ∧
      isBreak letter = false) ∨
    (c.toNat < 0x10000 ∧ written c = '\\' :: 'u' :: Text.hexPadded c.toNat 4) ∨
    (0x20 ≤ c.toNat ∧ c ≠ '"' ∧ c ≠ '\\' ∧ written c = [c]) := by
  have hslash : escapedChar '\\' = ['\\'] := rfl
  have hletter : escapedChar 'u' = ['u'] := rfl
  rcases quotedChar_cases c with ⟨letter, h, hc, hr, hb, he⟩ | ⟨hcode, h⟩ | ⟨hcode, hq, hs, h⟩
  · exact Or.inl ⟨letter, by simp [written, h, hslash, he], hc, hr, hb⟩
  · refine Or.inr (Or.inl ⟨by omega, ?_⟩)
    simp [written, h, hslash, hletter, flatMap_escapedChar_hexPadded]
  · by_cases hhtml : c = '<' ∨ c = '>' ∨ c = '&' ∨ c = '\''
    · refine Or.inr (Or.inl ⟨by rcases hhtml with rfl | rfl | rfl | rfl <;> decide, ?_⟩)
      simp [written, h, escapedChar, hhtml]
    · exact Or.inr (Or.inr ⟨hcode, hq, hs, by simp [written, h, escapedChar, hhtml]⟩)

/-! ## Reading what is written -/

/-- What is written for a character is read as that character. -/
theorem quotedFrom_written {c : Char} (hc : isPlain c) {mode : QuotedMode} (hm : mode.OnLine)
    (read rest : List Char) (p : Place) : ∃ mode' read' p', mode'.OnLine ∧
    mode'.held read' = c :: mode.held read ∧
    quotedFrom true mode read p (written c ++ rest) = quotedFrom true mode' read' p' rest := by
  rcases written_cases c with ⟨letter, h, hletter, -, hb⟩ | ⟨hcode, h⟩ | ⟨hcode, hquote, hslash, h⟩
  · obtain ⟨p', hread⟩ := quotedFrom_escape hm hletter hb read rest p
    exact ⟨.words, c :: mode.held read, p', trivial, rfl, by rw [h]; exact hread⟩
  · obtain ⟨p', hread⟩ := quotedFrom_code hm hcode read rest p
    rw [Char.ofNat_toNat] at hread
    exact ⟨.words, c :: mode.held read, p', trivial, rfl, by rw [h]; exact hread⟩
  · rcases (isSpace_of_isPlain hc hcode).2 with rfl | hspace
    · obtain ⟨seen, read', hread, hheld⟩ := quotedFrom_space hm read rest p
      exact ⟨.blanks seen, read', p.after ' ' rest, trivial, hheld, by rw [h]; exact hread⟩
    · refine ⟨.words, c :: mode.held read, p.after c rest, trivial, rfl, ?_⟩
      rw [h]
      exact quotedFrom_word hm hspace hquote hslash

/-- A written text is read up to the quote behind it. -/
theorem quotedFrom_flatMap_written {cs : List Char} (hcs : cs.all isPlain) {mode : QuotedMode}
    (hm : mode.OnLine) (read rest : List Char) (p : Place) : ∃ p',
    quotedFrom true mode read p (cs.flatMap written ++ '"' :: rest)
      = .ok { text := textOf (cs.reverse ++ mode.held read), cursor := ⟨p', rest⟩ } := by
  induction cs generalizing mode read p with
  | nil =>
      refine ⟨p.after '"' rest, ?_⟩
      rw [List.flatMap_nil, List.nil_append, quotedFrom_held hm (by decide), quotedFrom]
      simp [joinsNext, isBreak]
  | cons c cs ih =>
      simp only [List.all_cons, Bool.and_eq_true] at hcs
      obtain ⟨mode', read', p', hm', hheld, hstep⟩ :=
        quotedFrom_written hcs.1 hm read (cs.flatMap written ++ '"' :: rest) p
      obtain ⟨p'', hread⟩ := ih hcs.2 hm' read' p'
      refine ⟨p'', ?_⟩
      rw [List.flatMap_cons, List.append_assoc, hstep, hread, hheld]
      simp

/-! ### Texts that end lines

A text may have characters at which YAML ends a line. Then something else is read, or nothing at
all, but never more than the text. -/

end Baseline

namespace Yaml

namespace QuotedMode

/-- Between two characters, on a line or in front of one. -/
def Between : QuotedMode → Prop
  | .words | .blanks _ | .breaks _ _ => True
  | _ => False

end QuotedMode

section

variable {mode : QuotedMode} {c : Char} {read rest : List Char} {p : Place}

attribute [local simp] quotedFrom

/-- What is no blank stands on a line. -/
theorem exists_quotedFrom_words (hm : mode.Between) (hc : isSpace c = false) : ∃ read',
    quotedFrom true mode read p (c :: rest) = quotedFrom true .words read' p (c :: rest) := by
  cases mode with
  | words => exact ⟨read, rfl⟩
  | blanks seen => exact ⟨_, quotedFrom_held trivial hc⟩
  | breaks first more =>
      refine ⟨folded first more ++ read, ?_⟩
      simp only [isSpace, Bool.or_eq_false_iff, beq_eq_false_iff_ne] at hc
      simp [hc, joinsNext_of_not_isBreak hc.2]
  | _ => exact hm.elim

/-- Behind a blank or the end of a line, reading goes on. -/
theorem quotedFrom_blank (hm : mode.Between) (hc : isSpace c) (hreturn : c ≠ '\r')
    {lexeme : Lexeme} (h : quotedFrom true mode read p (c :: rest) = .ok lexeme) :
    ∃ mode' read' p', mode'.Between ∧ quotedFrom true mode' read' p' rest = .ok lexeme := by
  have hjoins : joinsNext c rest = false := by simp [joinsNext, hreturn]
  by_cases hblank : c = ' ' ∨ c = '\t'
  · cases mode with
    | words => exact ⟨.blanks [c], _, _, trivial, by simpa [hblank] using h⟩
    | blanks seen => exact ⟨.blanks (c :: seen), _, _, trivial, by simpa [hblank] using h⟩
    | breaks first more =>
        have hskip : c = ' ' ∨ c = '\t' ∨ joinsNext c rest = true :=
          hblank.imp_right .inl
        exact ⟨.breaks first more, _, _, trivial, by simpa [hskip] using h⟩
    | _ => exact hm.elim
  · have hbreak : isBreak c = true := by simpa [isSpace, hblank] using hc
    -- at the end of a line the document may end, which is no part of a scalar
    have hline (mode' : QuotedMode) (hm' : mode'.Between) (h : (if documentMark rest = true then
        .error .yaml else quotedFrom true mode' read (p.after c rest) rest) = .ok lexeme) :
        ∃ mode' read' p', mode'.Between ∧ quotedFrom true mode' read' p' rest = .ok lexeme := by
      split at h
      · cases h
      · exact ⟨mode', _, _, hm', h⟩
    cases mode with
    | words =>
        exact hline (.breaks (breakValue c) []) trivial
          (by simpa [hblank, hjoins, hbreak] using h)
    | blanks seen =>
        exact hline (.breaks (breakValue c) []) trivial
          (by simpa [hblank, hjoins, hbreak] using h)
    | breaks first more =>
        have hskip : ¬ (c = ' ' ∨ c = '\t' ∨ joinsNext c rest = true) := by
          simpa [hjoins] using hblank
        exact hline (.breaks first (breakValue c :: more)) trivial
          (by simpa [hskip, hbreak] using h)
    | _ => exact hm.elim

end

end Yaml

namespace Baseline

open Yaml

/-- Whatever is read of a written text, it ends with the quote behind it. -/
theorem rest_of_quotedFrom {cs : List Char} {mode : QuotedMode} (hm : mode.Between)
    {read rest : List Char} {p : Place} {lexeme : Lexeme}
    (h : quotedFrom true mode read p (cs.flatMap written ++ '"' :: rest) = .ok lexeme) :
    lexeme.cursor.rest = rest := by
  have hstart : QuotedMode.words.Between := trivial
  have hline : QuotedMode.words.OnLine := trivial
  induction cs generalizing mode read p with
  | nil =>
      obtain ⟨read', hwords⟩ := exists_quotedFrom_words hm (c := '"') (by decide)
      rw [List.flatMap_nil, List.nil_append, hwords, quotedFrom] at h
      simp [joinsNext, isBreak] at h
      rw [← h]
  | cons c cs ih =>
      rw [List.flatMap_cons, List.append_assoc] at h
      have hwords {x : Char} (hx : isSpace x = false) (xs : List Char) : ∃ read',
          quotedFrom true mode read p (x :: xs) = quotedFrom true .words read' p (x :: xs) :=
        exists_quotedFrom_words hm hx
      -- a character is written as a letter or a code behind a backslash, or as itself
      rcases written_cases c with ⟨letter, hw, hletter, -, hb⟩ | ⟨hcode, hw⟩ |
        ⟨hcode, hquote, hslash, hw⟩
      · obtain ⟨read', hslash⟩ := hwords (x := '\\') (by decide)
          (letter :: (cs.flatMap written ++ '"' :: rest))
        obtain ⟨p', hread⟩ := quotedFrom_escape hline hletter hb read'
          (cs.flatMap written ++ '"' :: rest) p
        rw [hw, List.cons_append, List.cons_append, List.nil_append, hslash, hread] at h
        exact ih hstart h
      · obtain ⟨read', hslash⟩ := hwords (x := '\\') (by decide)
          ('u' :: Text.hexPadded c.toNat 4 ++ (cs.flatMap written ++ '"' :: rest))
        obtain ⟨p', hread⟩ := quotedFrom_code hline hcode read'
          (cs.flatMap written ++ '"' :: rest) p
        rw [hw, List.cons_append, List.cons_append, ← List.cons_append, hslash] at h
        exact ih hstart (hread.symm.trans h)
      · rw [hw, List.singleton_append] at h
        cases hspace : isSpace c with
        | true =>
            have hreturn : c ≠ '\r' := by
              rintro rfl
              exact absurd hcode (by decide)
            obtain ⟨mode', read', p', hm', hread⟩ := quotedFrom_blank hm hspace hreturn h
            exact ih hm' hread
        | false =>
            obtain ⟨read', hword⟩ := hwords hspace (cs.flatMap written ++ '"' :: rest)
            rw [hword, quotedFrom_word hline hspace hquote hslash] at h
            exact ih hstart h

/-- A text between quotes in the template. -/
def quote (s : String) : List Char := '"' :: s.toList.flatMap written ++ ['"']

theorem flatMap_escapedChar_quoted (s : String) :
    (Json.quoted s).toList.flatMap escapedChar = quote s := by
  have hquote : escapedChar '"' = ['"'] := rfl
  simp [Json.quoted, List.flatMap_assoc, hquote, quote]
  rfl

theorem filled_text (s : String) : filled (.text s) = .ok (String.ofList (quote s)) := by
  rw [← flatMap_escapedChar_quoted]
  rfl

/-- **A quoted text is read as the text**, whatever plain characters it has. -/
theorem quoted_quote {s : String} (hs : s.toList.all isPlain) (rest : List Char) (p : Place) :
    ∃ p', Lexeme.quoted true ⟨p, quote s ++ rest⟩ = .ok { text := s, cursor := ⟨p', rest⟩ } := by
  have hm : QuotedMode.words.OnLine := trivial
  obtain ⟨p', h⟩ := quotedFrom_flatMap_written hs hm [] rest
    (p.after '"' (s.toList.flatMap written ++ '"' :: rest))
  refine ⟨p', ?_⟩
  simpa [Lexeme.quoted, quote, Cursor.skip, Cursor.skipFrom, QuotedMode.held, textOf] using h

/-- Of a quoted text, the reader reads no more than the text. -/
theorem rest_of_quoted {s : String} {rest : List Char} {p : Place} {lexeme : Lexeme}
    (h : Lexeme.quoted true ⟨p, quote s ++ rest⟩ = .ok lexeme) : lexeme.cursor.rest = rest := by
  simp only [Lexeme.quoted, quote, Cursor.skip, Cursor.skipFrom, List.cons_append,
    List.append_assoc, List.nil_append] at h
  have hstart : QuotedMode.words.Between := trivial
  exact rest_of_quotedFrom hstart h

theorem isReadable_hexPadded (n width : Nat) : (Text.hexPadded n width).all isReadable := by
  have hdigit : ∀ d, d < 16 → isReadable (Text.hexDigit d) := by decide
  induction width generalizing n with
  | zero => rfl
  | succ width ih =>
      simp [Text.hexPadded, ih, hdigit _ (Nat.mod_lt n (by decide : 0 < 16))]

theorem isReadable_written {c : Char} (hc : isPlain c) : (written c).all isReadable := by
  have hslash : isReadable '\\' := by decide
  have hletter : isReadable 'u' := by decide
  rcases written_cases c with ⟨letter, h, -, hr, -⟩ | ⟨-, h⟩ | ⟨hcode, -, -, h⟩
  · simp [h, hr, hslash]
  · simpa [h, hslash, hletter] using isReadable_hexPadded c.toNat 4
  · simp [h, (isSpace_of_isPlain hc hcode).1]

/-- YAML can read all that is written for a text. -/
theorem isReadable_quote {s : String} (hs : s.toList.all isPlain) : (quote s).all isReadable := by
  have hquote : isReadable '"' := by decide
  rw [List.all_eq_true] at hs
  simpa [quote, hquote, List.all_flatMap] using
    fun c hc => List.all_eq_true.mp (isReadable_written (hs c hc))

end Baseline
end ApiManifest
