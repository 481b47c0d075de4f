import ApiManifest.Proofs.JsonLexing
import ApiManifest.Proofs.Letters

/-!
# Numbers of JSON in YAML

YAML takes a number of JSON for a number if it has no exponent, or a point and an exponent with a
sign. Then it also has the same value for YAML. Everything else is a text there.
-/

namespace ApiManifest

namespace JsonText

open Yaml

variable {c : Char} {cs ds rest : List Char}

/-! ## Digits -/

theorem toNat_of_isDigit (hc : c.isDigit) : 48 ≤ c.toNat ∧ c.toNat ≤ 57 := by
  simpa [Char.isDigit, UInt32.le_iff_toNat_le] using hc

theorem ne_of_isDigit {d : Char} (hc : c.isDigit) (hd : d.isDigit = false) : c ≠ d := by
  rintro rfl
  simp [hc] at hd

theorem isAscii_of_isInner (hc : isInner c) : Text.isAscii c := by
  have hle {d : Char} (hd : d.toNat < 0x80) (h : c.val ≤ d.val) : Text.isAscii c :=
    decide_eq_true (Nat.lt_of_le_of_lt (UInt32.le_iff_toNat_le.mp h) hd)
  have hupper (h : c.isUpper) : Text.isAscii c :=
    hle (d := 'Z') (by decide) (of_decide_eq_true h).2
  have hlower (h : c.isLower) : Text.isAscii c :=
    hle (d := 'z') (by decide) (of_decide_eq_true (Bool.and_eq_true_iff.mp h).2)
  have hdigit (h : c.isDigit) : Text.isAscii c :=
    hle (d := '9') (by decide) (UInt32.le_iff_toNat_le.mpr (toNat_of_isDigit h).2)
  simp only [isInner, Bool.or_eq_true, beq_iff_eq] at hc
  rcases hc with ((halnum | rfl) | rfl) | rfl
  · rcases Bool.or_eq_true_iff.mp halnum with halpha | h
    · exact (Bool.or_eq_true_iff.mp halpha).elim hupper hlower
    · exact hdigit h
  all_goals decide

/-- What holds of the codes of all characters of numbers and names holds of the characters. -/
theorem forall_inner {p : Char → Prop} (h : ∀ code < 0x80, isInner (Char.ofNat code) →
    p (Char.ofNat code)) (hc : isInner c) : p c :=
  Text.forall_ascii (p := fun c => isInner c → p c) h (isAscii_of_isInner hc) hc

theorem isInner_of_isDigit (hc : c.isDigit) : isInner c := by
  simp [isInner, Char.isAlphanum, hc]

theorem toLower_of_isDigit (hc : c.isDigit) : c.toLower = c :=
  forall_inner (p := fun c => c.isDigit → c.toLower = c) (by decide) (isInner_of_isDigit hc) hc

theorem digit?_of_isDigit (hc : c.isDigit) : Numeral.digit? 10 c = some (c.toNat - 48) := by
  obtain ⟨hlow, hhigh⟩ := toNat_of_isDigit hc
  have hvalue : Text.digitValue? c = some (c.toNat - 48) := by
    rw [Text.digitValue?, Text.zeros, List.find?_cons_of_pos]
    · rfl
    · simp
      omega
  simp [Numeral.digit?, hvalue, Option.filter]
  omega

/-- The digits of a numeral are read one by one. -/
theorem digits?_of_isDigit (hds : ∀ c ∈ ds, c.isDigit) (afterDigit : Bool)
    (h : afterDigit = false → ds ≠ []) :
    Numeral.digits? 10 afterDigit ds = some (ds.map (·.toNat - 48)) := by
  induction ds generalizing afterDigit with
  | nil =>
      cases afterDigit with
      | true => rfl
      | false => exact absurd rfl (h rfl)
  | cons c ds ih =>
      obtain ⟨hc, hds⟩ := List.forall_mem_cons.mp hds
      have hscore : c ≠ '_' := ne_of_isDigit hc rfl
      rw [Numeral.digits?, if_neg hscore, digit?_of_isDigit hc, ih hds true (by simp)]
      rfl

theorem valueOf_map (ds : List Char) : Numeral.valueOf 10 (ds.map (·.toNat - 48)) = decimal ds := by
  rw [Numeral.valueOf, List.foldl_map]
  rfl

theorem Digits.isDigit_of_mem (d : Digits) : ∀ c ∈ d.chars, c.isDigit :=
  fun _ => List.all_eq_true.mp d.isDigit _

theorem Digits.digits?_eq (d : Digits) :
    Numeral.digits? 10 false d.chars = some (d.chars.map (·.toNat - 48)) :=
  digits?_of_isDigit d.isDigit_of_mem false fun _ => d.ne_nil

/-- An exponent begins with a letter. -/
theorem Exponent.exists_letter (e : Exponent) : ∃ letter, (letter = 'e' ∨ letter = 'E') ∧
    e.chars = letter :: (e.sign.chars ++ e.digits.chars) := by
  cases h : e.isLarge
  · exact ⟨'e', .inl rfl, by simp [Exponent.chars, h]⟩
  · exact ⟨'E', .inr rfl, by simp [Exponent.chars, h]⟩

theorem Digits.exists_cons (d : Digits) : ∃ c cs, d.chars = c :: cs ∧ c.isDigit := by
  obtain ⟨c, cs, h⟩ := List.exists_cons_of_ne_nil d.ne_nil
  exact ⟨c, cs, h, d.isDigit_of_mem c (h ▸ List.mem_cons_self)⟩

/-! ## Characters of numbers -/

theorem isPadding_of_isInner (hc : isInner c) : Numeral.isPadding c = false :=
  forall_inner (p := fun c => Numeral.isPadding c = false) (by decide) hc

theorem trim_of_isInner (hcs : ∀ c ∈ cs, isInner c) : Numeral.trim cs = cs := by
  have hdrop (cs : List Char) (hcs : ∀ c ∈ cs, isInner c) :
      cs.dropWhile Numeral.isPadding = cs := by
    cases cs with
    | nil => rfl
    | cons c cs =>
        rw [List.dropWhile_cons_of_neg]
        simp [isPadding_of_isInner (hcs c List.mem_cons_self)]
  rw [Numeral.trim, hdrop cs hcs, hdrop cs.reverse (fun c hc => hcs c (List.mem_reverse.mp hc)),
    List.reverse_reverse]

theorem filter_of_isInner (hcs : ∀ c ∈ cs, isInner c) : cs.filter (· != '_') = cs := by
  refine List.filter_eq_self.mpr fun c hc => ?_
  have : c ≠ '_' := Lexer.ne_of_isInner (hcs c hc) rfl
  simpa using this

theorem colonParts_of_isInner (hcs : ∀ c ∈ cs, isInner c) : Tag.colonParts cs = [cs] := by
  induction cs with
  | nil => rfl
  | cons c cs ih =>
      obtain ⟨hc, hcs⟩ := List.forall_mem_cons.mp hcs
      have hcolon : c ≠ ':' := Lexer.ne_of_isInner hc rfl
      have hrest : Text.splitAt ':' cs = [cs] := ih hcs
      rw [Tag.colonParts, Text.splitAt, if_neg hcolon, hrest]

theorem contains_of_isInner (hcs : ∀ c ∈ cs, isInner c) : cs.contains ':' = false := by
  rw [List.contains_eq_any_beq, List.any_eq_false]
  intro c hc
  have : c ≠ ':' := Lexer.ne_of_isInner (hcs c hc) rfl
  simpa using this.symm

/-- What stands in front of the first character that is not of a class. -/
theorem takeWhile_append {p : Char → Bool} (hcs : ∀ c ∈ cs, p c) (hrest : rest.head?.all (!p ·)) :
    (cs ++ rest).takeWhile p = cs := by
  rw [List.takeWhile_append_of_pos hcs]
  cases rest with
  | nil => simp
  | cons c rest =>
      have hc : p c = false := by simpa using hrest
      simp [hc]

namespace Number

variable (n : Number)

theorem inner : ∀ c ∈ n.unsigned, isInner c := fun _ => List.all_eq_true.mp n.isUnsigned.inner _

theorem innerChars : ∀ c ∈ n.chars, isInner c := fun _ => List.all_eq_true.mp n.isWord.inner _

theorem exists_unsigned : ∃ c cs, n.unsigned = c :: cs ∧ c.isDigit := n.isUnsigned.starts

/-- The characters of the exponent, if there is one. -/
def exponentChars : List Char := n.exponent.elim [] Exponent.chars

theorem unsigned_eq : n.unsigned = n.mantissa ++ n.exponentChars := rfl

theorem dropSign_chars : Tag.dropSign n.chars = n.unsigned := by
  obtain ⟨c, cs, h, hc⟩ := n.exists_unsigned
  have hplus : c ≠ '+' := ne_of_isDigit hc rfl
  have hminus : c ≠ '-' := ne_of_isDigit hc rfl
  unfold chars
  split
  · rfl
  · rw [h]
    unfold Tag.dropSign
    split <;> simp_all

theorem signed_chars : ScalarValue.signed n.chars = .ok (n.isNegative, n.unsigned) := by
  obtain ⟨c, cs, h, hc⟩ := n.exists_unsigned
  have hplus : c ≠ '+' := ne_of_isDigit hc rfl
  have hminus : c ≠ '-' := ne_of_isDigit hc rfl
  unfold chars
  split
  · simp [ScalarValue.signed, *]
  · rw [h]
    unfold ScalarValue.signed
    split <;> simp_all

theorem sign_unsigned : Numeral.sign n.unsigned = (false, n.unsigned) := by
  obtain ⟨c, cs, h, hc⟩ := n.exists_unsigned
  have hplus : c ≠ '+' := ne_of_isDigit hc rfl
  have hminus : c ≠ '-' := ne_of_isDigit hc rfl
  rw [h]
  unfold Numeral.sign
  split <;> simp_all

/-! ## How numbers are shown -/

theorem isExponent_chars : Tag.isExponent n.exponentChars = n.exponent.all (·.sign != .none) := by
  unfold exponentChars
  cases n.exponent with
  | none => rfl
  | some e =>
      obtain ⟨letter, hletter, hchars⟩ := e.exists_letter
      obtain ⟨c, cs, hdigits, hc⟩ := e.digits.exists_cons
      have hplus : c ≠ '+' := ne_of_isDigit hc rfl
      have hminus : c ≠ '-' := ne_of_isDigit hc rfl
      have hcs : cs.all Char.isDigit = true :=
        (Bool.and_eq_true_iff.mp (hdigits ▸ e.digits.isDigit : (c :: cs).all Char.isDigit = true)).2
      rw [Option.elim_some, Option.all_some, hchars, hdigits]
      cases e.sign with
      | none =>
          cases cs <;> rcases hletter with rfl | rfl <;>
            simp [Sign.chars, Tag.isExponent, hplus, hminus]
      | plus | minus =>
          rcases hletter with rfl | rfl <;> simp [Sign.chars, Tag.isExponent, hc, hcs]

theorem isCount_whole : Tag.isCount n.whole.chars = true := by
  obtain ⟨c, cs, h, hc⟩ := n.whole.exists_cons
  have hdigits := n.whole.isDigit_of_mem
  rw [h] at hdigits ⊢
  simp only [Tag.isCount, hc, Bool.true_and, List.all_eq_true]
  intro d hd
  simp [Tag.isDigitOrScore, hdigits d (List.mem_cons_of_mem c hd)]

theorem ne_point_of_mem {c : Char} (hc : c ∈ n.exponentChars) : c ≠ '.' := by
  unfold exponentChars at hc
  cases hexponent : n.exponent with
  | none => simp [hexponent] at hc
  | some e =>
      obtain ⟨letter, hletter, hchars⟩ := e.exists_letter
      simp only [hexponent, Option.elim_some, hchars, List.mem_cons, List.mem_append] at hc
      rcases hc with rfl | hc | hc
      · rcases hletter with rfl | rfl <;> decide
      · cases hsign : e.sign <;> simp [hsign, Sign.chars] at hc <;> simp [hc]
      · exact ne_of_isDigit (e.digits.isDigit_of_mem c hc) rfl

theorem head?_exponentChars {p : Char → Bool} (hsmall : p 'e' = false) (hlarge : p 'E' = false) :
    n.exponentChars.head?.all (!p ·) = true := by
  unfold exponentChars
  cases n.exponent with
  | none => rfl
  | some e =>
      obtain ⟨letter, rfl | rfl, hchars⟩ := e.exists_letter <;> simp [hchars, hsmall, hlarge]

/-- **A number has a point for YAML if it has one, and its exponent has a sign.** -/
theorem isFloatText_chars :
    Tag.isFloatText n.chars = (n.fraction.isSome && n.exponent.all (·.sign != .none)) := by
  have hwhole : ∀ c ∈ n.whole.chars, (c != '.') = true := fun c hc =>
    bne_iff_ne.mpr (ne_of_isDigit (n.whole.isDigit_of_mem c hc) rfl)
  rw [Tag.isFloatText, dropSign_chars, unsigned_eq, mantissa]
  cases hfraction : n.fraction with
  | none =>
      have hnone : ∀ c ∈ n.whole.chars ++ n.exponentChars, (c != '.') = true :=
        List.forall_mem_append.mpr ⟨hwhole, fun c hc => bne_iff_ne.mpr (n.ne_point_of_mem hc)⟩
      have htake := takeWhile_append hnone (show ([] : List Char).head?.all _ = true from rfl)
      rw [List.append_nil] at htake
      simp only [Option.elim_none, List.append_nil, htake, List.drop_length]
      rfl
  | some d =>
      have hpoint : ('.' :: (d.chars ++ n.exponentChars)).head?.all (fun c => !(c != '.')) = true :=
        rfl
      have htake := takeWhile_append hwhole hpoint
      have hdigits : ∀ c ∈ d.chars, Tag.isDigitOrScore c = true := fun c hc => by
        simp [Tag.isDigitOrScore, d.isDigit_of_mem c hc]
      have hscore := takeWhile_append hdigits
        (n.head?_exponentChars (p := Tag.isDigitOrScore) (by decide) (by decide))
      have hne : n.whole.chars.isEmpty = false := by simpa using n.whole.ne_nil
      have hparts := colonParts_of_isInner
        fun c hc => List.all_eq_true.mp n.whole.isPlain.inner c hc
      simp only [Option.elim_some, List.append_assoc, List.cons_append, htake, List.drop_left,
        hscore, hne, n.isCount_whole, n.isExponent_chars, hparts, Bool.and_false, Bool.or_false,
        Bool.true_and, Option.isSome_some, Bool.false_eq_true, if_false]

/-- What follows the digits in front of the point. -/
theorem exists_behind : ∃ behind, n.unsigned = n.whole.chars ++ behind ∧
    ((n.isInteger = true ∧ behind = []) ∨ (n.isInteger = false ∧
      ∃ c cs, behind = c :: cs ∧ (c = '.' ∨ c = 'e' ∨ c = 'E'))) := by
  refine ⟨n.fraction.elim [] ('.' :: ·.chars) ++ n.exponentChars, List.append_assoc .., ?_⟩
  unfold isInteger exponentChars
  cases n.fraction with
  | some d => exact .inr ⟨rfl, '.', _, rfl, .inl rfl⟩
  | none =>
      cases n.exponent with
      | none => exact .inl ⟨rfl, rfl⟩
      | some e =>
          obtain ⟨letter, hletter, hchars⟩ := e.exists_letter
          exact .inr ⟨rfl, letter, _, hchars, .inr hletter⟩

/-- **A number is an integer for YAML exactly if it is one.** -/
theorem isIntText_chars : Tag.isIntText n.chars = n.isInteger := by
  obtain ⟨behind, hunsigned, hbehind⟩ := n.exists_behind
  obtain ⟨c, cs, hwhole, hc⟩ := n.whole.exists_cons
  have hparts : Tag.colonParts n.unsigned = [n.unsigned] := colonParts_of_isInner n.inner
  have hcs : ∀ d ∈ cs, Tag.isDigitOrScore d = true := fun d hd => by
    have := n.whole.isDigit_of_mem d (hwhole ▸ List.mem_cons_of_mem c hd)
    simp [Tag.isDigitOrScore, this]
  rw [Tag.isIntText, dropSign_chars]
  by_cases hzero : c = '0'
  · -- a zero stands alone in front of the point
    subst hzero
    have hzero : n.unsigned = '0' :: behind := by
      rw [hunsigned, n.unpadded (by rw [hwhole]; rfl)]
      rfl
    rcases hbehind with ⟨hinteger, rfl⟩ | ⟨hinteger, d, ds, rfl, rfl | rfl | rfl⟩ <;>
      simp [hzero, hinteger]
  · rw [hunsigned, hwhole, List.cons_append] at hparts ⊢
    split
    · simp_all
    · simp_all
    · simp_all
    · simp only [hparts, List.all_nil, Bool.and_true, Tag.isCount, hc, Bool.true_and]
      rcases hbehind with ⟨hinteger, rfl⟩ | ⟨hinteger, d, ds, rfl, rfl | rfl | rfl⟩
      · rw [hinteger, List.append_nil, List.all_eq_true]
        exact hcs
      all_goals simp [hinteger, Tag.isDigitOrScore]

theorem shownBy_eq : Tag.shownBy (String.ofList n.chars) = Tag.ofText n.chars := by
  obtain ⟨c, cs, hchars, -⟩ := n.isWord.starts
  have hfeed : '\n' ∉ n.chars := fun hmem => absurd (n.innerChars _ hmem) (by decide)
  have hne : String.ofList n.chars ≠ "\n" := by
    intro h
    have htext : n.chars = ['\n'] := by simpa using congrArg String.toList h
    exact hfeed (htext ▸ List.mem_cons_self)
  rw [Tag.shownBy, if_neg hne, String.toList_ofList, dropLineFeed_of_not_mem hfeed]

/-- No number is a word. -/
theorem isBoolText_chars : Tag.isBoolText n.chars = false := by
  obtain ⟨c, cs, hchars, hc⟩ : ∃ c cs, n.chars = c :: cs ∧ c.isAlpha = false := by
    obtain ⟨c, cs, hunsigned, hc⟩ := n.exists_unsigned
    unfold chars
    split
    · exact ⟨'-', _, rfl, rfl⟩
    · refine ⟨c, cs, hunsigned, ?_⟩
      exact forall_inner (p := fun c => c.isDigit → c.isAlpha = false) (by decide)
        (isInner_of_isDigit hc) hc
  have hne {d : Char} (hd : d.isAlpha) : c ≠ d := by
    rintro rfl
    simp [hc] at hd
  rw [hchars]
  simp [Tag.isBoolText, Tag.isSpelling, hne]

/-! ## What numbers stand for -/

theorem int_whole (hne : n.whole.chars.head? ≠ some '0') : Numeral.int 10 n.whole.chars =
    if Numeral.maxDigits < n.whole.chars.length then .error .longNumeral
    else .ok (decimal n.whole.chars) := by
  obtain ⟨c, cs, hwhole, hc⟩ := n.whole.exists_cons
  have hplus : c ≠ '+' := ne_of_isDigit hc rfl
  have hminus : c ≠ '-' := ne_of_isDigit hc rfl
  have hsign : Numeral.sign n.whole.chars = (false, n.whole.chars) := by
    rw [hwhole]
    unfold Numeral.sign
    split <;> simp_all
  have hmark : Numeral.dropMark 10 n.whole.chars = n.whole.chars := by
    unfold Numeral.dropMark
    split
    · next heq => exact absurd (by rw [heq]; rfl) hne
    · rfl
  have htrim := trim_of_isInner fun c hc => List.all_eq_true.mp n.whole.isPlain.inner c hc
  have hnone : (Numeral.baseMark 10).isNone = true := rfl
  rw [Numeral.int, htrim]
  simp only [hsign, hmark, n.whole.digits?_eq, hnone, true_and, List.length_map, gt_iff_lt,
    valueOf_map, Bool.false_eq_true, if_false]

/-- **An integer has its value, unless it has too many digits.** -/
theorem readInt_chars (h : n.isInteger = true) :
    ScalarValue.readInt (String.ofList n.chars) = if Numeral.maxDigits < n.whole.chars.length
      then .error .longNumeral
      else
        .ok (if n.isNegative then -(decimal n.whole.chars : Int) else decimal n.whole.chars) := by
  obtain ⟨behind, hunsigned, ⟨-, rfl⟩ | ⟨hinteger, -⟩⟩ := n.exists_behind
  case inr => simp [h] at hinteger
  rw [List.append_nil] at hunsigned
  obtain ⟨c, cs, hwhole, hc⟩ := n.whole.exists_cons
  rw [ScalarValue.readInt, String.toList_ofList, filter_of_isInner n.innerChars, signed_chars,
    hunsigned]
  by_cases hzero : n.whole.chars.head? = some '0'
  · rw [n.unpadded hzero]
    cases n.isNegative <;> rfl
  · have hint := n.int_whole hzero
    have hcolon : n.whole.chars.contains ':' = false :=
      contains_of_isInner fun c hc => List.all_eq_true.mp n.whole.isPlain.inner c hc
    have hc' : c ≠ '0' := by
      rintro rfl
      exact hzero (by rw [hwhole]; rfl)
    simp only [bind, Except.bind]
    rw [hwhole] at hcolon ⊢
    -- no other base is marked
    split
    case h_6 =>
      rw [hcolon, if_neg Bool.false_ne_true, ← hwhole, hint]
      by_cases hlong : Numeral.maxDigits < n.whole.chars.length
      · simp only [if_pos hlong]
      · simp only [if_neg hlong]
        rfl
    all_goals simp_all

/-- One side of the point, which may be empty. -/
theorem side_eq {side : List Char} (h : ∀ c ∈ side, c.isDigit) :
    (if side = [] then some [] else Numeral.digits? 10 false side)
      = some (side.map (·.toNat - 48)) := by
  cases side with
  | nil => rfl
  | cons c side => exact digits?_of_isDigit h false (by simp)

/-- The sign of an exponent, and the digits behind it. -/
theorem sign_exponent (e : Exponent) : Numeral.sign (e.sign.chars ++ e.digits.chars)
    = (e.sign == .minus, e.digits.chars) := by
  obtain ⟨c, cs, hdigits, hc⟩ := e.digits.exists_cons
  have hplus : c ≠ '+' := ne_of_isDigit hc rfl
  have hminus : c ≠ '-' := ne_of_isDigit hc rfl
  cases e.sign with
  | none =>
      rw [hdigits]
      unfold Numeral.sign Sign.chars
      split <;> simp_all
  | plus | minus => rfl

/-- The digits on both sides of the point, and the exponent. -/
theorem fraction?_unsigned : Numeral.fraction? n.unsigned =
    some (decimal (n.whole.chars ++ n.fractionDigits),
      n.exponent.elim 0 Exponent.value - n.fractionDigits.length) := by
  -- the exponent is cut off first, then the point, and what is left on either side is digits
  have hbefore : ∀ c ∈ n.mantissa, (c != 'e' && c != 'E') = true := fun c hc => by
    rcases n.isPlain_mantissa c hc with hdigit | rfl
    · have hsmall : c ≠ 'e' := ne_of_isDigit hdigit rfl
      have hlarge : c ≠ 'E' := ne_of_isDigit hdigit rfl
      simp [hsmall, hlarge]
    · rfl
  have hmantissa := takeWhile_append hbefore (n.head?_exponentChars (by decide) (by decide))
  have hwhole : n.mantissa.takeWhile (· != '.') = n.whole.chars :=
    takeWhile_append (fun c hc => bne_iff_ne.mpr (ne_of_isDigit (n.whole.isDigit_of_mem c hc) rfl))
      (by cases n.fraction <;> rfl)
  have hpart : n.mantissa.drop (n.whole.chars.length + 1) = n.fractionDigits := by
    rw [mantissa, fractionDigits, ← List.drop_drop, List.drop_left]
    cases n.fraction <;> rfl
  have hdigits : ∀ c ∈ n.fractionDigits, c.isDigit := by
    unfold fractionDigits
    cases n.fraction with
    | none => simp
    | some d => exact d.isDigit_of_mem
  have hne : n.whole.chars.isEmpty = false := by simpa using n.whole.ne_nil
  have hvalue := valueOf_map (n.whole.chars ++ n.fractionDigits)
  rw [List.map_append] at hvalue
  rw [Numeral.fraction?, unsigned_eq, hmantissa, List.drop_left, exponentChars]
  cases n.exponent with
  | none =>
      simp [hwhole, hpart, hne, n.whole.digits?_eq, side_eq hdigits, hvalue]
  | some e =>
      obtain ⟨letter, -, hchars⟩ := e.exists_letter
      simp [hchars, sign_exponent, e.digits.digits?_eq, hwhole, hpart, hne,
        n.whole.digits?_eq, side_eq hdigits, hvalue, valueOf_map, Exponent.value]

theorem float_unsigned : Numeral.float n.unsigned =
    .ok (.ofDecimal false (decimal (n.whole.chars ++ n.fractionDigits))
      (n.exponent.elim 0 Exponent.value - n.fractionDigits.length)) := by
  obtain ⟨c, cs, hunsigned, hc⟩ := n.exists_unsigned
  have hlower : ∃ ds, (n.unsigned.map Char.toLower) = c :: ds :=
    ⟨_, by rw [hunsigned, List.map_cons, toLower_of_isDigit hc]⟩
  obtain ⟨ds, hlower⟩ := hlower
  rw [Numeral.float, trim_of_isInner n.inner, sign_unsigned]
  simp only [hlower, fraction?_unsigned]
  -- no name of a number begins with a digit
  split
  case h_4 => rfl
  all_goals
    next h =>
      have hhead := congrArg (fun s : String => s.toList.head?) h
      simp only [String.toList_ofList, List.head?_cons] at hhead
      exact absurd (Option.some.inj hhead) (ne_of_isDigit hc rfl)

theorem neg_ofRatio (num den : Nat) :
    (Binary64.ofRatio false num den).neg = .ofRatio true num den := by
  unfold Binary64.ofRatio
  split
  · rfl
  · dsimp only
    split <;> split <;> rfl

theorem neg_ofDecimal (negative : Bool) (digits : Nat) (exponent : Int) :
    (if negative then (Binary64.ofDecimal false digits exponent).neg
      else .ofDecimal false digits exponent) = .ofDecimal negative digits exponent := by
  have hneg : (Binary64.ofDecimal false digits exponent).neg = .ofDecimal true digits exponent := by
    unfold Binary64.ofDecimal
    split
    · rfl
    · dsimp only
      split
      · rfl
      split
      · rfl
      · exact neg_ofRatio _ _
  cases negative with
  | false => rfl
  | true => exact hneg

/-- The number with a small letter in front of its exponent. -/
def small : Number := { n with exponent := n.exponent.map ({ · with isLarge := false }) }

theorem map_toLower_digits (d : Digits) : d.chars.map Char.toLower = d.chars :=
  (List.map_congr_left fun c hc => toLower_of_isDigit (d.isDigit_of_mem c hc)).trans (List.map_id _)

theorem map_toLower_chars : n.chars.map Char.toLower = n.small.chars := by
  have hsign (sign : Sign) : sign.chars.map Char.toLower = sign.chars := by cases sign <;> rfl
  have hexponent : n.exponentChars.map Char.toLower = n.small.exponentChars := by
    unfold small exponentChars
    cases n.exponent with
    | none => rfl
    | some e =>
        obtain ⟨letter, hletter, hchars⟩ := e.exists_letter
        have hlower : letter.toLower = 'e' := by rcases hletter with rfl | rfl <;> rfl
        rw [Option.elim_some, hchars, List.map_cons, List.map_append, hsign, map_toLower_digits,
          hlower]
        rfl
  have hmantissa : n.mantissa.map Char.toLower = n.mantissa := by
    rw [mantissa, List.map_append, map_toLower_digits]
    cases n.fraction with
    | none => rfl
    | some d => rw [Option.elim_some, List.map_cons, map_toLower_digits]; rfl
  have hunsigned : n.unsigned.map Char.toLower = n.small.unsigned := by
    rw [unsigned_eq, List.map_append, hmantissa, hexponent]
    rfl
  unfold chars
  rw [apply_ite (List.map Char.toLower), List.map_cons, hunsigned]
  rfl

/-- **A number with a point has its value.** -/
theorem readFloat_chars : ScalarValue.readFloat (String.ofList n.chars) =
    .ok (.ofDecimal n.isNegative (decimal (n.whole.chars ++ n.fractionDigits))
      (n.exponent.elim 0 Exponent.value - n.fractionDigits.length)) := by
  obtain ⟨c, cs, hunsigned, hc⟩ := n.small.exists_unsigned
  have hlower := Text.lower_ofList fun c hc => isAscii_of_isInner (n.innerChars c hc)
  have hcolon : n.small.unsigned.contains ':' = false := contains_of_isInner n.small.inner
  have hexponent : n.small.exponent.elim 0 Exponent.value = n.exponent.elim 0 Exponent.value := by
    unfold small
    cases n.exponent <;> rfl
  have hfloat := n.small.float_unsigned
  rw [hexponent] at hfloat
  rw [ScalarValue.readFloat, String.toList_ofList, filter_of_isInner n.innerChars, hlower,
    String.toList_ofList, map_toLower_chars, signed_chars]
  simp only [bind, Except.bind]
  -- no name of a number begins with a digit
  split
  case h_3 =>
    rw [hcolon, if_neg Bool.false_ne_true, hfloat]
    exact congrArg Except.ok (neg_ofDecimal _ _ _)
  all_goals
    next h =>
      have hhead := congrArg (fun s : String => s.toList.head?) h
      simp only [String.toList_ofList, hunsigned, List.head?_cons] at hhead
      exact absurd (Option.some.inj hhead) (ne_of_isDigit hc rfl)

/-- The number is written as YAML writes numbers: an integer that is not too long, or with a point,
and a sign in front of its exponent. -/
def IsYaml : Prop :=
  (n.isInteger = true ∧ n.whole.chars.length ≤ Numeral.maxDigits) ∨
    (n.fraction.isSome = true ∧ ∀ e ∈ n.exponent, e.sign ≠ .none)

instance : Decidable n.IsYaml := inferInstanceAs (Decidable (
  (n.isInteger = true ∧ n.whole.chars.length ≤ Numeral.maxDigits) ∨
    (n.fraction.isSome = true ∧ ∀ e ∈ n.exponent, e.sign ≠ .none)))

/-- **YAML gives a number its value exactly if it is written as numbers are there.** -/
theorem scalarOf_chars_iff : scalarOf (Tag.shownBy (String.ofList n.chars)) (String.ofList n.chars)
    = .ok n.value ↔ n.IsYaml := by
  have hsigned : n.exponent.all (·.sign != .none) = true ↔ ∀ e ∈ n.exponent, e.sign ≠ .none := by
    cases n.exponent <;> simp
  rw [shownBy_eq, Tag.ofText, isBoolText_chars, isFloatText_chars, isIntText_chars, IsYaml,
    if_neg Bool.false_ne_true, ← hsigned]
  by_cases hinteger : n.isInteger = true
  · have hfraction : n.fraction.isSome = false := by
      have := (Bool.and_eq_true_iff.mp hinteger).1
      cases h : n.fraction <;> simp_all
    simp only [hfraction, hinteger, Bool.false_and, Bool.false_eq_true, if_false, if_true,
      scalarOf, n.readInt_chars hinteger, value, true_and, false_and, or_false]
    by_cases hlong : Numeral.maxDigits < n.whole.chars.length
    · rw [if_pos hlong]
      exact iff_of_false nofun (Nat.not_le.mpr hlong)
    · rw [if_neg hlong]
      exact iff_of_true rfl (Nat.not_lt.mp hlong)
  · simp only [hinteger, Bool.false_eq_true, if_false, false_and, false_or, value,
      ← Bool.and_eq_true]
    cases hfloat : n.fraction.isSome && n.exponent.all (·.sign != .none) with
    | true => simp only [if_true, scalarOf, n.readFloat_chars, iff_true]; rfl
    | false =>
        -- no other kind of value is a number
        refine iff_of_false (fun h => ?_) Bool.false_ne_true
        simp only [Bool.false_eq_true, if_false] at h
        repeat' split at h
        all_goals cases h

end Number
end JsonText
end ApiManifest
