import ApiManifest.Json
import ApiManifest.Yaml.Tag
import Mathlib.Data.Option.Basic

/-!
# Words of JSON in YAML

What JSON writes without quotes is a number or a name. YAML takes some of them for something else:
`1e+16` is a text there, and `NaN` too. But none of them is taken for a date: that has two dashes
between digits, while a number has no more than one behind its sign.
-/

namespace ApiManifest.Yaml

/-! ## Tags -/

/-- What has the tag has a form in JSON, if there is a value at all. -/
def Tag.IsJson : Tag → Prop
  | .timestamp | .binary | .set | .omap | .pairs => False
  | _ => True

namespace Tag

theorem isJson_ofText {cs : List Char} (h : isTimestampText cs = false) : (ofText cs).IsJson := by
  unfold ofText
  repeat' split
  all_goals simp_all [IsJson]

/-- A date begins with four digits, and has two dashes. -/
theorem dateParts?_cases {cs : List Char} {w : Written} (h : dateParts? cs = some w) :
    ∃ year rest month rest', digitsOff 4 cs = (year, '-' :: rest) ∧ year.length = 4 ∧
      digitsOff 2 rest = (month, '-' :: rest') := by
  rcases hyear : digitsOff 4 cs with ⟨year, behind⟩
  rw [dateParts?, hyear] at h
  obtain ⟨_, hlength, h⟩ := Option.bind_eq_some_iff.mp h
  split at h
  case h_2 => cases h
  case h_1 rest _ =>
    obtain ⟨_, hrest, h⟩ := Option.bind_eq_some_iff.mp h
    cases hrest
    rcases hmonth : digitsOff 2 rest with ⟨month, behind⟩
    simp only [hmonth] at h
    obtain ⟨_, -, h⟩ := Option.bind_eq_some_iff.mp h
    split at h
    case h_2 => cases h
    case h_1 rest' _ =>
      have hfour : year.length = 4 := by
        unfold guard at hlength
        split at hlength
        · assumption
        · cases hlength
      exact ⟨year, rest, month, rest', rfl, hfour, hmonth⟩

theorem count_digitsOff {most : Nat} {cs digits rest : List Char}
    (h : digitsOff most cs = (digits, rest)) (c : Char) : rest.count c ≤ cs.count c := by
  cases h
  exact (List.drop_sublist _ _).count_le c

theorem count_of_dateParts? {cs : List Char} {w : Written} (h : dateParts? cs = some w) :
    2 ≤ cs.count '-' := by
  obtain ⟨year, rest, month, rest', hyear, -, hmonth⟩ := dateParts?_cases h
  have hfirst := count_digitsOff hyear '-'
  have hsecond := count_digitsOff hmonth '-'
  simp only [List.count_cons_self] at hfirst hsecond
  omega

theorem head?_of_dateParts? {cs : List Char} {w : Written} (h : dateParts? cs = some w) :
    cs.head? ≠ some '-' := by
  obtain ⟨year, rest, month, rest', hyear, hlength, -⟩ := dateParts?_cases h
  intro hhead
  obtain ⟨tail, rfl⟩ := List.head?_eq_some_iff.mp hhead
  simp only [digitsOff, List.take_succ_cons, Prod.mk.injEq] at hyear
  rw [← hyear.1] at hlength
  simp at hlength

end Tag

/-! ## Words -/

/-- A character of a number or a name. -/
def isInner (c : Char) : Bool := c.isAlphanum || c == '.' || c == '+' || c == '-'

/-- What stands without quotes: a name, or a number with a sign in front or without one. -/
structure IsWord (cs : List Char) : Prop where
  starts : ∃ c rest, cs = c :: rest ∧ (c.isAlphanum ∨ c = '-' ∧ rest.head?.any Char.isAlphanum)
  inner : cs.all isInner
  dashes : cs.head? = some '-' ∨ cs.count '-' ≤ 1

theorem dropLineFeed_of_not_mem {cs : List Char} (h : '\n' ∉ cs) : Text.dropLineFeed cs = cs := by
  unfold Text.dropLineFeed
  split
  · next rest hrest =>
    have hmem : '\n' ∈ cs.reverse := hrest ▸ List.mem_cons_self
    exact absurd (List.mem_reverse.mp hmem) h
  · rfl

/-- **No word looks like a date.** -/
theorem IsWord.isJson {cs : List Char} (h : IsWord cs) :
    (Tag.shownBy (String.ofList cs)).IsJson := by
  unfold Tag.shownBy
  split
  · trivial
  · have hfeed : '\n' ∉ cs := fun hmem =>
      absurd (List.all_eq_true.mp h.inner _ hmem) (by decide)
    rw [String.toList_ofList, dropLineFeed_of_not_mem hfeed]
    refine Tag.isJson_ofText ?_
    unfold Tag.isTimestampText
    cases hdate : Tag.dateParts? cs with
    | none => rfl
    | some w =>
        rcases h.dashes with hhead | hcount
        · exact absurd hhead (Tag.head?_of_dateParts? hdate)
        · have := Tag.count_of_dateParts? hdate
          omega

/-! ## Numbers -/

/-- The text of a number without a sign: it begins with a digit, and may have one dash. -/
structure IsUnsigned (cs : List Char) : Prop where
  starts : ∃ c rest, cs = c :: rest ∧ c.isDigit
  inner : cs.all isInner
  dashes : cs.count '-' ≤ 1

namespace IsUnsigned

variable {cs : List Char}

theorem isAlphanum_of_isDigit {c : Char} (h : c.isDigit) : c.isAlphanum := by
  simp [Char.isAlphanum, h]

theorem isWord (h : IsUnsigned cs) : IsWord cs where
  starts := by
    obtain ⟨c, rest, rfl, hc⟩ := h.starts
    exact ⟨c, rest, rfl, .inl (isAlphanum_of_isDigit hc)⟩
  inner := h.inner
  dashes := .inr h.dashes

theorem isWord_negative (h : IsUnsigned cs) : IsWord ('-' :: cs) where
  starts := by
    obtain ⟨c, rest, rfl, hc⟩ := h.starts
    exact ⟨'-', _, rfl, .inr ⟨rfl, by simp [isAlphanum_of_isDigit hc]⟩⟩
  inner := by
    rw [List.all_cons, h.inner]
    rfl
  dashes := .inl rfl

/-- A sign in front or none. -/
theorem isWord_signed (h : IsUnsigned cs) (negative : Bool) :
    IsWord (if negative then '-' :: cs else cs) := by
  cases negative with
  | false => exact h.isWord
  | true => exact h.isWord_negative

end IsUnsigned

/-- Digits and points. -/
def IsPlain (cs : List Char) : Prop := ∀ c ∈ cs, c.isDigit ∨ c = '.'

namespace IsPlain

variable {cs : List Char} (h : IsPlain cs)

include h

theorem inner : cs.all isInner := by
  refine List.all_eq_true.mpr fun c hc => ?_
  rcases h c hc with hdigit | rfl
  · simp [isInner, Char.isAlphanum, hdigit]
  · rfl

theorem count : cs.count '-' = 0 :=
  List.count_eq_zero.mpr fun hmem => absurd (h _ hmem) (by decide)

theorem isUnsigned (hstarts : ∃ c rest, cs = c :: rest ∧ c.isDigit) : IsUnsigned cs :=
  ⟨hstarts, h.inner, h.count ▸ Nat.zero_le 1⟩

end IsPlain

theorem isPlain_of_digits {cs : List Char} (h : ∀ c ∈ cs, c.isDigit) : IsPlain cs :=
  fun c hc => .inl (h c hc)

theorem isDigit_toDigits {n : Nat} {c : Char} (h : c ∈ Nat.toDigits 10 n) : c.isDigit :=
  Nat.isDigit_of_mem_toDigits (by decide) (by decide) h

theorem isUnsigned_toDigits (n : Nat) : IsUnsigned (Nat.toDigits 10 n) := by
  refine (isPlain_of_digits fun c => isDigit_toDigits).isUnsigned ?_
  obtain ⟨c, rest, h⟩ := List.exists_cons_of_ne_nil (Nat.toDigits_ne_nil (n := n) (b := 10))
  exact ⟨c, rest, h, isDigit_toDigits (h ▸ List.mem_cons_self)⟩

theorem isWord_decimalText {n : Int} {text : String} (h : decimalText n = .ok text) :
    IsWord text.toList := by
  unfold decimalText at h
  dsimp only at h
  split at h
  · cases h
  · cases h
    rw [String.toList_ofList]
    simpa using (isUnsigned_toDigits n.natAbs).isWord_signed (decide (n < 0))

section

variable {digits : List Char} (hdigits : ∀ c ∈ digits, c.isDigit)

include hdigits

theorem isUnsigned_positional (place : Int) : IsUnsigned (Binary64.positional digits place) := by
  have hzeros (n : Nat) : ∀ c ∈ List.replicate n '0', c.isDigit :=
    fun c hc => List.eq_of_mem_replicate hc ▸ rfl
  unfold Binary64.positional
  -- the point stands before all digits, or behind some of them and as many zeros as it takes
  split
  · refine IsPlain.isUnsigned ?_ ⟨'0', _, rfl, rfl⟩
    exact List.forall_mem_cons.mpr ⟨.inl rfl, List.forall_mem_cons.mpr ⟨.inr rfl,
      isPlain_of_digits (List.forall_mem_append.mpr ⟨hzeros _, hdigits⟩)⟩⟩
  · next hplace =>
    dsimp only
    generalize hwhole : digits.take place.toNat ++
      List.replicate (place.toNat - (digits.take place.toNat).length) '0' = whole
    have hdigit : ∀ c ∈ whole, c.isDigit := by
      subst hwhole
      exact List.forall_mem_append.mpr ⟨fun c hc => hdigits c (List.mem_of_mem_take hc), hzeros _⟩
    have hfraction : IsPlain (if (digits.drop place.toNat).isEmpty then ['0'] else
        digits.drop place.toNat) := by
      split
      · exact List.forall_mem_singleton.mpr (.inl rfl)
      · exact isPlain_of_digits fun c hc => hdigits c (List.mem_of_mem_drop hc)
    obtain ⟨c, rest, rfl⟩ : ∃ c rest, whole = c :: rest := by
      refine List.exists_cons_of_ne_nil fun hnil => ?_
      have hlength := congrArg List.length hwhole
      simp only [hnil, List.length_append, List.length_replicate, List.length_take,
        List.length_nil] at hlength
      omega
    refine IsPlain.isUnsigned ?_ ⟨c, _, rfl, hdigit c List.mem_cons_self⟩
    exact List.forall_mem_append.mpr ⟨isPlain_of_digits hdigit,
      List.forall_mem_cons.mpr ⟨.inr rfl, hfraction⟩⟩

/-- What stands before an exponent. -/
theorem isPlain_mantissa : ∃ c rest, (match digits with
      | d :: rest => if rest.isEmpty then [d] else d :: '.' :: rest
      | [] => ['0']) = c :: rest ∧ c.isDigit ∧ IsPlain (c :: rest) := by
  cases digits with
  | nil => exact ⟨'0', [], rfl, rfl, List.forall_mem_singleton.mpr (.inl rfl)⟩
  | cons d rest =>
      obtain ⟨hd, hrest⟩ := List.forall_mem_cons.mp hdigits
      dsimp only
      split
      · exact ⟨d, [], rfl, hd, List.forall_mem_singleton.mpr (.inl hd)⟩
      · exact ⟨d, '.' :: rest, rfl, hd, List.forall_mem_cons.mpr ⟨.inl hd,
          List.forall_mem_cons.mpr ⟨.inr rfl, isPlain_of_digits hrest⟩⟩⟩

/-- The one dash is that of the exponent. -/
theorem isUnsigned_scientific (place : Int) : IsUnsigned (Binary64.scientific digits place) := by
  obtain ⟨c, rest, hmantissa, hc, hplain⟩ := isPlain_mantissa hdigits
  let sign := if place - 1 < 0 then '-' else '+'
  let exponent := Nat.toDigits 10 (place - 1).natAbs
  let padded := if exponent.length < 2 then '0' :: exponent else exponent
  have hpadded : IsPlain padded := by
    have hexponent : IsPlain exponent := isPlain_of_digits fun c => isDigit_toDigits
    simp only [padded]
    split
    · exact List.forall_mem_cons.mpr ⟨.inl rfl, hexponent⟩
    · exact hexponent
  have htext : Binary64.scientific digits place = (c :: rest) ++ 'e' :: sign :: padded :=
    congrArg (· ++ 'e' :: sign :: padded) hmantissa
  have hsign : sign = '-' ∨ sign = '+' := by
    simp only [sign]
    split
    · exact .inl rfl
    · exact .inr rfl
  have hbehind : ('e' :: sign :: padded).all isInner ∧ ('e' :: sign :: padded).count '-' ≤ 1 := by
    rcases hsign with h | h <;> simp [h, hpadded.count, hpadded.inner, isInner]
  rw [htext]
  refine ⟨⟨c, _, rfl, hc⟩, ?_, ?_⟩
  · rw [List.all_append, hplain.inner, hbehind.1]
    rfl
  · rw [List.count_append, hplain.count, Nat.zero_add]
    exact hbehind.2

end

theorem isDigit_decimal (m : Nat) (e : Int) : ∀ c ∈ (Binary64.decimal m e).1, c.isDigit := by
  intro c hc
  exact isDigit_toDigits (List.mem_reverse.mp
    ((List.dropWhile_sublist _).subset (List.mem_reverse.mp hc)))

/-- A floating-point number. -/
theorem isWord_text (x : Binary64) : IsWord (x.text Json.floatLayout).toList := by
  cases x with
  | nan => exact ⟨⟨_, _, rfl, .inl (by decide)⟩, by decide, .inr (by decide)⟩
  | infinite s =>
      cases s with
      | false => exact ⟨⟨_, _, rfl, .inl (by decide)⟩, by decide, .inr (by decide)⟩
      | true => exact ⟨⟨_, _, rfl, .inr (by decide)⟩, by decide, .inl (by decide)⟩
  | finite s m e =>
      rw [Binary64.text, String.toList_ofList]
      refine IsUnsigned.isWord_signed ?_ s
      split
      · exact ⟨⟨_, _, rfl, by decide⟩, by decide, by decide⟩
      · have hdigits := isDigit_decimal m e
        dsimp only
        split
        · exact isUnsigned_positional hdigits _
        · exact isUnsigned_scientific hdigits _

end ApiManifest.Yaml
