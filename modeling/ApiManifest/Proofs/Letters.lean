import ApiManifest.Proofs.Assembly
import ApiManifest.Proofs.Slashes

/-!
# The characters of a name

The words of a name are found by three passes over it: two put underscores in front of capitals, the
third writes each run of separators as one underscore. None of them changes or drops anything else.
So a name of ASCII, in lower case and without all that parts words, is found again in its snake
case, in its Pascal case and in its title. That is all that a key of a definition shows of a
resource: names that share a key are the same up to case and separators.
-/

namespace ApiManifest

/-! ## Letters of ASCII -/

namespace Text

/-- A character of ASCII. -/
def isAscii (c : Char) : Bool := c.toNat < 0x80

/-- What holds of every code below 128 holds of the characters of ASCII. -/
theorem forall_ascii {p : Char → Prop} (h : ∀ code < 0x80, p (Char.ofNat code)) {c : Char}
    (hc : isAscii c) : p c := by
  have hcode := h c.toNat (of_decide_eq_true hc)
  rwa [Char.ofNat_toNat] at hcode

theorem isAscii_toLower {c : Char} (hc : isAscii c) : isAscii c.toLower :=
  forall_ascii (p := fun c => isAscii c.toLower) (by decide) hc

theorem lowerAfter_of_ascii {cs : List Char} (h : ∀ c ∈ cs, isAscii c) (before : List Char) :
    lowerAfter before cs = cs.map Char.toLower := by
  induction cs generalizing before with
  | nil => rfl
  | cons c rest ih =>
      obtain ⟨hc, hrest⟩ := List.forall_mem_cons.mp h
      have hsigma : c ≠ 'Σ' := by
        rintro rfl
        exact absurd hc (by decide)
      rw [lowerAfter, ih hrest]
      simp [hsigma, lowerChar, of_decide_eq_true hc]

/-- A text of ASCII is put in lower case character by character. -/
theorem lower_ofList {cs : List Char} (h : ∀ c ∈ cs, isAscii c) :
    lower (String.ofList cs) = String.ofList (cs.map Char.toLower) := by
  rw [lower, String.toList_ofList, lowerAfter_of_ascii h]

/-- The pieces are the text without its separators. -/
theorem flatten_pieces (sep : Char) (cs : List Char) :
    (pieces sep cs).flatten = cs.filter (· != sep) := by
  rw [pieces, List.flatten_filter_not_isEmpty]
  induction cs with
  | nil => rfl
  | cons c rest ih =>
      unfold splitAt
      by_cases hc : c = sep
      · rw [if_pos hc, List.flatten_cons, List.nil_append, ih,
          List.filter_cons_of_neg (by simpa using hc)]
      · rw [if_neg hc, List.filter_cons_of_pos (by simpa using hc), ← ih]
        cases splitAt sep rest <;> rfl

theorem mem_of_mem_pieces {sep : Char} {cs piece : List Char} (h : piece ∈ pieces sep cs)
    {c : Char} (hc : c ∈ piece) : c ∈ cs := by
  have hmem : c ∈ (pieces sep cs).flatten := List.mem_flatten.mpr ⟨piece, h, hc⟩
  rw [flatten_pieces] at hmem
  exact List.mem_of_mem_filter hmem

end Text

namespace Naming

open Text (isAscii)

/-! ## The three passes -/

section

variable {cs : List Char} {p : Char → Bool}

/-- Underscores in front of capitals are all that the first two passes add. -/
theorem filter_partAcronyms (hp : p '_' = false) : (partAcronyms cs).filter p = cs.filter p := by
  fun_induction partAcronyms cs with
  | case1 a b c rest _ ih => simp only [List.filter_cons, hp, ih]; rfl
  | case2 a b c rest _ ih => simp only [List.filter_cons, ih]
  | case3 => rfl

theorem filter_partCapitals (hp : p '_' = false) : (partCapitals cs).filter p = cs.filter p := by
  fun_induction partCapitals cs with
  | case1 a b rest _ ih => simp only [List.filter_cons, hp, ih]; rfl
  | case2 a b rest _ ih => simp only [List.filter_cons, ih]
  | case3 => rfl

/-- The third pass leaves out nothing but separators. -/
theorem filter_joinSeparators (inside : Bool) :
    (joinSeparators inside cs).filter (· != '_')
      = cs.filter fun c => c != '_' && !isSeparator c := by
  fun_induction joinSeparators inside cs with
  | case1 => rfl
  | case2 c rest hsep ih => simpa [hsep] using ih
  | case3 inside c rest hsep _ ih => simpa [hsep] using ih
  | case4 inside c rest hsep ih => simp [List.filter_cons, hsep, ih]

theorem isSeparator_of_mem_joinSeparators {inside : Bool} {c : Char}
    (h : c ∈ joinSeparators inside cs) : isSeparator c = false := by
  fun_induction joinSeparators inside cs with
  | case1 => exact absurd h List.not_mem_nil
  | case2 c' rest hsep ih => exact ih h
  | case3 inside c' rest hsep hinside ih =>
      rcases List.mem_cons.mp h with rfl | h
      · decide
      · exact ih h
  | case4 inside c' rest hsep ih =>
      rcases List.mem_cons.mp h with rfl | h
      · simpa using hsep
      · exact ih h

/-- What the three passes make of a name. -/
def parted (cs : List Char) : List Char :=
  joinSeparators false (partCapitals (partAcronyms cs))

theorem filter_parted :
    (parted cs).filter (· != '_') = cs.filter fun c => c != '_' && !isSeparator c := by
  rw [parted, filter_joinSeparators, filter_partCapitals rfl, filter_partAcronyms rfl]

theorem isSeparator_of_mem_parted {c : Char} (h : c ∈ parted cs) : isSeparator c = false :=
  isSeparator_of_mem_joinSeparators h

theorem mem_of_mem_parted {c : Char} (h : c ∈ parted cs) : c = '_' ∨ c ∈ cs := by
  by_cases hc : c = '_'
  · exact .inl hc
  · have hmem : c ∈ (parted cs).filter (· != '_') := List.mem_filter.mpr ⟨h, by simpa using hc⟩
    rw [filter_parted] at hmem
    exact .inr (List.mem_of_mem_filter hmem)

/-! Without capitals and separators a name has nothing to be parted. -/

theorem partAcronyms_of_small (h : ∀ c ∈ cs, isCapital c = false) : partAcronyms cs = cs := by
  fun_induction partAcronyms cs with
  | case1 a b c rest hcapital ih =>
      rw [h a List.mem_cons_self] at hcapital
      cases hcapital
  | case2 a b c rest _ ih => rw [ih fun x hx => h x (List.mem_cons_of_mem _ hx)]
  | case3 => rfl

theorem partCapitals_of_small (h : ∀ c ∈ cs.tail, isCapital c = false) : partCapitals cs = cs := by
  fun_induction partCapitals cs with
  | case1 a b rest hcapital ih =>
      rw [h b List.mem_cons_self, Bool.and_false] at hcapital
      cases hcapital
  | case2 a b rest _ ih => rw [ih fun x hx => h x (List.mem_cons_of_mem _ hx)]
  | case3 => rfl

theorem joinSeparators_of_none (h : ∀ c ∈ cs, isSeparator c = false) :
    joinSeparators false cs = cs := by
  induction cs with
  | nil => rfl
  | cons c rest ih =>
      obtain ⟨hc, hrest⟩ := List.forall_mem_cons.mp h
      rw [joinSeparators, hc, if_neg Bool.false_ne_true, ih hrest]

theorem parted_of_small (hcapital : ∀ c ∈ cs, isCapital c = false)
    (hseparator : ∀ c ∈ cs, isSeparator c = false) : parted cs = cs := by
  rw [parted, partAcronyms_of_small hcapital,
    partCapitals_of_small fun c hc => hcapital c (List.mem_of_mem_tail hc),
    joinSeparators_of_none hseparator]

end

/-! ## Lower case -/

section

variable {c : Char}

theorem isCapital_toLower (hc : isAscii c) : isCapital c.toLower = false :=
  Text.forall_ascii (p := fun c => isCapital c.toLower = false) (by decide) hc

theorem isSeparator_toLower (hc : isAscii c) : isSeparator c.toLower = isSeparator c :=
  Text.forall_ascii (p := fun c => isSeparator c.toLower = isSeparator c) (by decide) hc

theorem toLower_eq_underscore_iff (hc : isAscii c) : c.toLower = '_' ↔ c = '_' :=
  Text.forall_ascii (p := fun c => c.toLower = '_' ↔ c = '_') (by decide) hc

theorem toLower_of_isCapital (hc : isAscii c) (hsmall : isCapital c = false) : c.toLower = c :=
  Text.forall_ascii (p := fun c => isCapital c = false → c.toLower = c) (by decide) hc hsmall

theorem titleChar_of_isAscii (hc : isAscii c) : Text.titleChar c = [c.toUpper] :=
  if_pos (of_decide_eq_true hc)

theorem isAscii_toUpper (hc : isAscii c) : isAscii c.toUpper :=
  Text.forall_ascii (p := fun c => isAscii c.toUpper) (by decide) hc

theorem toLower_toUpper (hc : isAscii c) (hsmall : isCapital c = false) :
    c.toUpper.toLower = c :=
  Text.forall_ascii (p := fun c => isCapital c = false → c.toUpper.toLower = c) (by decide) hc
    hsmall

theorem toUpper_ne_space (hc : isAscii c) (hne : c ≠ ' ') : c.toUpper ≠ ' ' :=
  Text.forall_ascii (p := fun c => c ≠ ' ' → c.toUpper ≠ ' ') (by decide) hc hne

end

/-- Every character of the name is one of ASCII. -/
def IsAsciiName (name : String) : Prop := ∀ c ∈ name.toList, isAscii c

instance (name : String) : Decidable (IsAsciiName name) :=
  decidable_of_iff (name.toList.all isAscii) List.all_eq_true

/-- The characters of a name run together: in lower case, and without all that parts words. -/
def runTogether (name : String) : String :=
  Text.lower (String.ofList (name.toList.filter fun c => c != '_' && !isSeparator c))

section

variable {name : String} (h : IsAsciiName name)

include h

theorem isAscii_of_mem_parted : ∀ c ∈ parted name.toList, isAscii c := by
  intro c hc
  rcases mem_of_mem_parted hc with rfl | hmem
  · decide
  · exact h c hmem

theorem toList_snakeCase : (snakeCase name).toList = (parted name.toList).map Char.toLower := by
  have hparted : snakeCase name = Text.lower (String.ofList (parted name.toList)) := rfl
  rw [hparted, Text.lower_ofList (isAscii_of_mem_parted h), String.toList_ofList]

/-- Snake case has neither capitals nor separators. -/
theorem of_mem_snakeCase {c : Char} (hc : c ∈ (snakeCase name).toList) :
    isAscii c ∧ isCapital c = false ∧ isSeparator c = false := by
  rw [toList_snakeCase h] at hc
  obtain ⟨d, hd, rfl⟩ := List.mem_map.mp hc
  have hascii := isAscii_of_mem_parted h d hd
  exact ⟨Text.isAscii_toLower hascii, isCapital_toLower hascii,
    (isSeparator_toLower hascii).trans (isSeparator_of_mem_parted hd)⟩

theorem snakeCase_snakeCase : snakeCase (snakeCase name) = snakeCase name := by
  have hascii : IsAsciiName (snakeCase name) := fun c hc => (of_mem_snakeCase h hc).1
  have hparted : parted (snakeCase name).toList = (snakeCase name).toList :=
    parted_of_small (fun c hc => (of_mem_snakeCase h hc).2.1)
      fun c hc => (of_mem_snakeCase h hc).2.2
  apply String.toList_injective
  rw [toList_snakeCase hascii, hparted]
  refine (List.map_congr_left fun c hc => ?_).trans (List.map_id _)
  exact toLower_of_isCapital (hascii c hc) (of_mem_snakeCase h hc).2.1

/-- Without its underscores, snake case is what the name runs together to. -/
theorem filter_snakeCase :
    (snakeCase name).toList.filter (· != '_') = (runTogether name).toList := by
  have hkept : ∀ c ∈ name.toList.filter fun c => c != '_' && !isSeparator c, isAscii c :=
    fun c hc => h c (List.mem_of_mem_filter hc)
  have hunderscore : ∀ c ∈ parted name.toList,
      ((· != '_') ∘ Char.toLower) c = (c != '_') := by
    intro c hc
    rw [Function.comp, Bool.eq_iff_iff, bne_iff_ne, bne_iff_ne, Ne,
      toLower_eq_underscore_iff (isAscii_of_mem_parted h c hc)]
  rw [toList_snakeCase h, List.filter_map, List.filter_congr hunderscore, filter_parted,
    runTogether, Text.lower_ofList hkept, String.toList_ofList]

/-! ### Words -/

theorem of_mem_word {word : List Char} (hword : word ∈ words name) {c : Char} (hc : c ∈ word) :
    isAscii c ∧ isCapital c = false ∧ isSeparator c = false :=
  of_mem_snakeCase h (Text.mem_of_mem_pieces hword hc)

theorem flatten_words : (words name).flatten = (runTogether name).toList := by
  rw [words, Text.flatten_pieces, filter_snakeCase h]

omit h in
theorem capitalize_of_isAscii {word : List Char} (hword : ∀ c ∈ word, isAscii c) :
    Text.capitalize word = word.modifyHead Char.toUpper := by
  cases word with
  | nil => rfl
  | cons c rest =>
      rw [Text.capitalize, titleChar_of_isAscii (hword c List.mem_cons_self)]
      rfl

/-- A capital in front of a word is no more than another case. -/
theorem map_toLower_capitalize {word : List Char} (hword : word ∈ words name) :
    (Text.capitalize word).map Char.toLower = word := by
  have hchars : ∀ c ∈ word, isAscii c ∧ isCapital c = false := fun c hc =>
    ⟨(of_mem_word h hword hc).1, (of_mem_word h hword hc).2.1⟩
  rw [capitalize_of_isAscii fun c hc => (hchars c hc).1]
  cases word with
  | nil => rfl
  | cons c rest =>
      obtain ⟨hc, hrest⟩ := List.forall_mem_cons.mp hchars
      rw [List.modifyHead_cons, List.map_cons, toLower_toUpper hc.1 hc.2]
      refine congrArg (c :: ·) ((List.map_congr_left fun x hx => ?_).trans (List.map_id _))
      exact toLower_of_isCapital (hrest x hx).1 (hrest x hx).2

theorem of_mem_capitalize {word : List Char} (hword : word ∈ words name) {c : Char}
    (hc : c ∈ Text.capitalize word) : isAscii c ∧ c ≠ ' ' := by
  have hchars : ∀ c ∈ word, isAscii c ∧ c ≠ ' ' := fun c hc => by
    obtain ⟨hascii, -, hseparator⟩ := of_mem_word h hword hc
    refine ⟨hascii, ?_⟩
    rintro rfl
    exact absurd hseparator (by decide)
  rw [capitalize_of_isAscii fun c hc => (hchars c hc).1] at hc
  cases word with
  | nil => exact absurd hc List.not_mem_nil
  | cons first rest =>
      obtain ⟨hfirst, hrest⟩ := List.forall_mem_cons.mp hchars
      rcases List.mem_cons.mp hc with rfl | hc
      · exact ⟨isAscii_toUpper hfirst.1, toUpper_ne_space hfirst.1 hfirst.2⟩
      · exact hrest c hc

theorem lower_flatMap_capitalize :
    Text.lower (String.ofList ((words name).flatMap Text.capitalize)) = runTogether name := by
  have hascii : ∀ c ∈ (words name).flatMap Text.capitalize, isAscii c := by
    intro c hc
    obtain ⟨word, hword, hc⟩ := List.mem_flatMap.mp hc
    exact (of_mem_capitalize h hword hc).1
  apply String.toList_injective
  rw [Text.lower_ofList hascii, String.toList_ofList, List.map_flatMap, ← flatten_words h,
    List.flatMap_def]
  refine congrArg List.flatten ((List.map_congr_left fun word hword => ?_).trans (List.map_id _))
  exact map_toLower_capitalize h hword

/-- Without its spaces, the title is the words run together with their capitals. -/
theorem filter_title :
    (title name).toList.filter (· != ' ') = (words name).flatMap Text.capitalize := by
  have hkept : ∀ word ∈ (words name).map Text.capitalize,
      word.filter (· != ' ') = word := by
    intro word hword
    obtain ⟨word, hmem, rfl⟩ := List.mem_map.mp hword
    refine List.filter_eq_self.mpr fun c hc => ?_
    exact bne_iff_ne.mpr (of_mem_capitalize h hmem hc).2
  rw [title, String.toList_ofList, List.flatMap_def]
  generalize (words name).map Text.capitalize = capitalized at hkept
  induction capitalized with
  | nil => rfl
  | cons word rest ih =>
      obtain ⟨hword, hrest⟩ := List.forall_mem_cons.mp hkept
      cases rest with
      | nil => simpa [Text.joinWith_singleton] using hword
      | cons next rest =>
          rw [Text.joinWith_cons_cons, List.filter_append, hword,
            List.filter_cons_of_neg (by simp), ih hrest]
          rfl

end

/--
**Snake case loses no character of a name, and neither do the forms that are made of its words.**

The snake case of a name of ASCII has no capitals, hyphens and blanks, and its own snake case is the
same. Without its underscores it is the name in lower case, without underscores, hyphens and blanks.
That is also the lower case of the name in Pascal case, and of its title without spaces. So if a key
belongs to the definitions of two names, they are the same up to case and separators.
-/
theorem snakeCase_lossless {name : String} (h : IsAsciiName name) :
    (∀ c ∈ (snakeCase name).toList, isCapital c = false ∧ c ≠ '-' ∧ Text.isBlank c = false) ∧
    snakeCase (snakeCase name) = snakeCase name ∧
    String.ofList ((snakeCase name).toList.filter (· != '_')) = runTogether name ∧
    Text.lower (pascalCase name) = runTogether name ∧
    Text.lower (String.ofList ((title name).toList.filter (· != ' '))) = runTogether name ∧
    ∀ other key : String, IsAsciiName other →
      (key = Definition.responseName name ∨ key = Definition.requestName name) →
      (key = Definition.responseName other ∨ key = Definition.requestName other) →
      runTogether name = runTogether other := by
  have hpascal {name : String} (h : IsAsciiName name) :
      Text.lower (pascalCase name) = runTogether name := lower_flatMap_capitalize h
  refine ⟨fun c hc => ?_, snakeCase_snakeCase h, ?_, hpascal h, ?_, ?_⟩
  · obtain ⟨-, hcapital, hseparator⟩ := of_mem_snakeCase h hc
    simp only [isSeparator, Bool.or_eq_false_iff, beq_eq_false_iff_ne] at hseparator
    exact ⟨hcapital, hseparator⟩
  · rw [filter_snakeCase h, String.ofList_toList]
  · rw [filter_title h, lower_flatMap_capitalize h]
  · intro other key hother hkey hkey'
    rw [← hpascal h, ← hpascal hother, Definition.pascalCase_eq_of_key hkey hkey']

/-- An acronym, a digit, and separators of all kinds. -/
theorem snakeCase_lossless_mixed :
    IsAsciiName "-HTTPServer2Go _x " ∧ IsAsciiName "httpServer2-go_X" ∧
      snakeCase "-HTTPServer2Go _x " = "_http_server2_go__x_" ∧
      runTogether "-HTTPServer2Go _x " = runTogether "httpServer2-go_X" := by
  have hname : IsAsciiName "-HTTPServer2Go _x " := by decide
  have hother : IsAsciiName "httpServer2-go_X" := by decide
  have hshared : Definition.responseName "-HTTPServer2Go _x "
      = Definition.responseName "httpServer2-go_X" := by decide +kernel
  obtain ⟨-, -, -, -, -, hkeys⟩ := snakeCase_lossless hname
  exact ⟨hname, hother, rfl, hkeys _ _ hother (.inl rfl) (.inl hshared)⟩

end Naming
end ApiManifest
