import ApiManifest.Proofs.Letters

/-!
# Spellings of a name

The words of a name can be written with underscores, hyphens or spaces between them, or with a
capital in front of each, or of each but the first. The words that are found in a name are the same
in every spelling: a separator is one underscore, and where there is none, an underscore goes in
front of each capital but one at the very beginning. So whatever is written about a resource does
not depend on how it is spelled, and the keys of its definitions tell its words.
-/

namespace ApiManifest.Naming

open Text (isAscii)

/-! ## Words and their spellings -/

/-- A small letter or a digit. -/
def isWordChar (c : Char) : Bool := isSmall c || c.isDigit

/-- A word: a small letter, and behind it at least one small letter or digit. -/
def isWord : List Char → Bool
  | first :: second :: rest => isSmall first && (second :: rest).all isWordChar
  | _ => false

/-- A word with a capital in front. -/
def capitalized (word : List Char) : List Char := word.modifyHead Char.toUpper

/-- How the words of a name are written. -/
inductive Spelling where
  /-- `roaming_device` -/
  | snake
  /-- `roaming-device` -/
  | kebab
  /-- `roaming device` -/
  | spaced
  /-- `roamingDevice` -/
  | camel
  /-- `RoamingDevice` -/
  | pascal

/-- The characters of words in a spelling. -/
def Spelling.chars : Spelling → List (List Char) → List Char
  | snake, ws => Text.joinWith '_' ws
  | kebab, ws => Text.joinWith '-' ws
  | spaced, ws => Text.joinWith ' ' ws
  | camel, [] => []
  | camel, first :: rest => first ++ rest.flatMap capitalized
  | pascal, ws => ws.flatMap capitalized

/-- The name of words in a spelling. -/
def Spelling.spell (s : Spelling) (ws : List (List Char)) : String := String.ofList (s.chars ws)

/-! ### Characters of words -/

section

variable {c : Char}

theorem isAscii_of_isWordChar (hc : isWordChar c) : isAscii c := by
  simp only [isWordChar, isSmall, Bool.or_eq_true, Bool.and_eq_true, decide_eq_true_eq,
    Char.le_def, UInt32.le_iff_toNat_le, Char.isDigit_iff_toNat] at hc
  have hcode : c.toNat ≤ 122 := by
    rcases hc with ⟨-, h⟩ | ⟨-, h⟩
    · exact h
    · exact Nat.le_trans h (by decide)
  exact decide_eq_true (by omega)

theorem isWordChar_of_isSmall (hc : isSmall c) : isWordChar c :=
  Bool.or_eq_true_iff.mpr (.inl hc)

theorem isCapital_of_isWordChar (hc : isWordChar c) : isCapital c = false :=
  Text.forall_ascii (p := fun c => isWordChar c → isCapital c = false) (by decide)
    (isAscii_of_isWordChar hc) hc

theorem isSeparator_of_isWordChar (hc : isWordChar c) : isSeparator c = false :=
  Text.forall_ascii (p := fun c => isWordChar c → isSeparator c = false) (by decide)
    (isAscii_of_isWordChar hc) hc

theorem ne_underscore_of_isWordChar (hc : isWordChar c) : c ≠ '_' := by
  rintro rfl
  exact absurd hc (by decide)

/-- An underscore goes behind the character if a capital follows. -/
theorem partsCapital_of_isWordChar (hc : isWordChar c) : (isSmall c || Text.isDigit c) = true :=
  Text.forall_ascii (p := fun c => isWordChar c → (isSmall c || Text.isDigit c) = true) (by decide)
    (isAscii_of_isWordChar hc) hc

theorem isCapital_toUpper (hc : isSmall c) : isCapital c.toUpper = true :=
  Text.forall_ascii (p := fun c => isSmall c → isCapital c.toUpper = true) (by decide)
    (isAscii_of_isWordChar (isWordChar_of_isSmall hc)) hc

theorem isSeparator_toUpper (hc : isSmall c) : isSeparator c.toUpper = false :=
  Text.forall_ascii (p := fun c => isSmall c → isSeparator c.toUpper = false) (by decide)
    (isAscii_of_isWordChar (isWordChar_of_isSmall hc)) hc

end

/-- A word is a small letter in front of others. -/
theorem exists_cons_of_isWord {word : List Char} (h : isWord word) : ∃ first second rest,
    word = first :: second :: rest ∧ isSmall first ∧ ∀ c ∈ second :: rest, isWordChar c := by
  match word, h with
  | first :: second :: rest, h =>
      rw [isWord, Bool.and_eq_true] at h
      exact ⟨first, second, rest, rfl, h.1, List.all_eq_true.mp h.2⟩

theorem isWordChar_of_mem {word : List Char} (h : isWord word) : ∀ c ∈ word, isWordChar c := by
  obtain ⟨first, second, rest, rfl, hfirst, hrest⟩ := exists_cons_of_isWord h
  exact List.forall_mem_cons.mpr ⟨isWordChar_of_isSmall hfirst, hrest⟩

/-! ## Separators -/

theorem joinSeparators_append {word : List Char} (h : ∀ c ∈ word, isSeparator c = false)
    (rest : List Char) :
    joinSeparators false (word ++ rest) = word ++ joinSeparators false rest := by
  induction word with
  | nil => rfl
  | cons c word ih =>
      obtain ⟨hc, hword⟩ := List.forall_mem_cons.mp h
      rw [List.cons_append, joinSeparators, hc, if_neg Bool.false_ne_true, ih hword]
      rfl

/-- A word ends a run of separators. -/
theorem joinSeparators_inside {sep : Char} {ws : List (List Char)} (h : ∀ w ∈ ws, isWord w) :
    joinSeparators true (Text.joinWith sep ws) = joinSeparators false (Text.joinWith sep ws) := by
  cases ws with
  | nil => rfl
  | cons w rest =>
      obtain ⟨first, second, more, rfl, hfirst, -⟩ := exists_cons_of_isWord (h w List.mem_cons_self)
      have hbegins : ∃ behind, Text.joinWith sep ((first :: second :: more) :: rest)
          = first :: behind := by
        cases rest with
        | nil => exact ⟨_, Text.joinWith_singleton _ _⟩
        | cons next rest => exact ⟨_, Text.joinWith_cons_cons _ _ _ _⟩
      obtain ⟨behind, hbehind⟩ := hbegins
      have hkept : isSeparator first = false :=
        isSeparator_of_isWordChar (isWordChar_of_isSmall hfirst)
      rw [hbehind, joinSeparators, joinSeparators, hkept, if_neg Bool.false_ne_true,
        if_neg Bool.false_ne_true]

/-- A separator between words is written as an underscore. -/
theorem joinSeparators_joinWith {sep : Char} (hsep : sep = '_' ∨ isSeparator sep = true) :
    ∀ {ws : List (List Char)}, (∀ w ∈ ws, isWord w) →
      joinSeparators false (Text.joinWith sep ws) = Text.joinWith '_' ws
  | [], _ => rfl
  | [w], h => by
      have hw := isWordChar_of_mem (h w List.mem_cons_self)
      rw [Text.joinWith_singleton, Text.joinWith_singleton]
      exact joinSeparators_of_none fun c hc => isSeparator_of_isWordChar (hw c hc)
  | w :: next :: rest, h => by
      obtain ⟨hw, hrest⟩ := List.forall_mem_cons.mp h
      have hnone : ∀ c ∈ w, isSeparator c = false := fun c hc =>
        isSeparator_of_isWordChar (isWordChar_of_mem hw c hc)
      have hmark : joinSeparators false (sep :: Text.joinWith sep (next :: rest))
          = '_' :: joinSeparators false (Text.joinWith sep (next :: rest)) := by
        rw [joinSeparators]
        rcases hsep with rfl | hsep
        · rfl
        · rw [hsep, if_pos rfl, if_neg Bool.false_ne_true, joinSeparators_inside hrest]
      rw [Text.joinWith_cons_cons, Text.joinWith_cons_cons, joinSeparators_append hnone, hmark,
        joinSeparators_joinWith hsep hrest]

/-! ## Capitals -/

/-- A capital that no capital follows ends no acronym. -/
theorem partAcronyms_cons {a b : Char} (hb : isCapital b = false) (rest : List Char) :
    partAcronyms (a :: b :: rest) = a :: partAcronyms (b :: rest) := by
  cases rest with
  | nil => rfl
  | cons c rest => rw [partAcronyms, hb, Bool.and_false, Bool.false_and, if_neg Bool.false_ne_true]

theorem partAcronyms_small {a : Char} (ha : isCapital a = false) (rest : List Char) :
    partAcronyms (a :: rest) = a :: partAcronyms rest := by
  match rest with
  | [] | [_] => rfl
  | b :: c :: rest =>
      rw [partAcronyms, ha, Bool.false_and, Bool.false_and, if_neg Bool.false_ne_true]

theorem partAcronyms_append {cs : List Char} (h : ∀ c ∈ cs, isCapital c = false)
    (rest : List Char) : partAcronyms (cs ++ rest) = cs ++ partAcronyms rest := by
  induction cs with
  | nil => rfl
  | cons c cs ih =>
      obtain ⟨hc, hcs⟩ := List.forall_mem_cons.mp h
      rw [List.cons_append, partAcronyms_small hc, ih hcs]
      rfl

/-- There are no acronyms in words with capitals. -/
theorem partAcronyms_capitalized {ws : List (List Char)} (h : ∀ w ∈ ws, isWord w) :
    partAcronyms (ws.flatMap capitalized) = ws.flatMap capitalized := by
  induction ws with
  | nil => rfl
  | cons w ws ih =>
      obtain ⟨hw, hws⟩ := List.forall_mem_cons.mp h
      obtain ⟨first, second, more, rfl, -, hmore⟩ := exists_cons_of_isWord hw
      have hsmall : ∀ c ∈ second :: more, isCapital c = false := fun c hc =>
        isCapital_of_isWordChar (hmore c hc)
      have hbehind := partAcronyms_append hsmall (ws.flatMap capitalized)
      rw [ih hws, List.cons_append] at hbehind
      rw [List.flatMap_cons, capitalized, List.modifyHead_cons, List.cons_append, List.cons_append,
        partAcronyms_cons (hsmall second List.mem_cons_self), hbehind]

/-- Behind the characters of a word, an underscore goes in front of a capital. -/
theorem partCapitals_append {cs : List Char} (h : ∀ c ∈ cs, isWordChar c) (hne : cs ≠ [])
    (first : Char) {capital : Char} (hcapital : isCapital capital = true) (rest : List Char) :
    partCapitals (first :: cs ++ capital :: rest)
      = first :: cs ++ '_' :: partCapitals (capital :: rest) := by
  induction cs generalizing first with
  | nil => exact absurd rfl hne
  | cons c cs ih =>
      obtain ⟨hc, hcs⟩ := List.forall_mem_cons.mp h
      rw [List.cons_append, List.cons_append, partCapitals, isCapital_of_isWordChar hc,
        Bool.and_false, if_neg Bool.false_ne_true]
      cases cs with
      | nil =>
          rw [List.nil_append, partCapitals, partsCapital_of_isWordChar hc, hcapital, Bool.and_true,
            if_pos rfl]
          rfl
      | cons d cs => exact congrArg (first :: ·) (ih hcs (by simp) c)

/-- Words with capitals are parted where they begin, behind a first word of any case. -/
theorem partCapitals_capitalized {first : Char} {cs : List Char} (hcs : ∀ c ∈ cs, isWordChar c)
    (hne : cs ≠ []) {ws : List (List Char)} (h : ∀ w ∈ ws, isWord w) :
    partCapitals (first :: cs ++ ws.flatMap capitalized)
      = Text.joinWith '_' ((first :: cs) :: ws.map capitalized) := by
  induction ws generalizing first cs with
  | nil =>
      rw [List.flatMap_nil, List.append_nil, List.map_nil, Text.joinWith_singleton]
      exact partCapitals_of_small fun c hc => isCapital_of_isWordChar (hcs c hc)
  | cons w ws ih =>
      obtain ⟨hw, hws⟩ := List.forall_mem_cons.mp h
      obtain ⟨letter, second, more, rfl, hletter, hmore⟩ := exists_cons_of_isWord hw
      have hrest : partCapitals (letter.toUpper :: second :: more ++ ws.flatMap capitalized) = _ :=
        ih hmore (List.cons_ne_nil _ _) hws
      rw [List.flatMap_cons, List.map_cons, Text.joinWith_cons_cons, capitalized,
        List.modifyHead_cons, ← hrest]
      exact partCapitals_append hcs hne first (isCapital_toUpper hletter) _

/-! ## Snake case of all spellings -/

theorem forall_mem_joinWith {p : Char → Prop} {sep : Char} (hsep : p sep) :
    ∀ {pieces : List (List Char)}, (∀ piece ∈ pieces, ∀ c ∈ piece, p c) →
      ∀ c ∈ Text.joinWith sep pieces, p c
  | [], _ => fun _ hc => absurd hc List.not_mem_nil
  | [piece], h => by
      rw [Text.joinWith_singleton]
      exact h piece List.mem_cons_self
  | piece :: next :: rest, h => by
      obtain ⟨hpiece, hrest⟩ := List.forall_mem_cons.mp h
      rw [Text.joinWith_cons_cons]
      exact List.forall_mem_append.mpr
        ⟨hpiece, List.forall_mem_cons.mpr ⟨hsep, forall_mem_joinWith hsep hrest⟩⟩

theorem map_joinWith (f : Char → Char) (sep : Char) : ∀ pieces : List (List Char),
    (Text.joinWith sep pieces).map f = Text.joinWith (f sep) (pieces.map (List.map f))
  | [] => rfl
  | [piece] => by rw [Text.joinWith_singleton, List.map_singleton, Text.joinWith_singleton]
  | piece :: next :: rest => by
      rw [Text.joinWith_cons_cons, List.map_append, List.map_cons,
        map_joinWith f sep (next :: rest)]
      exact (Text.joinWith_cons_cons _ _ _ _).symm

theorem map_toLower_capitalized {word : List Char} (h : isWord word) :
    (capitalized word).map Char.toLower = word := by
  obtain ⟨first, second, rest, rfl, hfirst, hrest⟩ := exists_cons_of_isWord h
  have hchar := isWordChar_of_isSmall hfirst
  rw [capitalized, List.modifyHead_cons, List.map_cons,
    toLower_toUpper (isAscii_of_isWordChar hchar) (isCapital_of_isWordChar hchar)]
  refine congrArg (first :: ·) ((List.map_congr_left fun c hc => ?_).trans (List.map_id _))
  exact toLower_of_isCapital (isAscii_of_isWordChar (hrest c hc))
    (isCapital_of_isWordChar (hrest c hc))

theorem of_mem_capitalized {word : List Char} (h : isWord word) {c : Char}
    (hc : c ∈ capitalized word) : isAscii c ∧ isSeparator c = false := by
  obtain ⟨first, second, rest, rfl, hfirst, hrest⟩ := exists_cons_of_isWord h
  rcases List.mem_cons.mp hc with rfl | hc
  · exact ⟨isAscii_toUpper (isAscii_of_isWordChar (isWordChar_of_isSmall hfirst)),
      isSeparator_toUpper hfirst⟩
  · exact ⟨isAscii_of_isWordChar (hrest c hc), isSeparator_of_isWordChar (hrest c hc)⟩

section

variable {ws : List (List Char)} (h : ∀ w ∈ ws, isWord w)

include h

theorem of_mem_flatMap_capitalized {c : Char} (hc : c ∈ ws.flatMap capitalized) :
    isAscii c ∧ isSeparator c = false := by
  obtain ⟨w, hw, hc⟩ := List.mem_flatMap.mp hc
  exact of_mem_capitalized (h w hw) hc

theorem map_toLower_words : ws.map (List.map Char.toLower) = ws := by
  refine (List.map_congr_left fun w hw => ?_).trans (List.map_id _)
  refine (List.map_congr_left fun c hc => ?_).trans (List.map_id _)
  have hchar := isWordChar_of_mem (h w hw) c hc
  exact toLower_of_isCapital (isAscii_of_isWordChar hchar) (isCapital_of_isWordChar hchar)

theorem map_toLower_map_capitalized : (ws.map capitalized).map (List.map Char.toLower) = ws := by
  rw [List.map_map]
  exact (List.map_congr_left fun w hw => map_toLower_capitalized (h w hw)).trans (List.map_id _)

theorem isAsciiName_joinWith {sep : Char} (hsep : isAscii sep) :
    ∀ c ∈ Text.joinWith sep ws, isAscii c :=
  forall_mem_joinWith (p := (isAscii ·)) hsep fun w hw c hc =>
    isAscii_of_isWordChar (isWordChar_of_mem (h w hw) c hc)

theorem isAsciiName_spell (s : Spelling) : IsAsciiName (s.spell ws) := by
  intro c hc
  rw [Spelling.spell, String.toList_ofList] at hc
  cases s with
  | snake => exact isAsciiName_joinWith h (by decide) c hc
  | kebab => exact isAsciiName_joinWith h (by decide) c hc
  | spaced => exact isAsciiName_joinWith h (by decide) c hc
  | pascal => exact (of_mem_flatMap_capitalized h hc).1
  | camel =>
      cases ws with
      | nil => exact absurd hc List.not_mem_nil
      | cons w ws =>
          obtain ⟨hw, hws⟩ := List.forall_mem_cons.mp h
          rcases List.mem_append.mp hc with hc | hc
          · exact isAscii_of_isWordChar (isWordChar_of_mem hw c hc)
          · exact (of_mem_flatMap_capitalized hws hc).1

/-- Words with separators between them have no capitals. -/
theorem parted_joinWith {sep : Char} (hsmall : isCapital sep = false)
    (hsep : sep = '_' ∨ isSeparator sep = true) :
    parted (Text.joinWith sep ws) = Text.joinWith '_' ws := by
  have hcapital : ∀ c ∈ Text.joinWith sep ws, isCapital c = false :=
    forall_mem_joinWith hsmall fun w hw c hc =>
      isCapital_of_isWordChar (isWordChar_of_mem (h w hw) c hc)
  rw [parted, partAcronyms_of_small hcapital,
    partCapitals_of_small fun c hc => hcapital c (List.mem_of_mem_tail hc),
    joinSeparators_joinWith hsep h]

/-- Words with capitals have no separators, so it is the capitals that part them. -/
theorem parted_capitalized {first : Char} {cs : List Char} (hcs : ∀ c ∈ cs, isWordChar c)
    (hne : cs ≠ []) (hfirst : isSeparator first = false) :
    parted (first :: cs ++ ws.flatMap capitalized)
      = Text.joinWith '_' ((first :: cs) :: ws.map capitalized) := by
  have hacronyms : partAcronyms (first :: cs ++ ws.flatMap capitalized)
      = first :: cs ++ ws.flatMap capitalized := by
    obtain ⟨second, more, rfl⟩ := List.exists_cons_of_ne_nil hne
    have hsmall : ∀ c ∈ second :: more, isCapital c = false := fun c hc =>
      isCapital_of_isWordChar (hcs c hc)
    have hbehind := partAcronyms_append hsmall (ws.flatMap capitalized)
    rw [partAcronyms_capitalized h, List.cons_append] at hbehind
    rw [List.cons_append, List.cons_append,
      partAcronyms_cons (hsmall second List.mem_cons_self), hbehind]
  have hnone : ∀ c ∈ Text.joinWith '_' ((first :: cs) :: ws.map capitalized),
      isSeparator c = false := by
    refine forall_mem_joinWith (by decide) (List.forall_mem_cons.mpr ⟨?_, ?_⟩)
    · exact List.forall_mem_cons.mpr ⟨hfirst, fun c hc => isSeparator_of_isWordChar (hcs c hc)⟩
    · intro piece hpiece c hc
      obtain ⟨w, hw, rfl⟩ := List.mem_map.mp hpiece
      exact (of_mem_capitalized (h w hw) hc).2
  rw [parted, hacronyms, partCapitals_capitalized hcs hne h, joinSeparators_of_none hnone]

/-- In every spelling a name is parted into its words, which may have capitals. -/
theorem exists_parted_chars (s : Spelling) : ∃ pieces,
    parted (s.chars ws) = Text.joinWith '_' pieces ∧ pieces.map (List.map Char.toLower) = ws := by
  cases s with
  | snake => exact ⟨ws, parted_joinWith h (by decide) (.inl rfl), map_toLower_words h⟩
  | kebab => exact ⟨ws, parted_joinWith h (by decide) (.inr (by decide)), map_toLower_words h⟩
  | spaced => exact ⟨ws, parted_joinWith h (by decide) (.inr (by decide)), map_toLower_words h⟩
  | camel =>
      cases ws with
      | nil => exact ⟨[], rfl, rfl⟩
      | cons w ws =>
          obtain ⟨hw, hws⟩ := List.forall_mem_cons.mp h
          refine ⟨w :: ws.map capitalized, ?_, ?_⟩
          · obtain ⟨first, second, more, rfl, hfirst, hmore⟩ := exists_cons_of_isWord hw
            refine parted_capitalized hws hmore (List.cons_ne_nil _ _) ?_
            exact isSeparator_of_isWordChar (isWordChar_of_isSmall hfirst)
          · rw [List.map_cons, map_toLower_map_capitalized hws]
            exact congrArg (· :: ws) (List.head_eq_of_cons_eq (map_toLower_words h))
  | pascal =>
      refine ⟨ws.map capitalized, ?_, map_toLower_map_capitalized h⟩
      cases ws with
      | nil => rfl
      | cons w ws =>
          obtain ⟨hw, hws⟩ := List.forall_mem_cons.mp h
          obtain ⟨first, second, more, rfl, hfirst, hmore⟩ := exists_cons_of_isWord hw
          exact parted_capitalized hws hmore (List.cons_ne_nil _ _) (isSeparator_toUpper hfirst)

/-- **Snake case does not depend on the spelling.** -/
theorem snakeCase_spell (s : Spelling) : snakeCase (s.spell ws) = Spelling.snake.spell ws := by
  obtain ⟨pieces, hparted, hpieces⟩ := exists_parted_chars h s
  apply String.toList_injective
  rw [toList_snakeCase (isAsciiName_spell h s), Spelling.spell, String.toList_ofList, hparted,
    map_joinWith, hpieces, Spelling.spell, String.toList_ofList]
  rfl

/-- The words of a name are the words that were spelled. -/
theorem words_spell (s : Spelling) : words (s.spell ws) = ws := by
  rw [words, snakeCase_spell h, Spelling.spell, String.toList_ofList, Spelling.chars, Text.pieces]
  cases ws with
  | nil => rfl
  | cons w rest =>
      have hnone : ∀ piece ∈ w :: rest, '_' ∉ piece := fun piece hpiece hmem =>
        ne_underscore_of_isWordChar (isWordChar_of_mem (h piece hpiece) _ hmem) rfl
      rw [Text.splitAt_joinWith (List.cons_ne_nil _ _) hnone]
      refine List.filter_eq_self.mpr fun piece hpiece => ?_
      obtain ⟨first, second, more, rfl, -, -⟩ := exists_cons_of_isWord (h piece hpiece)
      rfl

theorem map_capitalize_words : ws.map Text.capitalize = ws.map capitalized :=
  List.map_congr_left fun w hw => capitalize_of_isAscii fun c hc =>
    isAscii_of_isWordChar (isWordChar_of_mem (h w hw) c hc)

theorem pascalCase_spell (s : Spelling) : pascalCase (s.spell ws) = Spelling.pascal.spell ws := by
  rw [pascalCase, words_spell h, List.flatMap_def, map_capitalize_words h]
  rfl

end

/-- Pascal case tells the words. -/
theorem words_eq_of_pascalCase {ws ws' : List (List Char)} (h : ∀ w ∈ ws, isWord w)
    (h' : ∀ w ∈ ws', isWord w) {s s' : Spelling}
    (heq : pascalCase (s.spell ws) = pascalCase (s'.spell ws')) : ws = ws' := by
  rw [pascalCase_spell h, pascalCase_spell h'] at heq
  rw [← words_spell h .pascal, heq, words_spell h']

/--
**The spelling of a name does not matter.**

For words that each begin with a small letter and go on with small letters and digits, in snake
case, kebab case, with spaces, in camel case and in Pascal case: the name has the words in snake
case, as a phrase, as a title and in Pascal case, and snake case comes back from Pascal case. So the
definitions of resources that are named by such words share a key of one kind just if the words are
the same, and no key of answers is one of requests.
-/
theorem spelling_indifferent {ws : List (List Char)} (h : ∀ w ∈ ws, isWord w) (s : Spelling) :
    snakeCase (s.spell ws) = Spelling.snake.spell ws ∧
    phrase (s.spell ws) = Spelling.spaced.spell ws ∧
    title (s.spell ws) = String.ofList (Text.joinWith ' ' (ws.map capitalized)) ∧
    pascalCase (s.spell ws) = Spelling.pascal.spell ws ∧
    snakeCase (pascalCase (s.spell ws)) = Spelling.snake.spell ws ∧
    (∀ (ws' : List (List Char)) (s' : Spelling), (∀ w ∈ ws', isWord w) →
      (Definition.responseName (s.spell ws) = Definition.responseName (s'.spell ws') ↔ ws = ws') ∧
      (Definition.requestName (s.spell ws) = Definition.requestName (s'.spell ws') ↔ ws = ws')) ∧
    ∀ a b : String, Definition.responseName a ≠ Definition.requestName b := by
  have hnames {ws' : List (List Char)} {s' : Spelling} (h' : ∀ w ∈ ws', isWord w) :
      pascalCase (s.spell ws) = pascalCase (s'.spell ws') ↔ ws = ws' := by
    refine ⟨words_eq_of_pascalCase h h', ?_⟩
    rintro rfl
    rw [pascalCase_spell h, pascalCase_spell h]
  refine ⟨snakeCase_spell h s, ?_, ?_, pascalCase_spell h s, ?_, fun ws' s' h' => ?_,
    Definition.responseName_ne_requestName⟩
  · rw [phrase, words_spell h]
    rfl
  · rw [title, words_spell h, map_capitalize_words h]
  · rw [pascalCase_spell h, snakeCase_spell h]
  · exact ⟨(String.append_left_inj _).trans (hnames h'),
      (String.append_left_inj _).trans (hnames h')⟩

/-- Words of two letters, and words that end in digits. -/
theorem spelling_indifferent_short :
    (∀ w ∈ ["ab".toList, "c3".toList, "e2e".toList], isWord w) ∧
      Spelling.camel.spell ["ab".toList, "c3".toList, "e2e".toList] = "abC3E2e" ∧
      snakeCase "abC3E2e" = "ab_c3_e2e" ∧ phrase "abC3E2e" = "ab c3 e2e" ∧
      title "abC3E2e" = "Ab C3 E2e" ∧ pascalCase "abC3E2e" = "AbC3E2e" := by
  have hwords : ∀ w ∈ ["ab".toList, "c3".toList, "e2e".toList], isWord w := by decide
  obtain ⟨hsnake, hphrase, htitle, hpascal, -⟩ := spelling_indifferent hwords .camel
  exact ⟨hwords, rfl, hsnake, hphrase, htitle, hpascal⟩

end ApiManifest.Naming
