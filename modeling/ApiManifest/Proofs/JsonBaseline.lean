import ApiManifest.Proofs.JsonNodes
import ApiManifest.Proofs.Template

/-!
# Baselines in JSON

The template is filled with what JSON writes on one line, each value behind the colon of a field. So
the baseline that is read back has a form in JSON, whatever values a manifest gives for it.
-/

namespace ApiManifest

namespace Json

theorem mem_insertSorted {entry other : Tree × String} {sorted : List (Tree × String)}
    (h : other ∈ insertSorted entry sorted) : other = entry ∨ other ∈ sorted := by
  induction sorted with
  | nil => exact .inl (List.mem_singleton.mp h)
  | cons first rest ih =>
      rw [insertSorted] at h
      split at h
      · exact List.mem_cons.mp h
      · rcases List.mem_cons.mp h with rfl | h
        · exact .inr List.mem_cons_self
        · exact (ih h).imp_right (List.mem_cons_of_mem _)

theorem mem_foldl_insertSorted {parts sorted : List (Tree × String)} {other : Tree × String}
    (h : other ∈ parts.foldl (fun sorted part => insertSorted part sorted) sorted) :
    other ∈ parts ∨ other ∈ sorted := by
  induction parts generalizing sorted with
  | nil => exact .inr h
  | cons part rest ih =>
      rcases ih h with h | h
      · exact .inl (List.mem_cons_of_mem _ h)
      · rcases mem_insertSorted h with rfl | h
        · exact .inl List.mem_cons_self
        · exact .inr h

end Json

namespace Baseline

open Yaml Yaml.Lexer

/-! ## Values in the template -/

/-- A text as it stands in the template. -/
abbrev escaped (text : String) : List Char := text.toList.flatMap escapedChar

/-- No character of a word is escaped. -/
theorem escaped_of_isWord {text : String} (h : IsWord text.toList) :
    escaped text = text.toList := by
  have hkept : ∀ c ∈ text.toList, escapedChar c = [c] := by
    intro c hc
    have hinner := List.all_eq_true.mp h.inner c hc
    refine if_neg ?_
    rintro (rfl | rfl | rfl | rfl) <;> exact absurd hinner (by decide)
  rw [escaped, List.flatMap_congr hkept, List.flatMap_singleton']

theorem escaped_quoted (s : String) : escaped (Json.quoted s) = quote s :=
  flatMap_escapedChar_quoted s

theorem escaped_append (s t : String) : escaped (s ++ t) = escaped s ++ escaped t := by
  simp [escaped]

theorem escaped_intercalate (texts : List String) :
    escaped (", ".intercalate texts) = parted (texts.map escaped) := by
  have hseparator : escaped ", " = [',', ' '] := by decide
  cases texts with
  | nil => rfl
  | cons text rest =>
      induction rest generalizing text with
      | nil => simp [parted]
      | cons next rest ih =>
          rw [String.intercalate_cons_cons, escaped_append, escaped_append, ih, hseparator]
          simp [parted]

/-- Scalars that have a form are quoted texts and words. -/
theorem inline_scalar {s : Scalar} {text : String} (h : Json.scalar s = .ok text) :
    Inline (escaped text) := by
  have hword {text : String} (hword : IsWord text.toList) : Inline (escaped text) := by
    rw [escaped_of_isWord hword]
    exact .word hword
  cases s with
  | text s =>
      cases h
      exact escaped_quoted s ▸ .quote s
  | null =>
      cases h
      exact hword ⟨⟨_, _, rfl, .inl (by decide)⟩, by decide, .inr (by decide)⟩
  | bool b =>
      cases b <;> cases h <;>
        exact hword ⟨⟨_, _, rfl, .inl (by decide)⟩, by decide, .inr (by decide)⟩
  | int n => exact hword (isWord_decimalText h)
  | float x =>
      cases h
      exact hword (isWord_text x)
  | bytes b => cases h

/-- The name of a field, quoted, behind which its value stands. -/
theorem escaped_field (name value : String) :
    escaped (Json.quoted name ++ ": " ++ value) = quote name ++ ':' :: ' ' :: escaped value := by
  have hcolon : escaped ": " = [':', ' '] := by decide
  rw [escaped_append, escaped_append, hcolon, escaped_quoted]
  simp

/-- The text is a field in braces. -/
def IsField (text : String) : Prop :=
  ∃ (name : String) (chars : List Char), Inline chars ∧
    escaped text = quote name ++ ':' :: ' ' :: chars

theorem exists_fields {texts : List String} (h : ∀ text ∈ texts, IsField text) :
    ∃ fields : List (String × List Char), (∀ field ∈ fields, Inline field.2) ∧
      texts.map escaped = fields.map fun (name, chars) => quote name ++ ':' :: ' ' :: chars := by
  induction texts with
  | nil => exact ⟨[], by simp, rfl⟩
  | cons text rest ih =>
      obtain ⟨⟨name, chars, hchars, htext⟩, hrest⟩ := List.forall_mem_cons.mp h
      obtain ⟨fields, hfields, hmap⟩ := ih hrest
      refine ⟨(name, chars) :: fields, List.forall_mem_cons.mpr ⟨hchars, hfields⟩, ?_⟩
      rw [List.map_cons, List.map_cons, htext, hmap]

mutual

/-- **A value is filled in as JSON writes it.** -/
theorem inline_of_inline : ∀ {v : Tree} {text : String}, Json.inline v = .ok text →
    Inline (escaped text)
  | .scalar s, text, h => inline_scalar h
  | .list items, text, h | .tuple items, text, h => by
      obtain ⟨texts, htexts, h⟩ := result_bind_iff.mp h
      cases h
      have hitems := inline_of_inlineItems htexts
      have hbrackets : escaped "[" = ['['] ∧ escaped "]" = [']'] := by decide
      rw [escaped_append, escaped_append, escaped_intercalate, hbrackets.1, hbrackets.2]
      refine .items fun item hitem => ?_
      obtain ⟨text, htext, rfl⟩ := List.mem_map.mp hitem
      exact hitems text htext
  | .map es, text, h => by
      rw [Json.inline] at h
      split at h
      · cases h
      · obtain ⟨parts, hparts, h⟩ := result_bind_iff.mp h
        cases h
        -- sorting moves the fields and makes no new ones
        have hsorted : ∀ text ∈
            (parts.foldl (fun sorted part => Json.insertSorted part sorted) []).map Prod.snd,
              IsField text := by
          intro text htext
          obtain ⟨part, hpart, rfl⟩ := List.mem_map.mp htext
          rcases Json.mem_foldl_insertSorted hpart with hpart | hpart
          · exact isField_of_inlineEntries hparts part hpart
          · cases hpart
        obtain ⟨fields, hfields, hmap⟩ := exists_fields hsorted
        have hbraces : escaped "\x7b" = ['\x7b'] ∧ escaped "\x7d" = ['\x7d'] := by decide
        rw [escaped_append, escaped_append, escaped_intercalate, hbraces.1, hbraces.2, hmap]
        exact .fields hfields
  | .date d, text, h | .dateTime t, text, h | .set items, text, h => nomatch h

theorem inline_of_inlineItems : ∀ {items : List Tree} {texts : List String},
    Json.inlineItems items = .ok texts → ∀ text ∈ texts, Inline (escaped text)
  | [], texts, h => by
      cases h
      simp
  | v :: rest, texts, h => by
      obtain ⟨text, htext, h⟩ := result_bind_iff.mp h
      obtain ⟨more, hmore, h⟩ := result_bind_iff.mp h
      cases h
      exact List.forall_mem_cons.mpr ⟨inline_of_inline htext, inline_of_inlineItems hmore⟩

theorem isField_of_inlineEntries : ∀ {es : List (Tree × Tree)} {parts : List (Tree × String)},
    Json.inlineEntries es = .ok parts → ∀ part ∈ parts, IsField part.2
  | [], parts, h => by
      cases h
      simp
  | (k, v) :: rest, parts, h => by
      obtain ⟨key, hkey, h⟩ := result_bind_iff.mp h
      obtain ⟨value, hvalue, h⟩ := result_bind_iff.mp h
      obtain ⟨more, hmore, h⟩ := result_bind_iff.mp h
      cases h
      refine List.forall_mem_cons.mpr ⟨?_, isField_of_inlineEntries hmore⟩
      cases k with
      | scalar s =>
          obtain ⟨name, hname, hkey⟩ := result_bind_iff.mp hkey
          cases hkey
          exact ⟨name, _, inline_of_inline hvalue, escaped_field name value⟩
      | _ => cases hkey

end

theorem inline_of_filled {v : Tree} {text : String} (h : filled v = .ok text) :
    Inline text.toList := by
  obtain ⟨json, hjson, h⟩ := result_bind_iff.mp h
  cases h
  rw [String.toList_ofList]
  exact inline_of_inline hjson

theorem inline_of_given {fields : Entries} {name text : String}
    (h : given fields name = .ok text) : Inline text.toList := by
  unfold given at h
  split at h
  · exact inline_of_filled h
  · cases h

/-! ## Lines of the template -/

/-- The line about the description, unless it is left out. -/
theorem exists_descriptionLines {fields : Entries} {line : String}
    (h : descriptionLine fields = .ok line) : ∃ description : Option String,
      (∀ text ∈ description, Inline text.toList) ∧
      line.toList = (description.elim "" fun text => "  description: " ++ text ++ "\n").toList := by
  unfold descriptionLine at h
  split at h
  · cases h
    exact ⟨none, by simp, rfl⟩
  · obtain ⟨text, htext, h⟩ := result_bind_iff.mp h
    cases h
    exact ⟨some text, by simpa using inline_of_given htext, rfl⟩

/-- The lines of the template that come behind the description. -/
def closingLines (version schemes formats host basePath : String) : List Line :=
  [⟨2, Field.version, some version.toList⟩,
    ⟨0, Field.schemes, some schemes.toList⟩,
    ⟨0, Field.consumes, some formats.toList⟩,
    ⟨0, Field.produces, some formats.toList⟩,
    ⟨0, Field.host, some host.toList⟩,
    ⟨0, Field.basePath, some basePath.toList⟩,
    ⟨0, Field.paths, some ['\x7b', '\x7d']⟩,
    ⟨0, Field.definitions, some ['\x7b', '\x7d']⟩]

/-- The lines of the template. -/
def templateLines (title : String) (description : Option String) (closing : List Line) :
    List Line :=
  ⟨0, Field.swagger, some (quote "2.0")⟩ :: ⟨0, Field.info, none⟩ ::
    ⟨2, Field.title, some title.toList⟩ ::
    (description.toList.map (fun text => ⟨2, Field.description, some text.toList⟩) ++
      closing)

theorem filled_cons {column : Nat} {name : FieldName} {chars : List Char} {rest : List Line}
    (hchars : Inline chars) (hcolumn : Line.firstColumn rest ≤ column) (hrest : Line.Filled rest) :
    Line.Filled (⟨column, name, some chars⟩ :: rest) := by
  refine ⟨fun other hother => ?_, hrest⟩
  cases hother
  exact ⟨hchars, hcolumn⟩

/-- **The template is lines that are filled with what JSON writes.** -/
theorem exists_lines {fields : Entries} {text : String} (h : Baseline.text fields = .ok text) :
    ∃ title description closing, Line.Filled (templateLines title description closing) ∧
      text.toList = Line.text (templateLines title description closing) := by
  unfold Baseline.text at h
  split at h
  · cases h
  dsimp only at h
  -- each field of the template becomes a text of its own, in this order
  obtain ⟨title, htitle, h⟩ := result_bind_iff.mp h
  obtain ⟨line, hline, h⟩ := result_bind_iff.mp h
  obtain ⟨version, hversion, h⟩ := result_bind_iff.mp h
  obtain ⟨schemes, hschemes, h⟩ := result_bind_iff.mp h
  obtain ⟨formats, hformats, h⟩ := result_bind_iff.mp h
  obtain ⟨host, hhost, h⟩ := result_bind_iff.mp h
  obtain ⟨basePath, hbasePath, h⟩ := result_bind_iff.mp h
  obtain ⟨description, hdescription, hline⟩ := exists_descriptionLines hline
  have hquote : quote "2.0" = ['"', '2', '.', '0', '"'] := by decide
  refine ⟨title, description, closingLines version schemes formats host basePath, ?_, ?_⟩
  · have hnone : ∀ field ∈ ([] : List (String × List Char)), Inline field.2 := by simp
    have hbraces : Inline ['\x7b', '\x7d'] := .fields hnone
    have hclosing : Line.Filled (closingLines version schemes formats host basePath) :=
      filled_cons (inline_of_given hversion) (Nat.zero_le 2) <|
      filled_cons (inline_of_given hschemes) (Nat.le_refl 0) <|
      filled_cons (inline_of_given hformats) (Nat.le_refl 0) <|
      filled_cons (inline_of_given hformats) (Nat.le_refl 0) <|
      filled_cons (inline_of_given hhost) (Nat.le_refl 0) <|
      filled_cons (inline_of_given hbasePath) (Nat.le_refl 0) <|
      filled_cons hbraces (Nat.le_refl 0) <| filled_cons hbraces (Nat.le_refl 0) trivial
    refine filled_cons (.quote "2.0") (Nat.le_refl 0) ⟨nofun, ?_⟩
    cases description with
    | none => exact filled_cons (inline_of_given htitle) (Nat.le_refl 2) hclosing
    | some text =>
        exact filled_cons (inline_of_given htitle) (Nat.le_refl 2)
          (filled_cons (hdescription text rfl) (Nat.le_refl 2) hclosing)
  · rw [← Except.ok.inj h]
    cases description <;>
      simp [templateLines, closingLines, Line.text, Line.behind, Line.firstColumn, hline, hquote]

/-- **The baseline has a form in JSON.** -/
theorem hasJson_ofFields {fields baseline : Tree} (h : ofFields fields = .ok baseline) :
    baseline.HasJson := by
  cases fields with
  | map es =>
      obtain ⟨text, htext, h⟩ := result_bind_iff.mp h
      obtain ⟨⟨st, v⟩, hload, h⟩ := result_bind_iff.mp h
      cases h
      obtain ⟨_, _, _, hfilled, hlines⟩ := exists_lines htext
      rw [hlines] at hload
      exact hasJson_load (isJson_tokensOf hfilled rfl) hload
  | _ => cases h

theorem hasJson_ofManifest {manifest baseline : Tree} (h : ofManifest manifest = .ok baseline) :
    baseline.HasJson := by
  obtain ⟨metadata, -, h⟩ := result_bind_iff.mp h
  exact hasJson_ofFields h

end Baseline
end ApiManifest
