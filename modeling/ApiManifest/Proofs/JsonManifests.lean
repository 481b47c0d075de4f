import ApiManifest.Proofs.JsonFaults
import ApiManifest.Proofs.JsonTrees
import ApiManifest.Proofs.Sweeping

/-!
# Manifests in JSON

A manifest may be written in JSON, as most of JSON means the same in YAML. It is said exactly what
does.
-/

namespace ApiManifest

namespace JsonText

open Yaml

/-- YAML takes the part for what it is in JSON. -/
def Part.IsYaml : Part → Prop
  | .gap blanks => '\t' ∉ blanks.chars
  | .string s => Unmarked s ∧ Unfolded s
  | .name s colon => isNear s colon.chars = true
  | .number n => n.IsYaml

instance Part.decidableIsYaml : ∀ part : Part, Decidable part.IsYaml
  | .gap blanks => inferInstanceAs (Decidable ('\t' ∉ blanks.chars))
  | .string s => inferInstanceAs (Decidable (Unmarked s ∧ Unfolded s))
  | .name s colon => inferInstanceAs (Decidable (isNear s colon.chars = true))
  | .number n => inferInstanceAs (Decidable n.IsYaml)

/-- YAML takes the text of a file for what it is in JSON: it can read all characters, there is no
tab between two tokens, no string goes on behind a raw line separator in a way that matters, every
name is near its colon, and all numbers are written as they are in YAML. -/
structure File.IsYaml (f : File) : Prop where
  isReadable : (f.written Gap.chars).all isReadable = true
  parts : ∀ part ∈ f.parts, part.IsYaml

instance (f : File) : Decidable f.IsYaml :=
  decidable_of_iff ((f.written Gap.chars).all isReadable = true ∧ ∀ part ∈ f.parts, part.IsYaml)
    ⟨fun h => ⟨h.1, h.2⟩, fun h => ⟨h.isReadable, h.parts⟩⟩

theorem feed_mem_unifyLines {cs : List Char} (h : '\r' ∈ cs) :
    '\n' ∈ Manifest.unifyLines cs := by
  fun_induction Manifest.unifyLines cs with
  | case1 | case2 => exact List.mem_cons_self
  | case3 c cs hc hc' ih =>
      refine List.mem_cons_of_mem _ (ih ?_)
      rcases List.mem_cons.mp h with rfl | h
      · exact (hc' rfl).elim
      · exact h
  | case4 => cases h

theorem all_isReadable_unifyLines (cs : List Char) :
    (Manifest.unifyLines cs).all isReadable = cs.all isReadable := by
  fun_induction Manifest.unifyLines cs with
  | case1 cs ih | case2 cs _ ih => simp [ih, isReadable]
  | case3 c cs _ _ ih => simp [ih]
  | case4 => rfl

/-- It does not matter to the colon of a name how the lines before it end. -/
theorem isNear_laid (s : List Piece) (colon : Gap) :
    isNear s colon.laid = isNear s colon.chars := by
  by_cases hreturn : '\r' ∈ colon.chars
  · have hfeed : '\n' ∈ colon.laid := feed_mem_unifyLines hreturn
    have hnot (gap : List Char) (c : Char) (hc : isBreak c = true) (hmem : c ∈ gap) :
        isNear s gap = false := by
      have hall : (quoted s ++ gap).all (!isBreak ·) = false :=
        List.all_eq_false.mpr ⟨c, List.mem_append_right _ hmem, by simp [hc]⟩
      rw [isNear, hall, Bool.false_and]
    rw [hnot _ _ rfl hfeed, hnot _ _ rfl hreturn]
  · have hsame : colon.laid = colon.chars := by
      simpa [Gap.laid, Manifest.unifyLines] using
        Manifest.unifyLines_append_of_not_mem hreturn []
    rw [hsame]

theorem decode_text (f : File) :
    Manifest.decode f.text.toUTF8 = .ok (f.written Gap.laid) := by
  have hutf8 : String.fromUTF8? f.text.toUTF8 = some f.text := dif_pos f.text.isValidUTF8
  rw [Manifest.decode, hutf8]
  simp only [File.text, String.toList_ofList, unifyLines_written]

/-- Three things have to go well: the tokens, the keys, and what the strings and numbers mean. -/
theorem Part.isYaml_iff {part : Part} :
    part.IsYaml ↔ part.IsLexed ∧ part.IsKeyed ∧ part.IsKept := by
  cases part with
  | name s colon => simp [IsYaml, IsLexed, IsKeyed, IsKept, isNear_laid]
  | _ => simp [IsYaml, IsLexed, IsKeyed, IsKept]

namespace File

variable {st st' : Store} {v : Value} {f : File}

theorem isYaml_iff : f.IsYaml ↔ (f.written Gap.laid).all isReadable = true ∧
    (∀ part ∈ f.parts, part.IsLexed) ∧ (∀ part ∈ f.value.parts, part.IsKeyed) ∧
      ∀ part ∈ f.value.parts, part.IsKept := by
  have hreadable : (f.written Gap.laid).all isReadable = (f.written Gap.chars).all isReadable := by
    rw [← unifyLines_written, all_isReadable_unifyLines]
  constructor
  · intro h
    have hparts (part : Part) (hpart : part ∈ f.value.parts) :=
      Part.isYaml_iff.mp (h.parts part (by simp [parts, hpart]))
    exact ⟨hreadable.trans h.isReadable,
      fun part hpart => (Part.isYaml_iff.mp (h.parts part hpart)).1,
      fun part hpart => (hparts part hpart).2.1, fun part hpart => (hparts part hpart).2.2⟩
  · rintro ⟨hall, hlexed, hkeyed, hkept⟩
    refine ⟨hreadable.symm.trans hall, fun part hpart => ?_⟩
    refine Part.isYaml_iff.mpr ⟨hlexed part hpart, ?_⟩
    simp only [parts, List.cons_append, List.mem_cons, List.mem_append, List.not_mem_nil,
      or_false] at hpart
    rcases hpart with rfl | hpart | rfl
    · exact ⟨trivial, trivial⟩
    · exact ⟨hkeyed part hpart, hkept part hpart⟩
    · exact ⟨trivial, trivial⟩

/-- A file that can be read to its end, and whose names are keys, is composed by its shape. -/
theorem exists_compose (hreadable : (f.written Gap.laid).all isReadable = true)
    (hlexed : ∀ part ∈ f.parts, part.IsLexed) (hkeyed : ∀ part ∈ f.value.parts, part.IsKeyed) :
    ∃ g root, compose (f.written Gap.laid) = .ok (g, some root) ∧ f.value.shape.Built g root := by
  obtain ⟨t, ts, hcons, ht⟩ := exists_cons_tokens f.value
  have htokens := tokensOf_written f hlexed
  have hparses (fuel : Nat) (hfuel : 4 * (t :: ts).length ≤ fuel) :=
    parses_text hkeyed (hcons ▸ hfuel) .block
  rw [hcons] at htokens hparses
  exact compose_of_parses hreadable htokens ht hparses

/-- No other file is composed. -/
theorem parts_of_compose {r : Graph × Option Nat} (h : compose (f.written Gap.laid) = .ok r) :
    (f.written Gap.laid).all isReadable = true ∧ (∀ part ∈ f.parts, part.IsLexed) ∧
      ∀ part ∈ f.value.parts, part.IsKeyed := by
  obtain ⟨hreadable, hend⟩ := streamEnd_mem_of_compose h
  have hlexed := isLexed_of_streamEnd hend
  refine ⟨hreadable, hlexed, Classical.byContradiction fun hunkeyed => ?_⟩
  obtain ⟨t, ts, hcons, ht⟩ := exists_cons_tokens f.value
  have hrefuses := refuses_text f.value hunkeyed
    (4 * (f.value.tokens ++ [Token.streamEnd]).length + 8) (by simp; omega) .block
  have htokens := tokensOf_written f hlexed
  rw [hcons] at htokens hrefuses
  exact not_compose htokens ht hrefuses r h

/-- A file in which everything means what it means in JSON is loaded as its tree. -/
theorem IsYaml.exists_load (h : f.IsYaml) (hdistinct : f.value.Distinct) (st : Store) :
    ∃ st' v, load st (f.written Gap.laid) = .ok (st', v) ∧ st'.Shows v f.tree := by
  obtain ⟨hreadable, hlexed, hkeyed, hkept⟩ := isYaml_iff.mp h
  obtain ⟨g, root, hcompose, hbuilt⟩ := exists_compose hreadable hlexed hkeyed
  exact load_of_represents st hcompose (represents_text hdistinct hkept hbuilt)

/-- No other file is. -/
theorem isYaml_of_load (h : load st (f.written Gap.laid) = .ok (st', v))
    (htree : st'.tree v = f.tree) : f.IsYaml := by
  obtain ⟨r, hr⟩ : ∃ r, compose (f.written Gap.laid) = .ok r := exists_compose_of_load h
  obtain ⟨hreadable, hlexed, hkeyed⟩ := parts_of_compose hr
  obtain ⟨g, root, hcompose, hbuilt⟩ := exists_compose hreadable hlexed hkeyed
  have hregular := regular_text hbuilt
  obtain ⟨c, rfl, hc, hdone, hv⟩ := complete_of_load hcompose hregular h
  obtain ⟨t, hshows⟩ := hc.exists_shows hdone hregular hv
  obtain rfl : t = f.tree := hshows.tree_eq.symm.trans htree
  exact isYaml_iff.mpr ⟨hreadable, hlexed, hkeyed, isKept_text hc hdone hbuilt hv hshows⟩

end File
end JsonText

namespace Manifest

open Yaml JsonText

variable {st st' : Store} {files : FileTree} {path : String} {f : File} {v : Value}

/-- Reading a file in JSON is loading its text, with the lines ended in one way. -/
theorem read_iff_ofText (hfile : files.read path = .ok f.text.toUTF8) :
    read st files path = .ok (st', v) ↔ ofText st path (f.written Gap.laid) = .ok (st', v) := by
  rw [read, hfile]
  change ofContents st path f.text.toUTF8 = _ ↔ _
  rw [ofContents, decode_text]
  rfl

/-- A text describes a manifest if an object is loaded that does not contain itself. -/
theorem ofText_iff {text : List Char} : ofText st path text = .ok (st', v) ↔
    Yaml.load st text = .ok (st', v) ∧ (st'.entries? v).isSome = true ∧ st'.hasTree v = true := by
  rw [ofText, result_bind_iff]
  constructor
  · rintro ⟨⟨st₁, v₁⟩, hload, h⟩
    dsimp only at h
    split at h
    · next es hes =>
      split at h
      · next htree =>
        cases h
        exact ⟨hload, Option.isSome_of_eq_some hes, htree⟩
      · cases h
    · cases h
  · rintro ⟨hload, hsome, htree⟩
    obtain ⟨es, hes⟩ := Option.isSome_iff_exists.mp hsome
    refine ⟨(st', v), hload, ?_⟩
    simp only [hes, htree, if_true]
    rfl

theorem isSome_entries_of_shows (hshows : st.Shows v f.tree) : (st.entries? v).isSome = true := by
  obtain ⟨before, value, behind, hobject⟩ := f
  cases value with
  | emptyObject | object =>
      obtain ⟨id, es, rfl, hcell, -⟩ := hshows
      exact Option.isSome_of_eq_some (Store.entries?_ref.mpr hcell)
  | _ => simp at hobject

/-- **A manifest in JSON is read as it is in JSON exactly if it means the same in YAML.** -/
theorem read_json_iff (hfile : files.read path = .ok f.text.toUTF8)
    (hdistinct : f.value.Distinct) :
    (∃ st' v, read st files path = .ok (st', v) ∧ st'.tree v = f.tree) ↔ f.IsYaml := by
  constructor
  · rintro ⟨st', v, hread, htree⟩
    have hload := (ofText_iff.mp ((read_iff_ofText hfile).mp hread)).1
    exact File.isYaml_of_load hload htree
  · intro hyaml
    obtain ⟨st', v, hload, hshows⟩ := hyaml.exists_load hdistinct st
    have htext : ofText st path (f.written Gap.laid) = .ok (st', v) :=
      ofText_iff.mpr ⟨hload, isSome_entries_of_shows hshows, hshows.hasTree⟩
    exact ⟨st', v, (read_iff_ofText hfile).mpr htext, hshows.tree_eq⟩

/-- Nothing. -/
def noGap : Gap := ⟨[], rfl⟩

/-- A space. -/
def space : Gap := ⟨[' '], rfl⟩

/-- The name that the resources of a manifest have. -/
def modelsName : List Piece :=
  [.plain 'm' rfl, .plain 'o' rfl, .plain 'd' rfl, .plain 'e' rfl, .plain 'l' rfl, .plain 's' rfl]

/-- The file with the text `\x7b"n": N, "models": \x7b\x7d\x7d` for a number `N`. -/
def numbered (n : Number) : File where
  before := noGap
  value := .object (.more noGap [.plain 'n' rfl] noGap space (.number n) noGap
    (.last space modelsName noGap space (.emptyObject noGap) noGap))
  behind := noGap
  isObject := rfl

/-- The number `1.5e+3`. -/
def pointed : Number where
  isNegative := false
  whole := ⟨['1'], by simp, rfl⟩
  unpadded h := by simp at h
  fraction := some ⟨['5'], by simp, rfl⟩
  exponent := some ⟨false, .plus, ⟨['3'], by simp, rfl⟩⟩

/-- The number `1e3`, which has no point. -/
def pointless : Number where
  isNegative := false
  whole := ⟨['1'], by simp, rfl⟩
  unpadded h := by simp at h
  fraction := none
  exponent := some ⟨false, .none, ⟨['3'], by simp, rfl⟩⟩

/-- The file tree in which a file stands alone in the working directory. -/
def alone (f : File) : FileTree := FileTree.empty.put ["work", "api.json"] (some f.text.toUTF8)

theorem read_alone_pointless : (match read {} (alone (numbered pointless)) "api.json" with
    | .ok (st, v) => (st.tree v matches .map ((_, .scalar (.text _)) :: _))
    | .error _ => false) = true := by
  decide +kernel

theorem read_json_iff_pointed : (alone (numbered pointed)).read "api.json"
      = .ok (numbered pointed).text.toUTF8 ∧ (numbered pointed).value.Distinct ∧
    ((∃ st' v, read {} (alone (numbered pointed)) "api.json" = .ok (st', v) ∧
      st'.tree v = (numbered pointed).tree) ↔ (numbered pointed).IsYaml) ∧
    (numbered pointed).IsYaml := by
  have hfile : (alone (numbered pointed)).read "api.json" = .ok (numbered pointed).text.toUTF8 := by
    decide +kernel
  have hdistinct : (numbered pointed).value.Distinct := ⟨by decide, trivial, trivial⟩
  exact ⟨hfile, hdistinct, read_json_iff hfile hdistinct, by decide +kernel⟩

/-- YAML takes a number without a point for a text if it has an exponent. -/
theorem not_read_json : ¬ ∀ (st : Store) (files : FileTree) (path : String) (f : File),
    files.read path = .ok f.text.toUTF8 → f.value.Distinct →
    ∃ st' v, read st files path = .ok (st', v) ∧ st'.tree v = f.tree := by
  intro h
  have hfile : (alone (numbered pointless)).read "api.json"
      = .ok (numbered pointless).text.toUTF8 := by decide +kernel
  obtain ⟨st', v, hread, htree⟩ := h {} _ _ _ hfile ⟨by decide, trivial, trivial⟩
  have hread' := read_alone_pointless
  rw [hread] at hread'
  simp only [htree] at hread'
  exact Bool.false_ne_true hread'

end Manifest
end ApiManifest
