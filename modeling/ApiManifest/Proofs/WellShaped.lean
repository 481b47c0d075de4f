import ApiManifest.Proofs.Reading
import ApiManifest.Proofs.Rereading
import Mathlib.Algebra.Group.Nat.Defs

/-!
# Well-shaped declarations

The shape that declarations are expected to have: where a text is needed there is one or nothing,
and where entries are needed there is a mapping or nothing. Everything else may be whatever it is.
Such declarations can be read, and they keep their shape wherever nothing of them is changed. A name
may be any key that has a text, which an integer of too many digits has not.
-/

namespace ApiManifest

/-- The value is a text of a kind, or null. -/
def Value.IsTextOrNull (kind : String → Prop) (v : Value) : Prop :=
  v = .null ∨ ∃ s, v = .text s ∧ kind s

namespace Store

variable {st st' : Store} {es : List (Value × Value)} {v : Value} {S : Nat → Prop}

/-- The value is a list of texts of a kind. -/
def ListsTexts (st : Store) (kind : String → Prop) (v : Value) : Prop :=
  ∃ texts : List String, st.cell? v = some (.list (texts.map .text)) ∧ ∀ s ∈ texts, kind s

/-- The value declares a property: it is the name of a type, or a mapping that may give one. -/
def DeclaresProperty (st : Store) (v : Value) : Prop :=
  (∃ type, v = .text type) ∨ ∃ es, st.entries? v = some es ∧
    (st.field es "type").IsTextOrNull fun _ => True

/-- The value declares properties by name, or none. -/
def DeclaresProperties (st : Store) (v : Value) : Prop :=
  v = .null ∨ ∃ es, st.entries? v = some es ∧
    ∀ entry ∈ es, (∃ name, entry.1 = .text name) ∧ st.DeclaresProperty entry.2

/-- The entries describe a resource. -/
structure DescribesResource (st : Store) (es : List (Value × Value)) : Prop where
  path : (st.field es "path").IsTextOrNull fun _ => True
  methods : st.field es "methods" = .null ∨ st.ListsTexts (fun _ => True) (st.field es "methods")
  response : st.DeclaresProperties (st.field es "response")
  modify : st.DeclaresProperties (st.field es "modify")

/-- The value declares a resource, which may be left empty. -/
def DeclaresResource (st : Store) (v : Value) : Prop :=
  v = .null ∨ ∃ es, st.entries? v = some es ∧ st.DescribesResource es

/-! ## What keeps the shape -/

section

variable (hagree : Agree S st st')

include hagree

theorem DeclaresProperty.of_agree (h : st.DeclaresProperty v) (hv : v.In S) :
    st'.DeclaresProperty v := by
  rcases h with htype | ⟨es, hes, htype⟩
  · exact Or.inl htype
  · refine Or.inr ⟨es, (hagree.entries? hv).trans hes, ?_⟩
    rwa [field_text st st']

theorem ListsTexts.of_agree {kind : String → Prop} (h : st.ListsTexts kind v) (hv : v.In S) :
    st'.ListsTexts kind v := by
  obtain ⟨texts, hcell, hkind⟩ := h
  refine ⟨texts, ?_, hkind⟩
  cases v with
  | scalar s => cases hcell
  | ref id => exact (hagree.cells id hv).trans hcell

variable (hc : st.Closed S)

include hc

theorem DeclaresProperties.of_agree (h : st.DeclaresProperties v) (hv : v.In S) :
    st'.DeclaresProperties v := by
  rcases h with hnull | ⟨es, hes, hall⟩
  · exact Or.inl hnull
  · have hin := hc.entries_in hv hes
    exact Or.inr ⟨es, (hagree.entries? hv).trans hes, fun entry hentry =>
      ⟨(hall entry hentry).1, (hall entry hentry).2.of_agree hagree (hin entry hentry).2⟩⟩

theorem DescribesResource.of_agree (h : st.DescribesResource es) (hes : EntriesIn S es) :
    st'.DescribesResource es := by
  have hfield : ∀ name, st'.field es name = st.field es name := field_text st st' es
  constructor
  · rw [hfield]
    exact h.path
  · rw [hfield]
    exact h.methods.imp_right fun hlist => hlist.of_agree hagree (field_in hes _)
  · rw [hfield]
    exact h.response.of_agree hagree hc (field_in hes _)
  · rw [hfield]
    exact h.modify.of_agree hagree hc (field_in hes _)

/-- **A declaration keeps its shape** in every store that agrees on it. -/
theorem DeclaresResource.of_agree (h : st.DeclaresResource v) (hv : v.In S) :
    st'.DeclaresResource v := by
  rcases h with hnull | ⟨es, hes, hdescribes⟩
  · exact Or.inl hnull
  · exact Or.inr ⟨es, (hagree.entries? hv).trans hes,
      hdescribes.of_agree hagree hc (hc.entries_in hv hes)⟩

end

/-! ## Texts -/

/-- A list of texts has a tree that is one. -/
theorem treeTo_texts {texts : List String} (depth : Nat)
    (h : st.cell? v = some (.list (texts.map .text))) :
    st.treeTo (depth + 1) v = .list (texts.map .text) := by
  cases v with
  | scalar s => cases h
  | ref id =>
      rw [treeTo, show st.cells[id]? = _ from h]
      refine congrArg Tree.list ?_
      rw [List.map_map]
      exact List.map_congr_left fun s _ => treeTo_scalar st depth _

/-- The depth of a store is enough for its lists of texts. -/
theorem ListsTexts.exists_tree {kind : String → Prop} (h : st.ListsTexts kind v) :
    ∃ texts : List String, st.treeTo st.cells.size v = .list (texts.map .text) ∧
      ∀ s ∈ texts, kind s := by
  obtain ⟨texts, hcell, hkind⟩ := h
  obtain ⟨depth, hdepth⟩ : ∃ depth, st.cells.size = depth + 1 := by
    refine Nat.exists_eq_add_one.mpr ?_
    cases v with
    | scalar s => cases hcell
    | ref id => exact Nat.zero_lt_of_lt (Array.getElem?_eq_some_iff.mp hcell).1
  rw [hdepth]
  exact ⟨texts, treeTo_texts depth hcell, hkind⟩

/-- The tree at a text is the tree of what is found there. -/
theorem get?_trees (st : Store) (es : List (Value × Value)) (depth : Nat) (name : String) :
    Entries.get? (es.map fun (k, v) => (st.treeTo depth k, st.treeTo depth v)) name
      = (st.find? (.text name) es).map (st.treeTo depth) := by
  unfold Entries.get?
  induction es with
  | nil => rfl
  | cons entry rest ih =>
      rcases entry with ⟨k, v⟩
      rw [List.map_cons, Entries.find?, find?]
      by_cases hk : k = .text name
      · rw [hk, treeTo_scalar, if_pos (Tree.sameKey_text.mpr rfl), if_pos (sameKey_text.mpr rfl)]
        rfl
      · rw [if_neg fun h => hk (eq_text_of_treeTo (Tree.sameKey_text.mp h)),
          if_neg fun h => hk (sameKey_text.mp h)]
        exact ih

/-- The tree at a text, null without one, is the tree of the field. -/
theorem getD_get?_trees (st : Store) (es : List (Value × Value)) (depth : Nat) (name : String) :
    (Entries.get? (es.map fun (k, v) => (st.treeTo depth k, st.treeTo depth v)) name).getD .null
      = st.treeTo depth (st.field es name) := by
  rw [get?_trees, field]
  cases st.find? (.text name) es with
  | none => exact (treeTo_scalar st depth .null).symm
  | some v => rfl

theorem exists_display (st : Store) {kind : String → Prop} (h : v.IsTextOrNull kind) :
    ∃ s, (st.tree v).display = .ok s := by
  rcases h with rfl | ⟨s, rfl, _⟩
  · exact ⟨"None", rfl⟩
  · exact ⟨s, rfl⟩

end Store

/-! ## Names of resources -/

namespace Tree

mutual

/-- The integers in a value. -/
def integers : Tree → List Int
  | .scalar (.int n) => [n]
  | .scalar _ | .date _ | .dateTime _ => []
  | .list items | .tuple items | .set items => itemIntegers items
  | .map entries => entryIntegers entries

/-- The integers in the items of a list. -/
def itemIntegers : List Tree → List Int
  | [] => []
  | item :: rest => integers item ++ itemIntegers rest

/-- The integers in the entries of a mapping. -/
def entryIntegers : List (Tree × Tree) → List Int
  | [] => []
  | (key, value) :: rest => integers key ++ (integers value ++ entryIntegers rest)

end

end Tree

/-- An integer has a text exactly if it does not have too many digits. -/
theorem exists_decimalText_iff {n : Int} :
    (∃ text, decimalText n = .ok text) ↔ n.natAbs < 10 ^ Numeral.maxDigits := by
  rw [← Nat.length_toDigits_le_iff (by decide) (by decide)]
  unfold decimalText
  dsimp only
  split <;> simp <;> omega

namespace Tree

/-- The value has no integer of too many digits. -/
def Short (t : Tree) : Prop := ∀ n ∈ t.integers, n.natAbs < 10 ^ Numeral.maxDigits

mutual

theorem exists_literal : ∀ (t : Tree), t.Short → ∃ text, t.literal = .ok text
  | .scalar s, h => by
      cases s with
      | int n => exact exists_decimalText_iff.mpr (h n List.mem_cons_self)
      | null | bool b | float x | text s | bytes b => exact ⟨_, rfl⟩
  | .date d, _ => ⟨_, rfl⟩
  | .dateTime d, _ => ⟨_, rfl⟩
  | .list items, h | .tuple items, h | .set items, h => by
      obtain ⟨texts, htexts⟩ := exists_literals items h
      exact ⟨_, by rw [literal, htexts]; rfl⟩
  | .map entries, h => by
      obtain ⟨texts, htexts⟩ := exists_entryLiterals entries h
      exact ⟨_, by rw [literal, htexts]; rfl⟩

theorem exists_literals : ∀ (ts : List Tree),
    (∀ n ∈ itemIntegers ts, n.natAbs < 10 ^ Numeral.maxDigits) → ∃ texts, literals ts = .ok texts
  | [], _ => ⟨_, rfl⟩
  | t :: rest, h => by
      obtain ⟨ht, hrest⟩ := List.forall_mem_append.mp h
      obtain ⟨text, htext⟩ := exists_literal t ht
      obtain ⟨texts, htexts⟩ := exists_literals rest hrest
      exact ⟨_, by rw [literals, htext, htexts]; rfl⟩

theorem exists_entryLiterals : ∀ (es : List (Tree × Tree)),
    (∀ n ∈ entryIntegers es, n.natAbs < 10 ^ Numeral.maxDigits) →
      ∃ texts, entryLiterals es = .ok texts
  | [], _ => ⟨_, rfl⟩
  | (k, v) :: rest, h => by
      obtain ⟨hk, h⟩ := List.forall_mem_append.mp h
      obtain ⟨hv, hrest⟩ := List.forall_mem_append.mp h
      obtain ⟨key, hkey⟩ := exists_literal k hk
      obtain ⟨value, hvalue⟩ := exists_literal v hv
      obtain ⟨texts, htexts⟩ := exists_entryLiterals rest hrest
      exact ⟨_, by rw [entryLiterals, hkey, hvalue, htexts]; rfl⟩

end

/-- A value without an integer of too many digits has a text. -/
theorem exists_display {t : Tree} (h : t.Short) : ∃ text, t.display = .ok text := by
  cases t with
  | scalar s =>
      cases s with
      | text s => exact ⟨s, rfl⟩
      | null | bool b | int n | float x | bytes b => exact exists_literal _ h
  | date d => exact ⟨_, rfl⟩
  | dateTime d => exact ⟨_, rfl⟩
  | list items | tuple items | set items | map entries => exact exists_literal _ h

end Tree

/-! ## Reading -/

variable {st : Store} {v : Value} {es : List (Value × Value)}

/-- A declared property is read. -/
theorem Property.exists_ofValue (h : st.DeclaresProperty v) :
    ∃ property, Property.ofValue st v = .ok property := by
  unfold Property.ofValue
  rcases h with ⟨type, rfl⟩ | ⟨es, hes, htype⟩
  · exact ⟨_, rfl⟩
  · obtain ⟨type, htext⟩ := st.exists_display htype
    rw [hes]
    dsimp only
    rw [htext]
    split <;> exact ⟨_, rfl⟩

/-- Declared properties are read. -/
theorem exists_declaredProperties (h : st.DeclaresProperties v) :
    ∃ properties, declaredProperties st v = .ok properties := by
  rcases h with rfl | ⟨es, hes, hall⟩
  · exact ⟨[], rfl⟩
  · refine (exists_declaredProperties_iff hes).mpr ?_
    rintro ⟨_, decl⟩ hentry
    obtain ⟨⟨name, rfl⟩, hdecl⟩ := hall _ hentry
    obtain ⟨property, hproperty⟩ := Property.exists_ofValue hdecl
    exact ⟨_, readProperty_iff.mpr ⟨name, property, rfl, hproperty, rfl⟩⟩

namespace Resource

/-- A resource whose methods are keys and whose parts declare properties. -/
structure IsReadable (st : Store) (r : Resource) : Prop where
  methods : Tree.areKeys r.methods = true
  response : st.DeclaresProperties r.response
  modify : st.DeclaresProperties r.modify

theorem areKeys_texts (texts : List String) : Tree.areKeys (texts.map .text) = true := by
  induction texts with
  | nil => rfl
  | cons s rest ih => exact ih

theorem exists_methodsOf (h : st.DescribesResource es) :
    ∃ methods, methodsOf st es = .ok methods ∧ Tree.areKeys methods = true := by
  unfold methodsOf
  rcases h.methods with hnull | ⟨texts, hcell, _⟩
  · rw [hnull]
    exact ⟨_, rfl, by decide⟩
  · refine ⟨texts.map .text, ?_, areKeys_texts texts⟩
    split
    · rename_i hnull
      rw [hnull] at hcell
      cases hcell
    · rw [Store.tree, Store.treeTo_texts _ hcell]
      rfl

theorem declaresProperties_partOf {name : String} (h : st.DeclaresProperties (st.field es name)) :
    st.DeclaresProperties (partOf st es name) := by
  unfold partOf
  split
  · exact h
  · exact Or.inl rfl

theorem exists_ofEntries (name : String) (h : st.DescribesResource es) :
    ∃ r, ofEntries st name es = .ok r ∧ r.IsReadable st := by
  have hpath : ∃ path, pathOf st es = .ok path := by
    have hfield := h.path
    unfold pathOf
    unfold Store.field at hfield
    cases hfound : st.find? (.text "path") es with
    | none => exact ⟨"", rfl⟩
    | some v =>
        rw [hfound] at hfield
        exact st.exists_display hfield
  obtain ⟨path, hpath⟩ := hpath
  obtain ⟨methods, hmethods, hkeys⟩ := exists_methodsOf h
  refine ⟨_, by rw [ofEntries, hpath, hmethods]; rfl, hkeys, ?_, ?_⟩
  · exact declaresProperties_partOf h.response
  · exact declaresProperties_partOf h.modify

/-- **A declared resource is read**, and its parts declare properties. -/
theorem exists_ofModel (name : String) (h : st.DeclaresResource v) :
    ∃ r, ofModel st name v = .ok r ∧ r.IsReadable st := by
  have hempty : st.DescribesResource [] :=
    ⟨Or.inl rfl, Or.inl rfl, Or.inl rfl, Or.inl rfl⟩
  unfold ofModel
  rcases h with rfl | ⟨es, hes, hdescribes⟩
  · exact exists_ofEntries name hempty
  · split
    · rw [ofValue, hes]
      exact exists_ofEntries name hdescribes
    · exact exists_ofEntries name hempty

end Resource
end ApiManifest
