import ApiManifest.Proofs.Assembly
import ApiManifest.Proofs.Insertion

/-!
# What a build reads

While a document is built, the examples and the descriptions of the manifest may be merged in place.
If the manifest shares nothing, this does not change what is read later: an example and a
description stand below positions of their own, which nothing else leads to. So every resource is
read as it was declared, whatever has been merged by then.
-/

namespace ApiManifest

namespace Store

/-- The only key that is the same as a text is that text. -/
theorem sameKey_text {st : Store} {name : String} {key : Value} :
    st.sameKey (.text name) key = true ↔ key = .text name := by
  cases key with
  | ref id => simp [sameKey]
  | scalar s =>
      cases s with
      | text t =>
          simp only [sameKey, Scalar.same, beq_iff_eq, Value.scalar.injEq, Scalar.text.injEq]
          exact eq_comm
      | _ => simp [sameKey, Scalar.same, Scalar.int?]

/-- A text key is found without looking at objects. -/
theorem find?_text (st st' : Store) (name : String) (es : List (Value × Value)) :
    st'.find? (.text name) es = st.find? (.text name) es := by
  induction es with
  | nil => rfl
  | cons entry rest ih =>
      unfold find?
      rw [sameKey_scalar st' st, ih]

theorem field_text (st st' : Store) (es : List (Value × Value)) (name : String) :
    st'.field es name = st.field es name := by
  unfold field
  rw [find?_text st st']

theorem find?_put_self (st st' : Store) (name : String) (v : Value) (es : List (Value × Value)) :
    st.find? (.text name) (st'.put (.text name) v es) = some v := by
  induction es with
  | nil => rw [put, find?, if_pos (sameKey_text.mpr rfl)]
  | cons entry rest ih =>
      rcases entry with ⟨k, u⟩
      rw [put]
      by_cases hk : k = .text name
      · rw [if_pos (sameKey_text.mpr hk), find?, if_pos (sameKey_text.mpr hk)]
      · rw [if_neg fun h => hk (sameKey_text.mp h), find?, if_neg fun h => hk (sameKey_text.mp h)]
        exact ih

theorem find?_put_of_ne (st st' : Store) {name other : String} (h : other ≠ name) (v : Value)
    (es : List (Value × Value)) :
    st.find? (.text other) (st'.put (.text name) v es) = st.find? (.text other) es := by
  have hne : ¬ st.sameKey (.text other) (.text name) := by
    intro hsame
    cases sameKey_text.mp hsame
    exact h rfl
  induction es with
  | nil => exact if_neg hne
  | cons entry rest ih =>
      rcases entry with ⟨k, u⟩
      rw [put]
      by_cases hk : k = .text name
      · rw [if_pos (sameKey_text.mpr hk), find?, find?, hk, if_neg hne, if_neg hne]
      · rw [if_neg fun hsame => hk (sameKey_text.mp hsame), find?, find?, ih]

variable {st : Store} {v part : Value} {es : List (Value × Value)} {name : String}

/-- What is found at a text stands at the value of an entry with that key. -/
theorem at?_of_find? (hes : st.entries? v = some es)
    (h : st.find? (.text name) es = some part) :
    ∃ n, st.at? v [.key n] = some (.text name) ∧ st.at? v [.value n] = some part := by
  obtain ⟨key, hmem, hkey⟩ := find?_mem h
  obtain ⟨n, hn⟩ := List.mem_iff_getElem?.mp hmem
  refine ⟨n, ?_, ?_⟩
  · rw [at?_key hes, hn, ← sameKey_text.mp hkey]
    rfl
  · rw [at?_value hes, hn]
    rfl

theorem at?_of_field (hes : st.entries? v = some es) (name : String) :
    st.field es name = .null ∨
      ∃ n, st.at? v [.key n] = some (.text name) ∧
        st.at? v [.value n] = some (st.field es name) := by
  unfold field
  cases h : st.find? (.text name) es with
  | none => exact Or.inl rfl
  | some part => exact Or.inr (at?_of_find? hes h)

theorem tree_of_entries? (h : st.entries? v = some es) : st.tree v
    = .map (es.map fun (k, x) => (st.treeTo st.cells.size k, st.treeTo st.cells.size x)) := by
  cases v with
  | scalar s => cases h
  | ref id => rw [tree, treeTo, entries?_ref.mp h]

end Store

/-- The values of a mapping stand in it. -/
theorem Generator.at?_of_lookup {st : Store} {examples : Value} {key : String} {id : Nat}
    (h : lookup st examples (.text key) = .ref id) :
    ∃ n, st.at? examples [.value n] = some (.ref id) := by
  unfold lookup at h
  cases hes : st.entries? examples with
  | none =>
      rw [hes] at h
      cases h
  | some es =>
      rw [hes, Option.getD_some] at h
      cases hfind : st.find? (.text key) es with
      | none =>
          rw [hfind] at h
          cases h
      | some part =>
          rw [hfind] at h
          cases h
          obtain ⟨n, _, hat⟩ := Store.at?_of_find? hes hfind
          exact ⟨n, hat⟩

/-! ## Where examples and descriptions stand -/

/-- The positions, below declared resources, of the fields of this name of the properties. -/
def PropertySlot (st : Store) (models : Value) (name : String) (p : Position) : Prop :=
  ∃ i j k l part, p = [.value i, .value j, .value k, .value l] ∧
    (part = "response" ∨ part = "modify") ∧
    st.at? models [.value i, .key j] = some (.text part) ∧
    st.at? models [.value i, .value j, .value k, .key l] = some (.text name)

theorem PropertySlot.length {st : Store} {models : Value} {name : String} {p : Position}
    (h : PropertySlot st models name p) : p.length = 4 := by
  obtain ⟨_, _, _, _, _, rfl, _⟩ := h
  rfl

/-- The positions of examples and descriptions. -/
def MergedSlot (st : Store) (models : Value) (p : Position) : Prop :=
  PropertySlot st models "example" p ∨ PropertySlot st models "description" p

theorem MergedSlot.cases {st : Store} {models : Value} {p : Position}
    (h : MergedSlot st models p) : ∃ i j k l part name,
      p = [.value i, .value j, .value k, .value l] ∧ (part = "response" ∨ part = "modify") ∧
      (name = "example" ∨ name = "description") ∧
      st.at? models [.value i, .key j] = some (.text part) ∧
      st.at? models [.value i, .value j, .value k, .key l] = some (.text name) := by
  rcases h with ⟨i, j, k, l, part, hp, hpart, hj, hl⟩ | ⟨i, j, k, l, part, hp, hpart, hj, hl⟩
  · exact ⟨i, j, k, l, part, _, hp, hpart, Or.inl rfl, hj, hl⟩
  · exact ⟨i, j, k, l, part, _, hp, hpart, Or.inr rfl, hj, hl⟩

theorem MergedSlot.length {st : Store} {models : Value} {p : Position}
    (h : MergedSlot st models p) : p.length = 4 :=
  h.elim PropertySlot.length PropertySlot.length

/-- No example and no description stands higher up. -/
theorem MergedSlot.not_prefix {st : Store} {models : Value} {p q : Position}
    (h : MergedSlot st models q) (hp : p.length < 4) : ¬ q <+: p := by
  intro hle
  have hlength := hle.length_le
  rw [h.length] at hlength
  omega

/-! ## Declarations -/

/-- The positions of the declared resources. -/
def ModelsSlot (st : Store) (manifest : Value) (p : Position) : Prop :=
  ∃ m, p = [.value m] ∧ st.at? manifest [.key m] = some (.text "models")

/-- The value holds the declared resources of a manifest, or is null. -/
def IsModels (st : Store) (manifest models : Value) : Prop :=
  models = .null ∨ ∃ p, ModelsSlot st manifest p ∧ st.at? manifest p = some models

theorem IsModels.unshared {st : Store} {manifest models : Value}
    (h : IsModels st manifest models) (hu : st.Unshared manifest) : st.Unshared models := by
  rcases h with rfl | ⟨p, _, hat⟩
  · exact (Store.fresh_scalar 0 st .null).unshared
  · exact hu.of_at? hat

theorem IsModels.reaches {st : Store} {manifest models : Value}
    (h : IsModels st manifest models) {id : Nat} (hr : st.Reaches models id) :
    st.Reaches manifest id := by
  rcases h with rfl | ⟨p, _, hat⟩
  · obtain ⟨q, hq⟩ := hr
    cases q <;> cases hq
  · exact .of_at? hat hr

/-- The declared resources are the entries of a mapping, or there are none because the value in its
place is empty. -/
theorem declarations_iff {st : Store} {manifest : Value} {declared : List (Value × Value)} :
    Document.declarations st manifest = .ok declared ↔
      ∃ es, st.entries? manifest = some es ∧
        ((st.holds (st.field es "models") = false ∧ declared = []) ∨
          (st.holds (st.field es "models") = true ∧
            st.entries? (st.field es "models") = some declared)) := by
  unfold Document.declarations Document.models
  cases hes : st.entries? manifest with
  | none => simp [bind, Except.bind]
  | some es =>
      simp only [Option.some.injEq, exists_eq_left']
      generalize st.field es "models" = models
      cases hholds : st.holds models with
      | false =>
          show Except.ok [] = Except.ok declared ↔ _
          simp [eq_comm]
      | true =>
          have hnull : models ≠ .null := by
            rintro rfl
            cases hholds
          rw [or_iff_right (by simp), and_iff_right rfl, if_pos rfl]
          dsimp only [bind, Except.bind]
          split
          · exact absurd rfl hnull
          · cases st.entries? models <;>
              simp [pure, Except.pure, throw, throwThe, MonadExceptOf.throw]

/-- A mapping at the models declares its entries, even when it has none. -/
theorem Document.declarations_of_models {st : Store} {manifest : Value}
    {es models : List (Value × Value)} (hes : st.entries? manifest = some es)
    (hmodels : st.entries? (st.field es "models") = some models) :
    declarations st manifest = .ok models := by
  refine declarations_iff.mpr ⟨es, hes, ?_⟩
  rw [Store.holds_of_entries? hmodels]
  cases models with
  | nil => exact Or.inl ⟨rfl, rfl⟩
  | cons entry rest => exact Or.inr ⟨rfl, hmodels⟩

/-- The declared resources stand in one value of the manifest. They are the same in every store in
which that value and the manifest itself have the same entries. -/
theorem declared_at {st : Store} {manifest : Value} {declared : List (Value × Value)}
    (h : Document.declarations st manifest = .ok declared) :
    ∃ models, IsModels st manifest models ∧
      (∀ model ∈ declared, ∃ i, st.at? models [.key i] = some model.1 ∧
        st.at? models [.value i] = some model.2) ∧
      ∀ st', st'.entries? manifest = st.entries? manifest →
        st'.entries? models = st.entries? models → st'.holds models = st.holds models →
        Document.declarations st' manifest = .ok declared := by
  obtain ⟨es, hes, hdeclared⟩ := declarations_iff.mp h
  refine ⟨st.field es "models", ?_, fun model hmodel => ?_, fun st' hmanifest hmodels hholds => ?_⟩
  · rcases Store.at?_of_field hes "models" with hnull | ⟨m, hm, hat⟩
    · exact Or.inl hnull
    · exact Or.inr ⟨_, ⟨m, rfl, hm⟩, hat⟩
  · rcases hdeclared with ⟨_, rfl⟩ | ⟨_, hentries⟩
    · cases hmodel
    · obtain ⟨i, hi⟩ := List.mem_iff_getElem?.mp hmodel
      exact ⟨i, by rw [Store.at?_key hentries, hi]; rfl, by rw [Store.at?_value hentries, hi]; rfl⟩
  · refine declarations_iff.mpr ⟨es, hmanifest.trans hes, ?_⟩
    rwa [Store.field_text st st', hholds, hmodels]

/-! ## Reading resources -/

/-- Entries with the same fields describe the same resource in stores where what they hold is the
same. -/
theorem Resource.ofEntries_congr {st st' : Store} {name : String} {es es' : List (Value × Value)}
    (hfind : st'.find? (.text "path") es' = st.find? (.text "path") es)
    (hfield : ∀ name, st'.field es' name = st.field es name)
    (hpath : ∀ v, st.find? (.text "path") es = some v → st'.tree v = st.tree v)
    (hmethods : st'.tree (st.field es "methods") = st.tree (st.field es "methods"))
    (hholds : ∀ name ∈ ["readOnly", "response", "modify"],
      st'.holds (st.field es name) = st.holds (st.field es name)) :
    ofEntries st' name es' = ofEntries st name es := by
  -- each field that is read comes to the same
  have hpathOf : pathOf st' es' = pathOf st es := by
    unfold pathOf
    rw [hfind]
    cases hfound : st.find? (.text "path") es with
    | none => rfl
    | some v => exact congrArg Tree.display (hpath v hfound)
  have hmethodsOf : methodsOf st' es' = methodsOf st es := by
    unfold methodsOf
    rw [hfield]
    split
    · rfl
    · exact congrArg itemsOf hmethods
  have hpartOf : ∀ part ∈ ["readOnly", "response", "modify"],
      partOf st' es' part = partOf st es part := by
    intro part hpart
    unfold partOf
    rw [hfield, hholds part hpart]
  unfold ofEntries
  rw [hpathOf, hmethodsOf, hpartOf "response" (by simp), hpartOf "modify" (by simp), hfield,
    hholds "readOnly" (by simp)]

section

variable {st st' : Store} {models : Value} (hu : st.Unshared models)
  (hk : Store.Keeps models (MergedSlot st models) st st')

include hu hk

theorem entries?_kept {p : Position} {v : Value} (hat : st.at? models p = some v)
    (hp : p.length < 4) : st'.entries? v = st.entries? v :=
  hk.entries? hu hat fun _ hq => hq.not_prefix hp

theorem holds_kept {p : Position} {v : Value} (hat : st.at? models p = some v)
    (hp : p.length < 4) : st'.holds v = st.holds v :=
  hk.holds hu hat fun _ hq => hq.not_prefix hp

/-- What has no examples and no descriptions below it has the same tree. -/
theorem tree_kept {p : Position} {v : Value} (hat : st.at? models p = some v)
    (hp : p.length < 4) (hq : ∀ q, MergedSlot st models q → ¬ p <+: q) :
    st'.tree v = st.tree v :=
  hk.tree hu hat fun q hslot => ⟨hslot.not_prefix hp, hq q hslot⟩

/-- No property is declared in a field of another name. -/
theorem tree_field_kept {i : Nat} {decl : Value} (hat : st.at? models [.value i] = some decl)
    {j : Nat} {name : String} {v : Value} (hkey : st.at? decl [.key j] = some (.text name))
    (hv : st.at? decl [.value j] = some v) (hname : name ≠ "response" ∧ name ≠ "modify") :
    st'.tree v = st.tree v := by
  refine tree_kept hu hk (p := [.value i, .value j])
    ((Store.at?_append_of hat [.value j]).trans hv) (by simp) fun q hq hprefix => ?_
  obtain ⟨i', j', k', l', part, _, rfl, hpart, _, hj, _⟩ := hq.cases
  obtain ⟨rest, hrest⟩ := hprefix
  simp only [List.cons_append, List.nil_append, List.cons.injEq, Step.value.injEq] at hrest
  obtain ⟨rfl, rfl, _⟩ := hrest
  have hkey' : st.at? models [.value i, .key j] = some (.text name) :=
    (Store.at?_append_of hat [.key j]).trans hkey
  rw [hkey'] at hj
  cases hj
  rcases hpart with h | h
  · exact hname.1 h
  · exact hname.2 h

/-- **A declared resource is read as it was declared.** -/
theorem resourceOf_kept {i : Nat} {name decl : Value} (hname : st.at? models [.key i] = some name)
    (hdecl : st.at? models [.value i] = some decl) :
    Document.resourceOf st' name decl = Document.resourceOf st name decl := by
  have htree : st'.tree name = st.tree name := by
    refine tree_kept hu hk hname (by simp) fun q hq hprefix => ?_
    obtain ⟨_, _, _, _, _, _, rfl, _⟩ := hq.cases
    obtain ⟨rest, hrest⟩ := hprefix
    cases hrest
  -- an empty declaration is read as if it had no entries
  have hempty : ∀ text, Resource.ofEntries st' text [] = Resource.ofEntries st text [] := by
    intro text
    exact Resource.ofEntries_congr rfl (fun _ => rfl) (by simp [Store.find?])
      (by simp [Store.field, Store.find?, Store.tree, Store.treeTo]) (fun _ _ => rfl)
  have hvalue : ∀ text, Resource.ofValue st' text decl = Resource.ofValue st text decl := by
    intro text
    unfold Resource.ofValue
    rw [entries?_kept hu hk hdecl (by simp)]
    cases hes : st.entries? decl with
    | none => rfl
    | some es =>
        refine Resource.ofEntries_congr (Store.find?_text st st' _ es) (Store.field_text st st' es)
          ?_ ?_ ?_
        · intro v hfind
          obtain ⟨j, hkey, hv⟩ := Store.at?_of_find? hes hfind
          exact tree_field_kept hu hk hdecl hkey hv (by decide)
        · rcases Store.at?_of_field hes "methods" with hnull | ⟨j, hkey, hv⟩
          · rw [hnull]
            simp [Store.tree, Store.treeTo]
          · exact tree_field_kept hu hk hdecl hkey hv (by decide)
        · intro field _
          rcases Store.at?_of_field hes field with hnull | ⟨j, _, hv⟩
          · rw [hnull]
            rfl
          · exact holds_kept hu hk (p := [.value i, .value j])
              ((Store.at?_append_of hdecl [.value j]).trans hv) (by simp)
  unfold Document.resourceOf Resource.ofModel
  simp only [htree, holds_kept hu hk hdecl (by simp), hvalue, hempty]

/-! ## Reading properties -/

/-- The other fields of a property are no examples and no descriptions. -/
theorem property_field_kept {i j k l : Nat} {name : String} {v : Value}
    (hkey : st.at? models [.value i, .value j, .value k, .key l] = some (.text name))
    (hv : st.at? models [.value i, .value j, .value k, .value l] = some v)
    (hname : name ≠ "example" ∧ name ≠ "description") :
    st'.holds v = st.holds v ∧ st'.tree v = st.tree v := by
  have hother : ¬ MergedSlot st models [.value i, .value j, .value k, .value l] := by
    intro h
    obtain ⟨_, _, _, _, _, name', heq, _, hslot, _, hl⟩ := h.cases
    cases heq
    rw [hkey] at hl
    cases hl
    rcases hslot with h | h
    · exact hname.1 h
    · exact hname.2 h
  have hsame : ∀ q, MergedSlot st models q →
      ¬ q <+: [.value i, .value j, .value k, .value l] ∧
        ¬ [.value i, .value j, .value k, .value l] <+: q := by
    -- all of these positions are equally long, so that a prefix would be the whole
    intro q hq
    constructor
    · intro hle
      have heq := hle.eq_of_length hq.length
      exact hother (heq ▸ hq)
    · intro hle
      have heq := hle.eq_of_length hq.length.symm
      exact hother (heq ▸ hq)
  exact ⟨hk.holds hu hv fun q hq => (hsame q hq).1, hk.tree hu hv hsame⟩

theorem property_kept {i j k : Nat} {decl : Value}
    (hat : st.at? models [.value i, .value j, .value k] = some decl) :
    Property.ofValue st' decl = Property.ofValue st decl := by
  unfold Property.ofValue
  rw [entries?_kept hu hk hat (by simp)]
  cases hes : st.entries? decl with
  | none =>
      -- the declaration is the type itself, so it has no fields that could be merged
      dsimp only
      rw [tree_kept hu hk hat (by simp) fun q hq hprefix => ?_]
      obtain ⟨i', j', k', l, _, _, rfl, _, _, _, hl⟩ := hq.cases
      obtain ⟨rest, hrest⟩ := hprefix
      simp only [List.cons_append, List.nil_append, List.cons.injEq, Step.value.injEq] at hrest
      obtain ⟨rfl, rfl, rfl, _⟩ := hrest
      rw [show [Step.value i, .value j, .value k, .key l]
        = [.value i, .value j, .value k] ++ [.key l] from rfl, Store.at?_append_of hat] at hl
      have hmap := Store.entries?_of_at?_key hl
      rw [hes] at hmap
      cases hmap
  | some fs =>
      have hfield : ∀ name v, name ≠ "example" ∧ name ≠ "description" →
          st.find? (.text name) fs = some v →
          st'.holds v = st.holds v ∧ st'.tree v = st.tree v := by
        intro name v hname hfind
        obtain ⟨l, hkey, hv⟩ := Store.at?_of_find? hes hfind
        exact property_field_kept hu hk ((Store.at?_append_of hat [.key l]).trans hkey)
          ((Store.at?_append_of hat [.value l]).trans hv) hname
      have htype : st'.holds (st.field fs "type") = st.holds (st.field fs "type") ∧
          st'.tree (st.field fs "type") = st.tree (st.field fs "type") := by
        unfold Store.field
        cases hfind : st.find? (.text "type") fs with
        | none => exact ⟨rfl, by simp [Store.tree, Store.treeTo]⟩
        | some v => exact hfield "type" v (by decide) hfind
      have hrequired : (st.find? (.text "required") fs).map st'.holds
          = (st.find? (.text "required") fs).map st.holds := by
        cases hfind : st.find? (.text "required") fs with
        | none => rfl
        | some v => exact congrArg some (hfield "required" v (by decide) hfind).1
      dsimp only
      simp only [Store.find?_text st st', Store.field_text st st', htype.1, htype.2, hrequired]

/-- **Declared properties are read as they were declared.** -/
theorem declaredProperties_kept {i j : Nat} {v : Value}
    (hat : st.at? models [.value i, .value j] = some v) :
    declaredProperties st' v = declaredProperties st v := by
  refine declaredProperties_congr (holds_kept hu hk hat (by simp))
    (entries?_kept hu hk hat (by simp)) ?_
  rintro es hes ⟨key, decl⟩ hentry
  obtain ⟨k, hk'⟩ := List.mem_iff_getElem?.mp hentry
  have hkey : st.at? models [.value i, .value j, .key k] = some key := by
    refine (Store.at?_append_of hat [.key k]).trans ?_
    rw [Store.at?_key hes, hk']
    rfl
  have hdecl : st.at? models [.value i, .value j, .value k] = some decl := by
    refine (Store.at?_append_of hat [.value k]).trans ?_
    rw [Store.at?_value hes, hk']
    rfl
  refine ⟨tree_kept hu hk hkey (by simp) fun q hq hprefix => ?_, property_kept hu hk hdecl⟩
  obtain ⟨_, _, _, _, _, _, rfl, _⟩ := hq.cases
  obtain ⟨rest, hrest⟩ := hprefix
  simp at hrest

end

/-! ## What is merged -/

/-- Nothing, or what stands in a field of this name of a property. -/
def StandsAt (st : Store) (models : Value) (name : String) (v : Value) : Prop :=
  v = .null ∨ ∃ p, PropertySlot st models name p ∧ st.at? models p = some v

theorem StandsAt.in {st : Store} {models : Value} {name : String} {v : Value}
    (h : StandsAt st models name v) : v.In (st.Under models (PropertySlot st models name)) := by
  rcases h with rfl | ⟨p, hslot, hat⟩
  · trivial
  · exact Store.in_under hslot hat

/-- Examples stand where examples are declared, and descriptions where descriptions are. -/
structure Property.Stands (st : Store) (models : Value) (property : Property) : Prop where
  example? : StandsAt st models "example" property.example?
  description : StandsAt st models "description" property.description

section

variable {st : Store} {models : Value}

/-- A declaration that is a mapping gives the description and the example of its fields, and any
other one gives neither. -/
theorem Property.ofValue_cases {decl : Value} {property : Property}
    (h : Property.ofValue st decl = .ok property) :
    (property.description = .null ∧ property.example? = .null) ∨
      ∃ fs, st.entries? decl = some fs ∧ property.description = st.field fs "description" ∧
        property.example? = st.field fs "example" := by
  unfold Property.ofValue at h
  cases hes : st.entries? decl with
  | none =>
      rw [hes] at h
      obtain ⟨type, _, h⟩ := result_bind_iff.mp h
      cases h
      exact Or.inl ⟨rfl, rfl⟩
  | some fs =>
      rw [hes] at h
      dsimp only at h
      split at h
      · obtain ⟨type, _, h⟩ := result_bind_iff.mp h
        cases h
        exact Or.inr ⟨fs, rfl, rfl, rfl⟩
      · cases h
        exact Or.inr ⟨fs, rfl, rfl, rfl⟩

theorem stands_ofValue {i j k : Nat} {part : String} {decl : Value} {property : Property}
    (hat : st.at? models [.value i, .value j, .value k] = some decl)
    (hpart : part = "response" ∨ part = "modify")
    (hkey : st.at? models [.value i, .key j] = some (.text part))
    (h : Property.ofValue st decl = .ok property) : property.Stands st models := by
  have hfield : ∀ fs, st.entries? decl = some fs → ∀ name,
      StandsAt st models name (st.field fs name) := by
    intro fs hes name
    rcases Store.at?_of_field hes name with hnull | ⟨l, hl, hv⟩
    · exact Or.inl hnull
    · exact Or.inr ⟨_, ⟨i, j, k, l, part, rfl, hpart, hkey,
        (Store.at?_append_of hat [.key l]).trans hl⟩, (Store.at?_append_of hat [.value l]).trans hv⟩
  rcases Property.ofValue_cases h with ⟨hdescription, hexample⟩ | ⟨fs, hes, hdescription, hexample⟩
  · exact ⟨Or.inl hexample, Or.inl hdescription⟩
  · constructor
    · rw [hexample]
      exact hfield fs hes "example"
    · rw [hdescription]
      exact hfield fs hes "description"

theorem stands_named {property : Property} (h : property.Stands st models) (name : String) :
    (property.named name).2.Stands st models := by
  unfold Property.named
  split
  · exact ⟨h.example?, h.description⟩
  · exact h

theorem stands_declaredProperties {i j : Nat} {part : String} {v : Value}
    {properties : Fields Property} (hat : st.at? models [.value i, .value j] = some v)
    (hpart : part = "response" ∨ part = "modify")
    (hkey : st.at? models [.value i, .key j] = some (.text part))
    (h : declaredProperties st v = .ok properties) :
    ∀ entry ∈ properties, entry.2.Stands st models := by
  refine forall_declaredProperties (P := fun property => property.Stands st models)
    (fun _ name h => stands_named h name) ?_ h
  rintro es hes ⟨key, decl⟩ hentry property hproperty
  obtain ⟨k, hk⟩ := List.mem_iff_getElem?.mp hentry
  have hdecl : st.at? models [.value i, .value j, .value k] = some decl := by
    refine (Store.at?_append_of hat [.value k]).trans ?_
    rw [Store.at?_value hes, hk]
    rfl
  exact stands_ofValue hdecl hpart hkey hproperty

/-- A part of a resource is null, or stands in its declaration under the name of the part. -/
def PartAt (st : Store) (models : Value) (i : Nat) (part : String) (v : Value) : Prop :=
  v = .null ∨ ∃ j, st.at? models [.value i, .key j] = some (.text part) ∧
    st.at? models [.value i, .value j] = some v

/-- The parts of a resource are those that its entries have. -/
theorem parts_of_entries {name : String} {es : List (Value × Value)} {r : Resource}
    (h : Resource.ofEntries st name es = .ok r) :
    r.response = Resource.partOf st es "response" ∧ r.modify = Resource.partOf st es "modify" := by
  unfold Resource.ofEntries at h
  cases hpath : Resource.pathOf st es with
  | error e => rw [hpath] at h; cases h
  | ok path =>
      rw [hpath] at h
      cases hmethods : Resource.methodsOf st es with
      | error e => rw [hmethods] at h; cases h
      | ok methods =>
          rw [hmethods] at h
          cases h
          exact ⟨rfl, rfl⟩

theorem partAt_partOf {i : Nat} {decl : Value} {es : List (Value × Value)}
    (hdecl : st.at? models [.value i] = some decl) (hes : st.entries? decl = some es)
    (part : String) : PartAt st models i part (Resource.partOf st es part) := by
  unfold Resource.partOf
  split
  · rcases Store.at?_of_field hes part with hnull | ⟨j, hj, hv⟩
    · exact Or.inl hnull
    · exact Or.inr ⟨j, (Store.at?_append_of hdecl [.key j]).trans hj,
        (Store.at?_append_of hdecl [.value j]).trans hv⟩
  · exact Or.inl rfl

theorem parts_of_resource {i : Nat} {name decl : Value} {r : Resource}
    (hdecl : st.at? models [.value i] = some decl)
    (h : Document.resourceOf st name decl = .ok r) :
    PartAt st models i "response" r.response ∧ PartAt st models i "modify" r.modify := by
  unfold Document.resourceOf at h
  cases hname : (st.tree name).display with
  | error e => rw [hname] at h; cases h
  | ok text =>
      rw [hname] at h
      replace h : Resource.ofModel st text decl = .ok r := h
      unfold Resource.ofModel Resource.ofValue at h
      split at h
      · cases hes : st.entries? decl with
        | none => rw [hes] at h; cases h
        | some es =>
            rw [hes] at h
            obtain ⟨hresponse, hmodify⟩ := parts_of_entries h
            rw [hresponse, hmodify]
            exact ⟨partAt_partOf hdecl hes "response", partAt_partOf hdecl hes "modify"⟩
      · obtain ⟨hresponse, hmodify⟩ := parts_of_entries h
        rw [hresponse, hmodify]
        exact ⟨Or.inl rfl, Or.inl rfl⟩

end

/-- **What a resource declares is read as it was declared**, and its examples and descriptions
stand where they are merged. -/
theorem PartAt.properties {st st' : Store} {models : Value} (hu : st.Unshared models)
    (hk : Store.Keeps models (MergedSlot st models) st st') {i : Nat} {part : String} {v : Value}
    (hpart : part = "response" ∨ part = "modify") (h : PartAt st models i part v) :
    declaredProperties st' v = declaredProperties st v ∧
      ∀ properties, declaredProperties st v = .ok properties →
        ∀ entry ∈ properties, entry.2.Stands st models := by
  rcases h with rfl | ⟨j, hkey, hat⟩
  · refine ⟨rfl, ?_⟩
    intro properties hproperties
    cases hproperties
    intro entry hentry
    cases hentry
  · exact ⟨declaredProperties_kept hu hk hat,
      fun _ hproperties => stands_declaredProperties hat hpart hkey hproperties⟩

end ApiManifest
