import ApiManifest.Property
import ApiManifest.Proofs.Lookup
import ApiManifest.Proofs.Region
import ApiManifest.Proofs.Returns

/-!
# Declared properties

The entries of a mapping declare properties. Each of them is read on its own, and only then are they
put together by their names. So the properties of a mapping are read wherever those of its entries
are, no name is there twice, and what holds of whatever an entry declares holds of all of them.
-/

namespace ApiManifest

variable {st st' : Store} {declared : Value} {es : List (Value × Value)}
  {properties : Fields Property}

/-- The property that an entry declares, by its name. -/
def readProperty (st : Store) (entry : Value × Value) : Except Error (String × Property) := do
  let text ← (st.tree entry.1).display
  return (← Property.ofValue st entry.2).named text

theorem readProperty_iff {entry : Value × Value} {found : String × Property} :
    readProperty st entry = .ok found ↔ ∃ text property, (st.tree entry.1).display = .ok text ∧
      Property.ofValue st entry.2 = .ok property ∧ property.named text = found := by
  constructor
  · intro h
    obtain ⟨text, htext, h⟩ := result_bind_iff.mp h
    obtain ⟨property, hproperty, h⟩ := result_bind_iff.mp h
    exact ⟨text, property, htext, hproperty, Except.ok.inj h⟩
  · rintro ⟨text, property, htext, hproperty, rfl⟩
    exact result_bind_iff.mpr ⟨text, htext, result_bind_iff.mpr ⟨property, hproperty, rfl⟩⟩

/-- Properties are read one after the other, and then put one after the other. -/
theorem declareAll_eq (st : Store) (properties : Fields Property) (es : List (Value × Value)) :
    declareAll st properties es = do
      return (← es.mapM (readProperty st)).foldl (fun ps entry => ps.put entry.1 entry.2)
        properties := by
  induction es generalizing properties with
  | nil => rfl
  | cons entry rest ih =>
      rw [declareAll, List.mapM_cons, readProperty]
      cases (st.tree entry.1).display with
      | error e => rfl
      | ok text =>
          cases Property.ofValue st entry.2 with
          | error e => rfl
          | ok property =>
              refine (ih _).trans ?_
              cases rest.mapM (readProperty st) <;> rfl

/-- **The properties of a mapping are those of its entries**, by their names. -/
theorem declaredProperties_eq (hes : st.entries? declared = some es) :
    declaredProperties st declared = do
      return Fields.collect (← es.mapM (readProperty st)) := by
  have hall : declareAll st [] es = do return Fields.collect (← es.mapM (readProperty st)) :=
    declareAll_eq st [] es
  rw [declaredProperties, Store.holds_of_entries? hes, hes, ← hall]
  cases es <;> rfl

/-- Only what is empty declares properties without being a mapping. -/
theorem eq_nil_of_declaredProperties (hes : st.entries? declared = none)
    (h : declaredProperties st declared = .ok properties) : properties = [] := by
  unfold declaredProperties at h
  rw [hes] at h
  split at h <;> cases h
  rfl

theorem exists_declaredProperties_iff (hes : st.entries? declared = some es) :
    (∃ properties, declaredProperties st declared = .ok properties) ↔
      ∀ entry ∈ es, ∃ found, readProperty st entry = .ok found := by
  rw [← exists_mapM_iff, declaredProperties_eq hes]
  constructor
  · rintro ⟨properties, h⟩
    obtain ⟨read, hread, -⟩ := result_bind_iff.mp h
    exact ⟨read, hread⟩
  · rintro ⟨read, hread⟩
    exact ⟨_, result_bind_iff.mpr ⟨read, hread, rfl⟩⟩

/-- A property is declared once, whatever its declarations look like. -/
theorem nodup_declaredProperties (h : declaredProperties st declared = .ok properties) :
    properties.names.Nodup := by
  cases hes : st.entries? declared with
  | none =>
      rw [eq_nil_of_declaredProperties hes h]
      exact List.nodup_nil
  | some es =>
      rw [declaredProperties_eq hes] at h
      obtain ⟨read, -, h⟩ := result_bind_iff.mp h
      cases h
      exact Fields.nodup_names_collect read

/-- What holds of properties as they are declared, whatever their names end in, holds of all
properties that are read. -/
theorem forall_declaredProperties {P : Property → Prop}
    (hnamed : ∀ property name, P property → P (property.named name).2)
    (hes : ∀ es, st.entries? declared = some es → ∀ entry ∈ es, ∀ property,
      Property.ofValue st entry.2 = .ok property → P property)
    (h : declaredProperties st declared = .ok properties) : ∀ entry ∈ properties, P entry.2 := by
  cases hentries : st.entries? declared with
  | none =>
      rw [eq_nil_of_declaredProperties hentries h]
      exact fun _ hentry => absurd hentry List.not_mem_nil
  | some es =>
      rw [declaredProperties_eq hentries] at h
      obtain ⟨read, hread, h⟩ := result_bind_iff.mp h
      cases h
      intro found hfound
      obtain ⟨entry, hentry, hfound⟩ := mem_of_mapM hread (Fields.mem_of_mem_collect hfound)
      obtain ⟨text, property, -, hproperty, rfl⟩ := readProperty_iff.mp hfound
      exact hnamed property text (hes es hentries entry hentry property hproperty)

/-- Declarations declare the same properties in stores where each of them does. -/
theorem declaredProperties_congr (hholds : st'.holds declared = st.holds declared)
    (hentries : st'.entries? declared = st.entries? declared)
    (hread : ∀ es, st.entries? declared = some es → ∀ entry ∈ es,
      st'.tree entry.1 = st.tree entry.1 ∧
        Property.ofValue st' entry.2 = Property.ofValue st entry.2) :
    declaredProperties st' declared = declaredProperties st declared := by
  cases hes : st.entries? declared with
  | none => rw [declaredProperties, declaredProperties, hholds, hentries, hes]
  | some es =>
      rw [declaredProperties_eq hes, declaredProperties_eq (hentries.trans hes)]
      refine congrArg (· >>= _) (mapM_congr fun entry hentry => ?_)
      obtain ⟨hkey, hdecl⟩ := hread es hes entry hentry
      rw [readProperty, readProperty, hkey, hdecl]

end ApiManifest
