import ApiManifest.Proofs.InPlace
import ApiManifest.Proofs.Reading

/-!
# What a second build reads

A build merges the examples and the descriptions that it shows. Nothing else of a manifest that
shares nothing is changed: its baseline, its declarations, its resources and their properties are
read by the next build as by the first one. A description is shown if it is not empty, and a merge
empties nothing, so that the same descriptions are shown, too.
-/

namespace ApiManifest

/-- The positions of what is shown: all examples, and the descriptions that are not empty. -/
def ShownSlot (st : Store) (models : Value) (p : Position) : Prop :=
  PropertySlot st models "example" p ∨
    (PropertySlot st models "description" p ∧ ∃ v, st.at? models p = some v ∧ st.holds v = true)

theorem ShownSlot.merged {st : Store} {models : Value} {p : Position}
    (h : ShownSlot st models p) : MergedSlot st models p := h.imp_right And.left

/-- The objects that a build may change: those of what is shown, and some others. -/
def shownRegion (st : Store) (models : Value) (own : Nat → Prop) (id : Nat) : Prop :=
  st.Under models (ShownSlot st models) id ∨ ∃ root, own root ∧ st.Reaches (.ref root) id

namespace Store

theorem Under.mono {st : Store} {v : Value} {slots slots' : Position → Prop}
    (h : ∀ p, slots p → slots' p) {id : Nat} (hid : st.Under v slots id) :
    st.Under v slots' id := by
  obtain ⟨p, q, hslot, hat⟩ := hid
  exact ⟨p, q, h p hslot, hat⟩

theorem Keeps.mono {v : Value} {slots slots' : Position → Prop} {st st' : Store}
    (hk : Keeps v slots st st') (h : ∀ p, slots p → slots' p) : Keeps v slots' st st' :=
  ⟨hk.size, fun id hid hunder => hk.cells id hid fun hu => hunder (hu.mono h)⟩

/-- Merging empties nothing. -/
theorem Writes.holds {S : Nat → Prop} {st st' : Store} (h : Writes S st st') {v : Value}
    (hv : st.holds v = true) : st'.holds v = true := by
  cases v with
  | scalar s => exact hv
  | ref id =>
      by_cases hm : st.isMapping id = true
      · obtain ⟨es, hes⟩ := Option.isSome_iff_exists.mp hm
        obtain ⟨es', hes', hkeys⟩ := h.keys id es hes
        rw [entries?_ref] at hes hes'
        unfold Store.holds at hv ⊢
        dsimp only at hv ⊢
        rw [cell?_ref, hes] at hv
        rw [cell?_ref, hes']
        cases es with
        | nil => cases hv
        | cons entry rest =>
            cases es' with
            | nil => exact absurd hkeys.length_le (by simp)
            | cons entry' rest' => rfl
      · rw [Bool.not_eq_true] at hm
        unfold Store.holds at hv ⊢
        dsimp only at hv ⊢
        rw [cell?_ref] at hv ⊢
        rw [h.others id hm]
        exact hv

end Store

section

variable {st st' : Store} {manifest models : Value} {own : Nat → Prop}

theorem closed_shownRegion : st.Closed (shownRegion st models own) :=
  (Store.closed_under st models _).or (Store.closed_owned st own)

variable (hmodels : IsModels st manifest models)
  (hown : ∀ root id, own root → st.Reaches (.ref root) id → ¬ st.Reaches manifest id)
  (hw : Store.Writes (shownRegion st models own) st st')

include hmodels hown hw

/-- Of the declared resources, a build keeps all but what it shows. -/
theorem keeps_models : Store.Keeps models (ShownSlot st models) st st' := by
  refine ⟨hw.size, fun id hreach hunder => hw.frame id ?_⟩
  rintro (h | ⟨root, hroot, hr⟩)
  · exact hunder h
  · rcases hmodels with rfl | ⟨p, _, hat⟩
    · obtain ⟨q, hq⟩ := hreach
      cases q <;> cases hq
    · exact hown root id hroot hr (.of_at? hat hreach)

/-- Of a manifest, a build keeps all but what is in its declared resources. -/
theorem keeps_manifest : Store.Keeps manifest (ModelsSlot st manifest) st st' := by
  refine ⟨hw.size, fun id hreach hunder => hw.frame id ?_⟩
  rintro (⟨p, q, _, hpq⟩ | ⟨root, hroot, hr⟩)
  · -- what stands in the declared resources stands below their position in the manifest
    rcases hmodels with rfl | ⟨slot, hslot, hat⟩
    · rcases p with _ | ⟨step, p⟩
      · rcases q with _ | ⟨step, q⟩ <;> cases hpq
      · cases hpq
    · exact hunder ⟨slot, p ++ q, hslot, (Store.at?_append_of hat _).trans hpq⟩
  · exact hown root id hroot hr hreach

end

/-! ## Baselines -/

/-- The fields that say something about the interface as a whole. -/
def Metadata.fields : List String :=
  ["title", "description", "version", "baseUri", "schemes", "formats"]

theorem Metadata.ne_models {name : String} (h : name ∈ fields) : name ≠ "models" := by
  rintro rfl
  revert h
  decide

/-- Whatever has the same fields of this kind says the same about the interface. -/
theorem metadata_congr {es es' : Entries} (h : ∀ name ∈ Metadata.fields,
      (Entries.get? es' name).getD .null = (Entries.get? es name).getD .null) :
    Metadata.ofManifest (.map es') = Metadata.ofManifest (.map es) := by
  unfold Metadata.ofManifest
  simp only [h "schemes" (by decide), h "baseUri" (by decide), h "title" (by decide),
    h "description" (by decide), h "version" (by decide), h "formats" (by decide)]

/-- The tree of a value is a text only if the value is. -/
theorem Store.eq_text_of_treeTo {st : Store} {depth : Nat} {v : Value} {name : String}
    (h : st.treeTo depth v = .text name) : v = .text name := by
  cases v with
  | scalar s =>
      cases depth <;>
        · rw [Store.treeTo] at h
          rw [Tree.scalar.inj h]
  | ref id =>
      cases depth with
      | zero => cases h
      | succ depth =>
          rw [Store.treeTo] at h
          split at h <;> cases h

/-- A field of the tree of a mapping is the tree of its field. -/
theorem getD_trees (st : Store) (depth : Nat) (es : List (Value × Value)) (name : String) :
    (Entries.get? (es.map fun (k, v) => (st.treeTo depth k, st.treeTo depth v)) name).getD .null
      = st.treeTo depth (st.field es name) := by
  unfold Entries.get? Store.field
  induction es with
  | nil => exact (Store.treeTo_scalar st depth .null).symm
  | cons entry rest ih =>
      rcases entry with ⟨key, v⟩
      rw [List.map_cons, Entries.find?, Store.find?]
      by_cases hkey : st.sameKey (.text name) key = true
      · rw [if_pos hkey, Store.sameKey_text.mp hkey, if_pos]
        · rfl
        · rw [Tree.sameKey_text, Store.treeTo_scalar]
      · rw [if_neg hkey, if_neg]
        · exact ih
        · intro hsame
          exact hkey (Store.sameKey_text.mpr (Store.eq_text_of_treeTo (Tree.sameKey_text.mp hsame)))

section

variable {st st' : Store} {manifest : Value} (hu : st.Unshared manifest)
  (hk : Store.Keeps manifest (ModelsSlot st manifest) st st')

include hu hk

/-- **The baseline of a manifest does not depend on its resources.** -/
theorem baseline_kept :
    Baseline.ofManifest (st'.tree manifest) = Baseline.ofManifest (st.tree manifest) := by
  cases manifest with
  | scalar s => rfl
  | ref id =>
      have hcell : st'.cells[id]? = st.cells[id]? := by
        refine hk.cell? (p := []) hu rfl ?_
        rintro q ⟨m, rfl, _⟩ hle
        cases hle.length_le
      unfold Baseline.ofManifest Store.tree
      rw [hk.size, Store.treeTo, Store.treeTo, hcell]
      cases hes : st.cells[id]? with
      | none => rfl
      | some cell =>
          cases cell with
          | map es =>
              have hentries := Store.entries?_ref.mpr hes
              dsimp only
              -- only what stands at `models` may have changed, and no metadata are read from there
              rw [metadata_congr]
              intro name hname
              rw [getD_trees, getD_trees, Store.field_text st st']
              rcases Store.at?_of_field hentries name with hnull | ⟨n, hkey, hat⟩
              · rw [hnull, Store.treeTo_scalar, Store.treeTo_scalar]
              · refine hk.treeTo (p := [.value n]) hu hat ?_ _
                rintro q ⟨m, rfl, hm⟩
                have hne : m ≠ n := by
                  rintro rfl
                  rw [hkey] at hm
                  exact Metadata.ne_models hname (by simpa using hm)
                constructor <;> intro hle <;> simp at hle
                · exact hne hle
                · exact hne hle.symm
          | _ => rfl

end

/-! ## Resources -/

/-- In every store that merging may leave, a property shows the same: its example and its
description are its author's, which may be merged if they are shown. -/
structure Property.Steady (S : Nat → Prop) (st : Store) (property : Property) : Prop where
  example? : property.example?.In S
  description : st.holds property.description = true → property.description.In S
  holds : ∀ st', Store.Writes S st st' →
    st'.holds property.description = st.holds property.description

/-- In every store that merging may leave, a value declares the same properties. -/
def SteadyPart (S : Nat → Prop) (st : Store) (declared : Value) : Prop :=
  ∀ st', Store.Writes S st st' →
    declaredProperties st' declared = declaredProperties st declared ∧
      ∀ properties, declaredProperties st declared = .ok properties →
        ∀ entry ∈ properties, entry.2.Steady S st

/-- In every store that merging may leave, a declared resource is read as it was declared. -/
def SteadyModel (S : Nat → Prop) (st : Store) (model : Value × Value) : Prop :=
  ∀ st', Store.Writes S st st' →
    Document.resourceOf st' model.1 model.2 = Document.resourceOf st model.1 model.2 ∧
      ∀ r, Document.resourceOf st model.1 model.2 = .ok r →
        SteadyPart S st r.response ∧ SteadyPart S st r.modify

section

variable {st : Store} {manifest models : Value} {own : Nat → Prop}
  (hu : st.Unshared manifest) (hmodels : IsModels st manifest models)
  (hown : ∀ root id, own root → st.Reaches (.ref root) id → ¬ st.Reaches manifest id)

include hu hmodels hown

theorem steady_of_stands {property : Property} (h : property.Stands st models) :
    property.Steady (shownRegion st models own) st := by
  refine ⟨h.example?.in.mono fun _ hid => ?_, fun hholds => ?_, fun st' hw => ?_⟩
  · exact Or.inl (hid.mono fun _ => Or.inl)
  · rcases h.description with hnull | ⟨p, hslot, hat⟩
    · rw [hnull]
      trivial
    · have hshown : ShownSlot st models p := Or.inr ⟨hslot, _, hat, hholds⟩
      exact (Store.in_under hshown hat).mono fun _ => Or.inl
  · by_cases hholds : st.holds property.description = true
    · rw [hholds, hw.holds hholds]
    · rcases h.description with hnull | ⟨p, hslot, hat⟩
      · rw [hnull]
        rfl
      · -- an empty description is not shown, so it is not below anything that is
        refine (keeps_models hmodels hown hw).holds (hmodels.unshared hu) hat fun q hq hle => ?_
        have hmerged : MergedSlot st models p := Or.inr hslot
        have heq : q = p := hle.eq_of_length (hq.merged.length.trans hmerged.length.symm)
        subst heq
        obtain ⟨i, j, k, l, _, rfl, _, _, hl⟩ := hslot
        rcases hq with ⟨_, _, _, _, _, heq, _, _, hl'⟩ | ⟨_, v, hv, hholds'⟩
        · cases heq
          rw [hl] at hl'
          exact absurd hl' (by decide)
        · rw [hat] at hv
          cases hv
          exact hholds hholds'

/-- **Every resource is read again as it was declared**, and shows the same. -/
theorem steady_model {i : Nat} {model : Value × Value}
    (hname : st.at? models [.key i] = some model.1)
    (hdecl : st.at? models [.value i] = some model.2) :
    SteadyModel (shownRegion st models own) st model := by
  have hunshared := hmodels.unshared hu
  have hkeeps : ∀ st', Store.Writes (shownRegion st models own) st st' →
      Store.Keeps models (MergedSlot st models) st st' :=
    fun st' hw => (keeps_models hmodels hown hw).mono fun _ => ShownSlot.merged
  intro st' hw
  refine ⟨resourceOf_kept hunshared (hkeeps st' hw) hname hdecl, fun r hr => ?_⟩
  obtain ⟨hresponse, hmodify⟩ := parts_of_resource hdecl hr
  have hpart : ∀ part v, part = "response" ∨ part = "modify" → PartAt st models i part v →
      SteadyPart (shownRegion st models own) st v := by
    intro part v hpart hv st'' hw'
    obtain ⟨hsame, hstands⟩ := hv.properties hunshared (hkeeps st'' hw') hpart
    exact ⟨hsame, fun properties hproperties entry hentry =>
      steady_of_stands hu hmodels hown (hstands properties hproperties entry hentry)⟩
  exact ⟨hpart "response" _ (Or.inl rfl) hresponse, hpart "modify" _ (Or.inr rfl) hmodify⟩

end

/-- **A second build reads what the first one read**: the baseline, the declarations and each
resource. -/
theorem reads_again {st : Store} {manifest : Value} {own : Nat → Prop}
    {declared : List (Value × Value)} (hdeclared : Document.declarations st manifest = .ok declared)
    (hu : st.Unshared manifest)
    (hown : ∀ root id, own root → st.Reaches (.ref root) id → ¬ st.Reaches manifest id) :
    ∃ S, st.Closed S ∧ (∀ id, S id → st.Reaches manifest id ∨
        ∃ root, own root ∧ st.Reaches (.ref root) id) ∧
      (∀ root, own root → S root) ∧
      (∀ model ∈ declared, SteadyModel S st model) ∧
      ∀ st', Store.Writes S st st' → Document.declarations st' manifest = .ok declared ∧
        Baseline.ofManifest (st'.tree manifest) = Baseline.ofManifest (st.tree manifest) := by
  obtain ⟨models, hmodels, hat, hsame⟩ := declared_at hdeclared
  refine ⟨shownRegion st models own, closed_shownRegion, ?_, ?_, ?_, ?_⟩
  · rintro id (h | h)
    · exact Or.inl (hmodels.reaches (Store.reaches_of_under h))
    · exact Or.inr h
  · intro root hroot
    exact Or.inr ⟨root, hroot, [], rfl⟩
  · intro model hmodel
    obtain ⟨i, hname, hdecl⟩ := hat model hmodel
    exact steady_model hu hmodels hown hname hdecl
  -- what is written below is at places that neither the manifest's fields nor its models lead to
  · intro st' hw
    have hkm := keeps_models hmodels hown hw
    have hk := keeps_manifest hmodels hown hw
    have htop : ∀ q, ShownSlot st models q → ¬ q <+: [] :=
      fun q hq => hq.merged.not_prefix (by decide)
    have hmanifest : ∀ q, ModelsSlot st manifest q → ¬ q <+: [] := by
      rintro q ⟨m, rfl, _⟩ hle
      cases hle.length_le
    exact ⟨hsame st' (hk.entries? hu rfl hmanifest)
      (hkm.entries? (hmodels.unshared hu) rfl htop) (hkm.holds (hmodels.unshared hu) rfl htop),
      baseline_kept hu hk⟩

end ApiManifest
