import ApiManifest.Proofs.Rereading
import ApiManifest.Proofs.Trimming

/-!
# Reading trimmed manifests

A manifest is read in three steps, each of which takes some fields of a mapping and goes on with the
entries of another one: the manifest itself, the declaration of a resource, the declaration of a
property. These mappings may be trimmed, and what is read stays the same. What is read from them is
taken as it is, with all that it refers to, and the mappings that declarations are listed in have
names for keys; neither is trimmed. Two fields are told from null when they are not there, the path
of a resource and the mark that a property is required, so that these are not trimmed either.
-/

namespace ApiManifest

variable {places : Nat → String → Bool} {st st' : Store}

/-! ## Fields and lists of declarations -/

namespace Store

/-- The values of some fields of a mapping. -/
def fieldsOf (st : Store) (v : Value) (names : List String) : List Value :=
  match st.entries? v with
  | some es => names.map (st.field es)
  | none => []

/-- What a mapping declares, under its names. -/
def listed (st : Store) (v : Value) : List (Value × Value) := (st.entries? v).getD []

theorem mem_fieldsOf {v : Value} {es : List (Value × Value)} {names : List String} {name : String}
    (hes : st.entries? v = some es) (hname : name ∈ names) :
    st.field es name ∈ st.fieldsOf v names := by
  rw [fieldsOf, hes]
  exact List.mem_map_of_mem hname

section

variable {W : Nat → Prop} (hc : st.Closed W)

include hc

theorem fieldsOf_in {v : Value} (hv : v.In W) (names : List String) :
    ∀ x ∈ st.fieldsOf v names, x.In W := by
  intro x hx
  unfold fieldsOf at hx
  cases hes : st.entries? v with
  | none => rw [hes] at hx; cases hx
  | some es =>
      rw [hes] at hx
      obtain ⟨name, _, rfl⟩ := List.mem_map.mp hx
      exact field_in (hc.entries_in hv hes) name

theorem listed_in {v : Value} (hv : v.In W) : EntriesIn W (st.listed v) := by
  intro entry hentry
  unfold listed at hentry
  cases hes : st.entries? v with
  | none => rw [hes] at hentry; cases hentry
  | some es =>
      rw [hes] at hentry
      exact hc.entries_in hv hes entry hentry

end

section

variable {W : Nat → Prop} {v : Value} (hw : Writes W st st') (hv : ¬ v.In W)

include hw hv

theorem entries?_frame : st'.entries? v = st.entries? v := by
  cases v with
  | scalar s => rfl
  | ref id =>
      unfold entries?
      rw [cell?_ref, cell?_ref, hw.frame id hv]

theorem fieldsOf_frame (names : List String) : st'.fieldsOf v names = st.fieldsOf v names := by
  unfold fieldsOf
  rw [entries?_frame hw hv]
  cases st.entries? v with
  | none => rfl
  | some es => exact List.map_congr_left fun name _ => field_text st st' es name

theorem listed_frame : st'.listed v = st.listed v := by
  unfold listed
  rw [entries?_frame hw hv]

end

end Store

/-! ## What is taken as it is -/

/-- What the declaration of a property is read from: some of its fields, or all of its short
form. -/
def Property.wholes (st : Store) (decl : Value) : List Value :=
  if (st.entries? decl).isSome then st.fieldsOf decl ["type", "required", "description", "example"]
  else [decl]

/-- The names of some properties, and what their declarations are read from. -/
def Property.allWholes (st : Store) (declared : Value) : List Value :=
  (st.listed declared).flatMap fun (name, decl) => name :: Property.wholes st decl

/-- The mappings that the properties of a resource are declared in. -/
def Resource.listings (st : Store) (decl : Value) : List Value :=
  st.fieldsOf decl ["response", "modify"]

/-- What the declaration of a resource is read from. -/
def Resource.wholes (st : Store) (decl : Value) : List Value :=
  st.fieldsOf decl ["path", "methods", "readOnly"]
    ++ (Resource.listings st decl).flatMap (Property.allWholes st)

namespace Property

variable {W : Nat → Prop} {decl declared : Value}

theorem wholes_in (hc : st.Closed W) (hdecl : decl.In W) : ∀ x ∈ wholes st decl, x.In W := by
  intro x hx
  unfold wholes at hx
  split at hx
  · exact Store.fieldsOf_in hc hdecl _ x hx
  · rwa [List.mem_singleton.mp hx]

theorem wholes_later (hw : Store.Writes W st st') (h : ∀ x ∈ wholes st decl, x.In W) :
    ∀ x ∈ wholes st' decl, x.In W := by
  by_cases hdecl : decl.In W
  · exact wholes_in hw.closed hdecl
  · unfold wholes
    rw [Store.entries?_frame hw hdecl, Store.fieldsOf_frame hw hdecl]
    exact h

theorem mem_allWholes {x : Value} : x ∈ allWholes st declared ↔
    ∃ entry ∈ st.listed declared, x = entry.1 ∨ x ∈ wholes st entry.2 := by
  simp only [allWholes, List.mem_flatMap, List.mem_cons]

theorem allWholes_in (hc : st.Closed W) (hdeclared : declared.In W) :
    ∀ x ∈ allWholes st declared, x.In W := by
  intro x hx
  obtain ⟨entry, hentry, rfl | hx⟩ := mem_allWholes.mp hx
  · exact (Store.listed_in hc hdeclared entry hentry).1
  · exact wholes_in hc (Store.listed_in hc hdeclared entry hentry).2 x hx

theorem allWholes_later (hw : Store.Writes W st st') (h : ∀ x ∈ allWholes st declared, x.In W) :
    ∀ x ∈ allWholes st' declared, x.In W := by
  by_cases hdeclared : declared.In W
  · exact allWholes_in hw.closed hdeclared
  · intro x hx
    obtain ⟨entry, hentry, hx⟩ := mem_allWholes.mp hx
    rw [Store.listed_frame hw hdeclared] at hentry
    rcases hx with rfl | hx
    · exact h _ (mem_allWholes.mpr ⟨entry, hentry, Or.inl rfl⟩)
    · exact wholes_later hw (fun y hy => h y (mem_allWholes.mpr ⟨entry, hentry, Or.inr hy⟩)) x hx

theorem fields_in {es : List (Value × Value)} (hes : st.entries? decl = some es)
    (h : ∀ x ∈ wholes st decl, x.In W) : ∀ name ∈ ["type", "required", "description", "example"],
      (st.field es name).In W := by
  intro name hname
  refine h _ ?_
  rw [wholes, hes, Option.isSome_some, if_pos rfl]
  exact Store.mem_fieldsOf hes hname

/-- **The declaration of a property is read as if it had not been trimmed.** -/
theorem ofValue_trimmed (hc : st.Closed W) (hoff : ∀ id, W id → Untrimmed places id)
    (hkept : ∀ id, places id "required" = false) (h : ∀ x ∈ wholes st decl, x.In W) :
    ofValue (st.trimmed places) decl = ofValue st decl := by
  have hagree : Store.Agree W st (st.trimmed places) := Store.agree_trimmed hoff
  unfold ofValue
  rw [Store.entries?_trimmed]
  cases hes : st.entries? decl with
  | none =>
      have hdecl : decl ∈ wholes st decl := by
        rw [wholes, hes]
        exact List.mem_singleton_self decl
      dsimp only [Option.map_none]
      rw [hagree.tree hc (h decl hdecl)]
  | some es =>
      have hfields := fields_in hes h
      have hplaces : placesOf places decl "required" = false := by
        cases decl with
        | scalar s => rfl
        | ref id => exact hkept id
      -- what is required may not be trimmed, since null is not the same as nothing there
      have hrequired : (st.find? (.text "required") es).map (st.trimmed places).holds
          = (st.find? (.text "required") es).map st.holds := by
        have hin := hfields "required" (by simp)
        unfold Store.field at hin
        cases hfind : st.find? (.text "required") es with
        | none => rfl
        | some v =>
            rw [hfind] at hin
            exact congrArg some (hagree.holds hin)
      dsimp only [Option.map_some]
      simp only [Store.field_trimmed st, Store.find?_trimmed hplaces st, hrequired,
        hagree.holds (hfields "type" (by simp)), hagree.tree hc (hfields "type" (by simp))]

/-- What a property refers to is taken from its declaration. -/
theorem in_of_wholes {property : Property} (h : ∀ x ∈ wholes st decl, x.In W)
    (hp : ofValue st decl = .ok property) :
    property.description.In W ∧ property.example?.In W := by
  rcases ofValue_cases hp with ⟨hdescription, hexample⟩ | ⟨es, hes, hdescription, hexample⟩
  · rw [hdescription, hexample]
    exact ⟨trivial, trivial⟩
  · have hfields := fields_in hes h
    rw [hdescription, hexample]
    exact ⟨hfields "description" (by simp), hfields "example" (by simp)⟩

/-- The mapping of some properties has no places itself, and all that its declarations are read from
is in the region. -/
structure Sealed (W : Nat → Prop) (places : Nat → String → Bool) (st : Store) (declared : Value) :
    Prop where
  untrimmed : declared.In (Untrimmed places)
  wholes : ∀ x ∈ allWholes st declared, x.In W

/-- **The properties of a resource are read as if their declarations had not been trimmed.** -/
theorem declared_trimmed (hc : st.Closed W) (hoff : ∀ id, W id → Untrimmed places id)
    (hkept : ∀ id, places id "required" = false) (h : Sealed W places st declared) :
    declaredProperties (st.trimmed places) declared = declaredProperties st declared := by
  have hagree : Store.Agree (Untrimmed places) st (st.trimmed places) :=
    Store.agree_trimmed fun _ hid => hid
  refine declaredProperties_congr (hagree.holds h.untrimmed) (hagree.entries? h.untrimmed) ?_
  intro es hes entry hentry
  have hlisted : entry ∈ st.listed declared := by
    rwa [Store.listed, hes]
  have hkey := h.wholes _ (mem_allWholes.mpr ⟨entry, hlisted, Or.inl rfl⟩)
  exact ⟨(Store.agree_trimmed hoff).tree hc hkey, ofValue_trimmed hc hoff hkept fun x hx =>
    h.wholes x (mem_allWholes.mpr ⟨entry, hlisted, Or.inr hx⟩)⟩

/-- What properties refer to is taken from their declarations. -/
theorem Sealed.in (h : Sealed W places st declared) {properties : Fields Property}
    (hp : declaredProperties st declared = .ok properties) :
    ∀ entry ∈ properties, entry.2.description.In W ∧ entry.2.example?.In W := by
  refine forall_declaredProperties (P := fun property =>
    property.description.In W ∧ property.example?.In W) ?_ ?_ hp
  · intro property name hin
    unfold named
    split <;> exact hin
  · intro es hes entry hentry property hproperty
    have hlisted : entry ∈ st.listed declared := by
      rwa [Store.listed, hes]
    exact in_of_wholes (fun x hx =>
      h.wholes x (mem_allWholes.mpr ⟨entry, hlisted, Or.inr hx⟩)) hproperty

end Property

/-! ## Resources -/

namespace Resource

variable {W : Nat → Prop} {decl : Value}

/-- The mappings of the properties of a resource have no places, and all that its declaration is
read from is in the region. -/
structure Sealed (W : Nat → Prop) (places : Nat → String → Bool) (st : Store) (decl : Value) :
    Prop where
  untrimmed : ∀ v ∈ listings st decl, v.In (Untrimmed places)
  wholes : ∀ x ∈ wholes st decl, x.In W

theorem mem_wholes {x : Value} : x ∈ wholes st decl ↔
    x ∈ st.fieldsOf decl ["path", "methods", "readOnly"] ∨
      ∃ v ∈ listings st decl, x ∈ Property.allWholes st v := by
  rw [wholes, List.mem_append, List.mem_flatMap]

/-- Merging in the region keeps a declaration sealed. -/
theorem Sealed.later (hoff : ∀ id, W id → Untrimmed places id) (hw : Store.Writes W st st')
    (h : Sealed W places st decl) : Sealed W places st' decl := by
  by_cases hdecl : decl.In W
  · have hlistings := Store.fieldsOf_in hw.closed hdecl ["response", "modify"]
    refine ⟨fun v hv => (hlistings v hv).mono hoff, fun x hx => ?_⟩
    rcases mem_wholes.mp hx with hx | ⟨v, hv, hx⟩
    · exact Store.fieldsOf_in hw.closed hdecl _ x hx
    · exact Property.allWholes_in hw.closed (hlistings v hv) x hx
  · have hsame : listings st' decl = listings st decl := Store.fieldsOf_frame hw hdecl _
    refine ⟨fun v hv => h.untrimmed v (hsame ▸ hv), fun x hx => ?_⟩
    rcases mem_wholes.mp hx with hx | ⟨v, hv, hx⟩
    · rw [Store.fieldsOf_frame hw hdecl] at hx
      exact h.wholes x (mem_wholes.mpr (Or.inl hx))
    · rw [hsame] at hv
      exact Property.allWholes_later hw (fun y hy =>
        h.wholes y (mem_wholes.mpr (Or.inr ⟨v, hv, hy⟩))) x hx

/-- The entries of a mapping describe the resource, even when there are none. -/
theorem ofModel_of_entries {name : String} {es : List (Value × Value)}
    (hes : st.entries? decl = some es) : ofModel st name decl = ofEntries st name es := by
  unfold ofModel ofValue
  rw [Store.holds_of_entries? hes, hes]
  cases es <;> rfl

/-- **A resource is read as if its declaration had not been trimmed.** -/
theorem ofModel_trimmed (hc : st.Closed W) (hoff : ∀ id, W id → Untrimmed places id)
    (hkept : ∀ id, places id "path" = false) (h : Sealed W places st decl) (name : String) :
    ofModel (st.trimmed places) name decl = ofModel st name decl := by
  have hagree : Store.Agree W st (st.trimmed places) := Store.agree_trimmed hoff
  have hagree' : Store.Agree (Untrimmed places) st (st.trimmed places) :=
    Store.agree_trimmed fun _ hid => hid
  cases hes : st.entries? decl with
  | none =>
      have hes' : (st.trimmed places).entries? decl = none := by
        rw [Store.entries?_trimmed, hes]
        rfl
      unfold ofModel ofValue
      rw [Store.holds_trimmed hes, hes, hes']
      rfl
  | some es =>
      have hes' : (st.trimmed places).entries? decl = some (trimmed (placesOf places decl) es) := by
        rw [Store.entries?_trimmed, hes]
        rfl
      have hplaces : placesOf places decl "path" = false := by
        cases decl with
        | scalar s => rfl
        | ref id => exact hkept id
      have hfields : ∀ field ∈ ["path", "methods", "readOnly"], (st.field es field).In W :=
        fun field hfield => h.wholes _ (mem_wholes.mpr (Or.inl (Store.mem_fieldsOf hes hfield)))
      have hlistings : ∀ part ∈ ["response", "modify"],
          (st.field es part).In (Untrimmed places) :=
        fun part hpart => h.untrimmed _ (Store.mem_fieldsOf hes hpart)
      rw [ofModel_of_entries hes, ofModel_of_entries hes']
      -- the path may not be trimmed; the parts may be, but only their being there is looked at here
      refine ofEntries_congr (Store.find?_trimmed hplaces _ _ es) (Store.field_trimmed _ _ es)
        ?_ (hagree.tree hc (hfields "methods" (by simp))) ?_
      · intro v hfind
        have hin := hfields "path" (by simp)
        rw [Store.field, hfind] at hin
        exact hagree.tree hc hin
      · intro field hfield
        rcases List.mem_cons.mp hfield with rfl | hfield
        · exact hagree.holds (hfields "readOnly" (by simp))
        · exact hagree'.holds (hlistings field hfield)

/-- The properties of a resource are declared in its declaration, or there are none. -/
theorem Sealed.parts {name : String} {r : Resource} (h : Sealed W places st decl)
    (hr : ofModel st name decl = .ok r) :
    Property.Sealed W places st r.response ∧ Property.Sealed W places st r.modify := by
  have hnone : Property.Sealed W places st .null := ⟨trivial, nofun⟩
  cases hes : st.entries? decl with
  | none =>
      unfold ofModel ofValue at hr
      rw [hes] at hr
      split at hr
      · cases hr
      · obtain ⟨hresponse, hmodify⟩ := parts_of_entries hr
        rw [hresponse, hmodify]
        exact ⟨hnone, hnone⟩
  | some es =>
      rw [ofModel_of_entries hes] at hr
      have hpart : ∀ part ∈ ["response", "modify"],
          Property.Sealed W places st (partOf st es part) := by
        intro part hpart
        have hmem : st.field es part ∈ listings st decl := Store.mem_fieldsOf hes hpart
        unfold partOf
        split
        · exact ⟨h.untrimmed _ hmem, fun x hx => h.wholes x (mem_wholes.mpr (Or.inr ⟨_, hmem, hx⟩))⟩
        · exact hnone
      obtain ⟨hresponse, hmodify⟩ := parts_of_entries hr
      rw [hresponse, hmodify]
      exact ⟨hpart "response" (by simp), hpart "modify" (by simp)⟩

end Resource

/-! ## Manifests -/

namespace Document

variable {W : Nat → Prop} {manifest : Value} {declared : List (Value × Value)}

/-- The declarations of the resources of a manifest, under their names. -/
def modelsOf (st : Store) (manifest : Value) : List (Value × Value) :=
  (st.fieldsOf manifest ["models"]).flatMap st.listed

/-- What a manifest is read from. -/
def wholes (st : Store) (manifest : Value) : List Value :=
  st.fieldsOf manifest Metadata.fields
    ++ (modelsOf st manifest).flatMap fun (name, decl) => name :: Resource.wholes st decl

/-- The mappings that the resources of a manifest and their properties are declared in. -/
def listings (st : Store) (manifest : Value) : List Value :=
  st.fieldsOf manifest ["models"]
    ++ (modelsOf st manifest).flatMap fun (_, decl) => Resource.listings st decl

/-- The mappings that declarations are listed in have no places, and all that a manifest is read
from is in the region. -/
structure Sealed (W : Nat → Prop) (places : Nat → String → Bool) (st : Store) (manifest : Value) :
    Prop where
  untrimmed : ∀ v ∈ listings st manifest, v.In (Untrimmed places)
  wholes : ∀ x ∈ wholes st manifest, x.In W

theorem Sealed.models (h : Sealed W places st manifest)
    (hdeclared : declarations st manifest = .ok declared) :
    ∀ model ∈ declared, model.1.In W ∧ Resource.Sealed W places st model.2 := by
  intro model hmodel
  obtain ⟨es, hes, ⟨_, rfl⟩ | ⟨_, hentries⟩⟩ := declarations_iff.mp hdeclared
  · cases hmodel
  · have hlisted : model ∈ modelsOf st manifest := by
      refine List.mem_flatMap.mpr ⟨_, Store.mem_fieldsOf hes (List.mem_singleton_self _), ?_⟩
      rwa [Store.listed, hentries]
    have hwhole : ∀ x, x = model.1 ∨ x ∈ Resource.wholes st model.2 → x.In W := fun x hx =>
      h.wholes x (List.mem_append_right _ (List.mem_flatMap.mpr
        ⟨model, hlisted, List.mem_cons.mpr hx⟩))
    exact ⟨hwhole _ (Or.inl rfl), fun v hv => h.untrimmed v (List.mem_append_right _
      (List.mem_flatMap.mpr ⟨model, hlisted, hv⟩)), fun x hx => hwhole x (Or.inr hx)⟩

/-- **The resources of a manifest are declared as if it had not been trimmed.** -/
theorem declarations_trimmed (h : Sealed W places st manifest) :
    declarations (st.trimmed places) manifest = declarations st manifest := by
  have hagree : Store.Agree (Untrimmed places) st (st.trimmed places) :=
    Store.agree_trimmed fun _ hid => hid
  unfold declarations Document.models
  rw [Store.entries?_trimmed]
  cases hes : st.entries? manifest with
  | none => rfl
  | some es =>
      have hmodels : (st.field es "models").In (Untrimmed places) := h.untrimmed _
        (List.mem_append_left _ (Store.mem_fieldsOf hes (List.mem_singleton_self _)))
      dsimp only [Option.map_some]
      rw [Store.field_trimmed st, hagree.holds hmodels]
      by_cases hholds : st.holds (st.field es "models") = true
      · rw [if_pos hholds]
        have hentries := hagree.entries? hmodels
        generalize st.field es "models" = models at hentries
        dsimp only [bind, Except.bind]
        split
        · rfl
        · rw [hentries]
      · rw [if_neg hholds]
        rfl

/-- **A manifest says the same about the interface as a whole** as if it had not been trimmed. -/
theorem baseline_trimmed (hc : st.Closed W) (hoff : ∀ id, W id → Untrimmed places id)
    (h : Sealed W places st manifest) :
    Baseline.ofManifest ((st.trimmed places).tree manifest)
      = Baseline.ofManifest (st.tree manifest) := by
  have hagree : Store.Agree W st (st.trimmed places) := Store.agree_trimmed hoff
  cases hes : st.entries? manifest with
  | some es =>
      have hes' : (st.trimmed places).entries? manifest
          = some (trimmed (placesOf places manifest) es) := by
        rw [Store.entries?_trimmed, hes]
        rfl
      rw [Store.tree_of_entries? hes, Store.tree_of_entries? hes']
      unfold Baseline.ofManifest
      rw [metadata_congr]
      intro name hname
      rw [getD_trees, getD_trees, Store.field_trimmed st, Store.size_trimmed]
      exact hagree.treeTo hc _ (h.wholes _ (List.mem_append_left _ (Store.mem_fieldsOf hes hname)))
  | none =>
      -- what is no mapping says nothing
      cases manifest with
      | scalar s => rfl
      | ref id =>
          unfold Store.entries? at hes
          rw [Store.cell?_ref] at hes
          rw [Store.tree, Store.tree, Store.size_trimmed, Store.treeTo, Store.treeTo,
            Store.cells_trimmed]
          cases hcell : st.cells[id]? with
          | none => rfl
          | some cell =>
              cases cell with
              | map es =>
                  rw [hcell] at hes
                  cases hes
              | _ => rfl

end Document
end ApiManifest
