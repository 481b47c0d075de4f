import ApiManifest.Proofs.Grafting
import ApiManifest.Proofs.Independence

/-!
# The objects that a document takes over

A document takes examples and descriptions of the manifest over as they are. If the manifest shares
nothing, the objects of the document and the declarations that are still to be read stand apart,
before each resource and after it: reading a declaration gives the document parts of it that stand
apart, and the rest of the declaration is never used again. So every merge in place is one of
objects that stand apart, and it returns.
-/

namespace ApiManifest

variable {σ : Type}

/-! ## Parts -/

namespace Node

mutual

/-- The objects that a part refers to, in order. -/
def objects : Node → List Nat
  | .leaf v => v.objects
  | .list items => itemObjects items
  | .map fields => fieldObjects fields

/-- The objects that the items of a list refer to. -/
def itemObjects : List Node → List Nat
  | [] => []
  | x :: rest => objects x ++ itemObjects rest

/-- The objects that fields refer to. -/
def fieldObjects : List (String × Node) → List Nat
  | [] => []
  | (_, x) :: rest => objects x ++ fieldObjects rest

end

theorem fieldObjects_append (fields more : List (String × Node)) :
    fieldObjects (fields ++ more) = fieldObjects fields ++ fieldObjects more := by
  induction fields with
  | nil => rfl
  | cons entry rest ih =>
      rw [List.cons_append, fieldObjects, fieldObjects, ih, List.append_assoc]

/-- Putting a part in the place of another one exchanges their objects. -/
theorem count_fieldObjects_put {name : String} {old : Node} {fields : Fields Node}
    (h : Fields.get? name fields = some old) (part : Node) (id : Nat) :
    (fieldObjects (Fields.put name part fields)).count id + old.objects.count id
      = (fieldObjects fields).count id + part.objects.count id := by
  induction fields with
  | nil => cases h
  | cons entry rest ih =>
      rcases entry with ⟨n, x⟩
      rw [Fields.get?] at h
      rw [Fields.put]
      split at h
      · rename_i heq
        cases h
        rw [if_pos heq, fieldObjects, fieldObjects, List.count_append, List.count_append]
        omega
      · rename_i hne
        have hrest := ih h
        rw [if_neg hne, fieldObjects, fieldObjects, List.count_append, List.count_append]
        omega

theorem fieldObjects_put_of_new {name : String} {fields : Fields Node}
    (h : Fields.get? name fields = none) (part : Node) :
    fieldObjects (Fields.put name part fields) = fieldObjects fields ++ part.objects := by
  induction fields with
  | nil => simp [Fields.put, fieldObjects]
  | cons entry rest ih =>
      rcases entry with ⟨n, x⟩
      rw [Fields.get?] at h
      rw [Fields.put]
      split at h
      · cases h
      · rename_i hne
        rw [if_neg hne, fieldObjects, fieldObjects, ih h, List.append_assoc]

mutual

/-- A part without objects refers to none. -/
theorem Plain.objects_eq : ∀ {part : Node}, part.Plain → part.objects = []
  | .leaf (.scalar _), _ => rfl
  | .leaf (.ref _), h => h.elim
  | .list _, h => Plain.itemObjects_eq h
  | .map _, h => PlainFields.fieldObjects_eq h

theorem Plain.itemObjects_eq : ∀ {items : List Node},
    AllItems isScalar (fun _ _ => True) items → itemObjects items = []
  | [], _ => rfl
  | _ :: _, h => by rw [itemObjects, Plain.objects_eq h.1, Plain.itemObjects_eq h.2]; rfl

theorem PlainFields.fieldObjects_eq : ∀ {fields : List (String × Node)},
    PlainFields fields → fieldObjects fields = []
  | [], _ => rfl
  | (_, _) :: _, h => by
      rw [fieldObjects, Plain.objects_eq h.1.2, PlainFields.fieldObjects_eq h.2]; rfl

end

/-! ## Merging parts -/

/-- What a merge does with the objects of the source: it gives up those that are merged into others,
and keeps the rest with the target. -/
structure Settles (pairs : List (Nat × Nat)) (target source merged kept : List Nat) : Prop where
  source : (pairs.map Prod.snd ++ kept).Perm source
  targets : ∀ pair ∈ pairs, pair.1 ∈ target ++ kept
  merged : merged.Subperm (target ++ kept)

mutual

theorem exists_settles (maps : Nat → Bool) : ∀ (target source : Node), ∃ kept,
    Settles (meetings maps target source) target.objects source.objects
      (overlay maps target source).objects kept
  | target, source => match target, source, pairing target source with
    | _, _, .mappings fields source => by
        rw [meetings, overlay]
        exact exists_settles_fields maps fields source
    | _, _, .objects old new => by
        rw [meetings, overlay]
        split
        · exact ⟨[], .refl _, by simp [objects], by simp [objects]⟩
        · exact ⟨[new], .refl _, by simp, (List.sublist_append_right _ _).subperm⟩
    | _, source, .replaced hneither => by
        rw [meetings_of_not_blends hneither, overlay_of_not_blends hneither]
        exact ⟨source.objects, .refl _, by simp, (List.sublist_append_right _ _).subperm⟩

theorem exists_settles_fields (maps : Nat → Bool) :
    ∀ (target : Fields Node) (source : List (String × Node)), ∃ kept,
      Settles (meetingsFields maps target source) (fieldObjects target) (fieldObjects source)
        (fieldObjects (overlayFields maps target source)) kept
  | target, [] => by
      rw [meetingsFields, overlayFields]
      exact ⟨[], .refl _, by simp, by rw [List.append_nil]⟩
  | target, (name, part) :: rest => by
      rw [meetingsFields, overlayFields, fieldObjects]
      cases hget : Fields.get? name target with
      | none =>
          dsimp only
          obtain ⟨kept, hs, ht, hm⟩ := exists_settles_fields maps (Fields.put name part target) rest
          rw [fieldObjects_put_of_new hget] at ht hm
          refine ⟨part.objects ++ kept, ?_, ?_, ?_⟩
          · refine .trans ?_ (hs.append_left _)
            rw [List.perm_iff_count]
            intro id
            simp only [List.count_append]
            omega
          · simpa only [List.append_assoc] using ht
          · simpa only [List.append_assoc] using hm
      | some existing =>
          dsimp only
          obtain ⟨kept, hs, ht, hm⟩ := exists_settles maps existing part
          obtain ⟨kept', hs', ht', hm'⟩ := exists_settles_fields maps
            (Fields.put name (overlay maps existing part) target) rest
          have hput := count_fieldObjects_put hget (overlay maps existing part)
          -- what the first merge leaves in the place of the old part was there or is kept
          have hsub : (fieldObjects (Fields.put name (overlay maps existing part) target)
              ++ kept').Subperm (fieldObjects target ++ (kept ++ kept')) := by
            rw [List.subperm_iff_count] at hm ⊢
            intro id
            have h₁ := hm id
            have h₂ := hput id
            simp only [List.count_append] at h₁ ⊢
            omega
          refine ⟨kept ++ kept', ?_, fun pair hpair => ?_, hm'.trans hsub⟩
          · refine .trans ?_ (hs.append hs')
            rw [List.perm_iff_count]
            intro id
            simp only [List.map_append, List.count_append]
            omega
          · rcases List.mem_append.mp hpair with hpair | hpair
            · rcases List.mem_append.mp (ht pair hpair) with h | h
              · refine List.mem_append_left _ (List.count_pos_iff.mp ?_)
                have hpos := List.count_pos_iff.mpr h
                have h₂ := count_fieldObjects_put hget (.leaf (.scalar .null)) pair.1
                simp only [objects, Value.objects_scalar, List.count_nil] at h₂
                omega
              · exact List.mem_append_right _ (List.mem_append_left _ h)
            · exact hsub.subset (ht' pair hpair)

end

/-- **Merging fields returns** if their objects stand apart. The objects of what comes of it stand
apart from whatever all of them stood apart from, which is left as it is. -/
theorem mergeFields_returns {st : Store} {target source : Fields Node} {more : List Nat}
    (h : st.Separate (fieldObjects target ++ (fieldObjects source ++ more))) :
    ∃ st', Returns (mergeFields target source) st (overlayFields st.isMapping target source) st' ∧
      st'.Separate (fieldObjects (overlayFields st.isMapping target source) ++ more) ∧
      Store.Agree (st.Reached more) st st' := by
  obtain ⟨kept, hsource, htargets, hmerged⟩ := exists_settles_fields st.isMapping target source
  have hsep : st.Separate ((fieldObjects target ++ kept) ++
      ((meetingsFields st.isMapping target source).map Prod.snd ++ more)) := by
    refine h.perm ?_
    rw [List.perm_iff_count]
    intro id
    have hcount := hsource.count_eq id
    simp only [List.count_append] at hcount ⊢
    omega
  obtain ⟨st', hreturns, hsep', hagree⟩ := Store.mergeAll_returns hsep htargets
    (isMapping_of_meetingsFields target source)
  exact ⟨st', (mergeFields_iff target source).mpr ⟨rfl, hreturns⟩,
    hsep'.subperm ((List.subperm_append_right more).mpr hmerged), hagree⟩

end Node

/-! ## Declarations -/

variable {st : Store} {ids : List Nat} {es : List (Value × Value)}

/-- A mapping that is given up leaves its parts, which stand apart as it did. -/
theorem Store.Separate.entries {v : Value} (h : st.Separate (v.objects ++ ids))
    (hes : st.entries? v = some es) : st.Separate ((Cell.map es).objects ++ ids) := by
  cases v with
  | scalar s => cases hes
  | ref id => exact ((Store.separate_cons_iff (Store.entries?_ref.mp hes)).mp h).1

theorem Store.objects_field_cons (st : Store) (k v : Value) (es : List (Value × Value))
    (name : String) : (k = .text name ∧ st.field ((k, v) :: es) name = v) ∨
      (k ≠ .text name ∧ st.field ((k, v) :: es) name = st.field es name) := by
  unfold Store.field
  rw [Store.find?]
  by_cases h : k = .text name
  · rw [if_pos (sameKey_text.mpr h)]
    exact Or.inl ⟨h, rfl⟩
  · rw [if_neg fun hsame => h (sameKey_text.mp hsame)]
    exact Or.inr ⟨h, rfl⟩

/-- The value of a field is among the parts of the mapping. -/
theorem Store.objects_field (st : Store) (es : List (Value × Value)) (name : String) :
    (st.field es name).objects.Subperm (Cell.map es).objects := by
  rw [List.subperm_iff_count]
  intro id
  induction es with
  | nil => exact Nat.zero_le _
  | cons entry rest ih =>
      rcases entry with ⟨k, v⟩
      rw [Cell.objects_map_cons, List.count_append, List.count_append]
      rcases st.objects_field_cons k v rest name with ⟨_, h⟩ | ⟨_, h⟩
      · rw [h]
        omega
      · rw [h]
        omega

/-- The values of two fields are two of the parts of the mapping. -/
theorem Store.objects_fields (st : Store) (es : List (Value × Value)) {name other : String}
    (hne : name ≠ other) : ((st.field es name).objects ++ (st.field es other).objects).Subperm
      (Cell.map es).objects := by
  rw [List.subperm_iff_count]
  intro id
  rw [List.count_append]
  induction es with
  | nil => exact Nat.zero_le _
  | cons entry rest ih =>
      rcases entry with ⟨k, v⟩
      rw [Cell.objects_map_cons, List.count_append, List.count_append]
      have hname := List.subperm_iff_count.mp (st.objects_field rest name) id
      have hother := List.subperm_iff_count.mp (st.objects_field rest other) id
      rcases st.objects_field_cons k v rest name with ⟨hk, h⟩ | ⟨_, h⟩ <;>
        rcases st.objects_field_cons k v rest other with ⟨hk', h'⟩ | ⟨_, h'⟩
      · exact absurd (Scalar.text.inj (Value.scalar.inj (hk.symm.trans hk'))) hne
      all_goals
        rw [h, h']
        omega

/-- The objects that a property refers to. -/
def Property.objects (property : Property) : List Nat :=
  property.description.objects ++ property.example?.objects

/-- The objects that some properties refer to. -/
def propertyObjects (properties : Fields Property) : List Nat :=
  properties.flatMap fun entry => entry.2.objects

theorem Property.objects_named (property : Property) (name : String) :
    (property.named name).2.objects = property.objects := by
  unfold named
  split <;> rfl

/-- A declaration that is given up leaves the objects of the property. -/
theorem Property.separate_ofValue {decl : Value} {property : Property}
    (h : st.Separate (decl.objects ++ ids)) (hp : Property.ofValue st decl = .ok property) :
    st.Separate (property.objects ++ ids) := by
  unfold objects
  rcases ofValue_cases hp with ⟨hdescription, hexample⟩ | ⟨fs, hes, hdescription, hexample⟩
  · rw [hdescription, hexample]
    exact h.subperm (List.sublist_append_right _ _).subperm
  · rw [hdescription, hexample]
    exact (h.entries hes).subperm
      ((List.subperm_append_right ids).mpr (st.objects_fields fs (by decide)))

theorem propertyObjects_put (name : String) (property : Property) (properties : Fields Property) :
    (propertyObjects (properties.put name property)).Subperm
      (propertyObjects properties ++ property.objects) := by
  unfold propertyObjects
  rw [List.subperm_iff_count]
  intro id
  induction properties with
  | nil => simp [Fields.put]
  | cons entry rest ih =>
      rcases entry with ⟨n, p⟩
      rw [Fields.put]
      split
      · simp only [List.flatMap_cons, List.count_append]
        omega
      · simp only [List.flatMap_cons, List.count_append] at ih ⊢
        omega

/-- Declarations that are given up one after the other leave the objects of their properties. -/
theorem separate_declareAll {properties properties' : Fields Property}
    (h : st.Separate (propertyObjects properties ++ ((Cell.map es).objects ++ ids)))
    (hp : declareAll st properties es = .ok properties') :
    st.Separate (propertyObjects properties' ++ ids) := by
  induction es generalizing properties with
  | nil =>
      cases hp
      exact h
  | cons entry rest ih =>
      rcases entry with ⟨key, decl⟩
      rw [declareAll] at hp
      obtain ⟨name, _, hp⟩ := result_bind_iff.mp hp
      obtain ⟨property, hproperty, hp⟩ := result_bind_iff.mp hp
      rw [Cell.objects_map_cons] at h
      have hdecl : st.Separate (decl.objects ++
          (propertyObjects properties ++ ((Cell.map rest).objects ++ ids))) := by
        refine h.subperm (List.subperm_iff_count.mpr fun id => ?_)
        simp only [List.count_append]
        omega
      have hput := propertyObjects_put (property.named name).1 (property.named name).2 properties
      rw [Property.objects_named] at hput
      refine @ih (properties.put (property.named name).1 (property.named name).2) ?_ hp
      refine (Property.separate_ofValue hdecl hproperty).subperm
        (List.subperm_iff_count.mpr fun id => ?_)
      have hcount := List.subperm_iff_count.mp hput id
      simp only [List.count_append] at hcount ⊢
      omega

theorem separate_declaredProperties {declared : Value} {properties : Fields Property}
    (h : st.Separate (declared.objects ++ ids))
    (hp : declaredProperties st declared = .ok properties) :
    st.Separate (propertyObjects properties ++ ids) := by
  unfold declaredProperties at hp
  split at hp
  · cases hp
    exact h.subperm (List.sublist_append_right _ _).subperm
  · cases hes : st.entries? declared with
    | none => rw [hes] at hp; cases hp
    | some es =>
        rw [hes] at hp
        have hstart : st.Separate (propertyObjects [] ++ ((Cell.map es).objects ++ ids)) :=
          h.entries hes
        exact separate_declareAll hstart hp

/-- The response and the request of a resource are two of the parts of its declaration. -/
theorem Resource.separate_ofEntries {name : String} {r : Resource}
    (h : st.Separate ((Cell.map es).objects ++ ids)) (hr : Resource.ofEntries st name es = .ok r) :
    st.Separate (r.response.objects ++ (r.modify.objects ++ ids)) := by
  have hpart : ∀ part, (Resource.partOf st es part).objects.Subperm (st.field es part).objects := by
    intro part
    unfold Resource.partOf
    split
    · exact .refl _
    · exact (List.nil_sublist _).subperm
  obtain ⟨hresponse, hmodify⟩ := parts_of_entries hr
  rw [hresponse, hmodify, ← List.append_assoc]
  exact h.subperm ((List.subperm_append_right ids).mpr
    (((hpart _).append (hpart _)).trans (st.objects_fields es (by decide))))

/-- **Reading a declaration gives it up for a response and a request that stand apart.** -/
theorem Document.separate_resourceOf {name decl : Value} {r : Resource}
    (h : st.Separate (decl.objects ++ ids)) (hr : Document.resourceOf st name decl = .ok r) :
    st.Separate (r.response.objects ++ (r.modify.objects ++ ids)) := by
  obtain ⟨text, _, hr⟩ := result_bind_iff.mp hr
  unfold Resource.ofModel Resource.ofValue at hr
  split at hr
  · cases hes : st.entries? decl with
    | none => rw [hes] at hr; cases hr
    | some es =>
        rw [hes] at hr
        exact Resource.separate_ofEntries (h.entries hes) hr
  · have hempty : st.Separate ((Cell.map []).objects ++ ids) :=
      h.subperm (List.sublist_append_right _ _).subperm
    exact Resource.separate_ofEntries hempty hr

/-! ## Definitions -/

namespace Definition

variable {generator : Option (Generator σ)} {options : Options} {w w' : World σ}

/-- The example that is shown is no object but the author's. -/
theorem objects_shownExample {property : Property} {example? : Option Node}
    (hscalar : ∀ g, generator = some g → g.AnswersFrom fun _ => False)
    (h : Returns (shownExample property options generator) w example? w') :
    (Node.fieldObjects (optional "example" example?)).Subperm property.example?.objects := by
  have hshown : ∀ v, (Node.fieldObjects (optional "example"
      (if v = .null then none else some (.leaf v)))).Subperm v.objects := by
    intro v
    split
    · exact (List.nil_sublist _).subperm
    · rw [optional, Node.fieldObjects, Node.fieldObjects, List.append_nil, Node.objects]
  cases hon : options.examples with
  | false =>
      rw [shownExample_off hon h]
      exact (List.nil_sublist _).subperm
  | true =>
      unfold shownExample at h
      rw [if_pos hon] at h
      obtain ⟨v, rfl, _, ⟨g, _, hg, hask, _⟩ | ⟨_, rfl, _⟩⟩ := exampleOf_cases h
      · cases v with
        | scalar s => exact (hshown _).trans (List.nil_sublist _).subperm
        | ref id =>
            obtain ⟨_, hnone, _⟩ := hscalar g hg _ _ _ _ hask
            exact hnone.elim
      · exact hshown _

theorem objects_schemaWith {resource name : String} {property : Property} {example? : Option Node}
    (h : (Node.fieldObjects (optional "example" example?)).Subperm property.example?.objects) :
    (schemaWith st resource name property options example?).objects.Subperm property.objects := by
  obtain ⟨validator, _, heq⟩ := schemaWith_eq st resource name property options example?
  have hdescription : (descriptionOf st resource name property).objects.Subperm
      property.description.objects := by
    unfold descriptionOf
    split
    · exact .refl _
    · exact (List.nil_sublist _).subperm
  have hvalidator : Node.fieldObjects (optional validatorField (validator.map .text)) = [] := by
    cases validator <;> rfl
  rw [heq, Node.objects, Node.fieldObjects_append, Node.fieldObjects_append, hvalidator,
    List.append_nil]
  refine List.Subperm.append ?_ h
  simpa [Node.fieldObjects, Node.objects] using hdescription

theorem objects_schemas {resource : String} {properties : Fields Property} {parts : Fields Node}
    (hscalar : ∀ g, generator = some g → g.AnswersFrom fun _ => False)
    (h : Returns (schemas resource options generator properties) w parts w') :
    (Node.fieldObjects parts).Subperm (propertyObjects properties) := by
  induction properties generalizing parts w with
  | nil =>
      obtain ⟨rfl, rfl⟩ := Returns.pure_iff.mp h
      exact .refl _
  | cons entry rest ih =>
      rcases entry with ⟨name, property⟩
      obtain ⟨example?, more, u, v, _, hshown, _, hrest, rfl⟩ := schemas_cons h
      exact (objects_schemaWith (objects_shownExample hscalar hshown)).append (ih hrest)

theorem itemObjects_texts (names : List String) : Node.itemObjects (names.map .text) = [] := by
  induction names with
  | nil => rfl
  | cons name rest ih => rw [List.map_cons, Node.itemObjects, ih]; rfl

/-- What is declared is given up for the objects of the definition. -/
theorem separate_build {resource : String} {declared : Value} {part : Node}
    (hscalar : ∀ g, generator = some g → g.AnswersFrom fun _ => False)
    (hsep : w.store.Separate (declared.objects ++ ids))
    (h : Returns (build resource declared options generator) w part w') :
    w.store.Separate (part.objects ++ ids) := by
  obtain ⟨properties, parts, hproperties, hparts, rfl⟩ := build_cases h
  have heq : (withSchemas properties parts).objects = Node.fieldObjects parts := by
    simp [withSchemas, Node.objects, Node.fieldObjects, itemObjects_texts]
  rw [heq]
  exact (separate_declaredProperties hsep hproperties).subperm
    ((List.subperm_append_right ids).mpr (objects_schemas hscalar hparts))

/-- **The definitions of a resource take its response and its request over.** -/
theorem separate_ofResource {r : Resource} {definitions : Fields Node}
    (hscalar : ∀ g, generator = some g → g.AnswersFrom fun _ => False)
    (hsep : w.store.Separate (r.response.objects ++ (r.modify.objects ++ ids)))
    (h : Returns (ofResource r options generator) w definitions w') :
    w.store.Separate (Node.fieldObjects definitions ++ ids) := by
  obtain ⟨response, w₁, hresponse, ⟨_, rfl, _⟩ | ⟨modify, _, hmodify, rfl⟩⟩ := ofResource_cases h
  · refine (separate_build hscalar hsep hresponse).subperm (List.subperm_iff_count.mpr fun id => ?_)
    simp only [Node.fieldObjects, List.count_append, List.count_nil]
    omega
  · have hmiddle := separate_build hscalar hsep hresponse
    rw [← build_store hresponse] at hmiddle
    have hlast := separate_build hscalar (hmiddle.perm (List.perm_append_comm_assoc _ _ _)) hmodify
    rw [build_store hresponse] at hlast
    refine hlast.subperm (List.subperm_iff_count.mpr fun id => ?_)
    simp only [Node.fieldObjects, List.count_append, List.count_nil]
    omega

end Definition

/-! ## Documents -/

namespace Document

variable {generator : Option (Generator σ)} {options : Options} {backend : Backend}
  {w w' : World σ} {d d' : Document}

/-- **What a resource adds is taken over from its declaration**, and what the objects of the
document and of the declaration stood apart from is left as it is. -/
theorem separate_addResource {r : Resource}
    (hscalar : ∀ g, generator = some g → g.AnswersFrom fun _ => False)
    (hsep : w.store.Separate (r.response.objects ++ (r.modify.objects ++
      (Node.fieldObjects d.definitions ++ ids))))
    (h : Returns (addResource d r options backend generator) w d' w') :
    w'.store.Separate (Node.fieldObjects d'.definitions ++ ids) ∧
      Store.Agree (w.store.Reached ids) w.store w'.store := by
  obtain ⟨definitions, items, w₁, hdefinitions, _, rfl, hmerge, _⟩ := addResource_cases h
  have htaken := Definition.separate_ofResource hscalar hsep hdefinitions
  obtain ⟨st', hreturns, hsep', hagree⟩ := Node.mergeFields_returns
    (htaken.perm (List.perm_append_comm_assoc _ _ _))
  obtain ⟨_, rfl⟩ := ((Node.mergeFields_iff _ _).mp hreturns).2.unique hmerge
  exact ⟨hsep', hagree⟩

/-- **What a manifest declares stands apart** if the manifest shares nothing. -/
theorem separate_declarations {manifest : Value} {declared : List (Value × Value)}
    (hpresent : ∀ id, st.Reaches manifest id → id < st.cells.size)
    (hunshared : st.Unshared manifest)
    (h : declarations st manifest = .ok declared) : st.Separate (Cell.map declared).objects := by
  obtain ⟨es, hes, hdeclared⟩ := declarations_iff.mp h
  have hmanifest : st.Separate (manifest.objects ++ []) := by
    cases manifest with
    | scalar s => cases hes
    | ref id => exact Store.separate_singleton.mpr ⟨hunshared, hpresent⟩
  rcases hdeclared with ⟨_, rfl⟩ | ⟨_, hentries⟩
  · exact Store.separate_nil st
  · have hmodels := (hmanifest.entries hes).subperm
      ((List.subperm_append_right []).mpr (st.objects_field es "models"))
    simpa using hmodels.entries hentries

/-- **The objects of the document stand apart after every resource**, from each other and from the
declarations that are still to be read. -/
theorem separate_of_assembles {models : List (Value × Value)} {rs : List Resource}
    (hscalar : ∀ g, generator = some g → g.AnswersFrom fun _ => False)
    (hsep : w.store.Separate (Node.fieldObjects d.definitions ++ (Cell.map models).objects))
    (h : Assembles options backend generator models d w rs d' w') :
    w'.store.Separate (Node.fieldObjects d'.definitions) := by
  induction h with
  | done => simpa [Cell.objects, Cell.parts] using hsep
  | @next name decl rest d d₁ d' w w₁ w' r rs hread hadd _ ih =>
      have hdecl : w.store.Separate (decl.objects ++
          (Node.fieldObjects d.definitions ++ (Cell.map rest).objects)) := by
        refine hsep.subperm (List.subperm_iff_count.mpr fun id => ?_)
        simp only [Cell.objects_map_cons, List.count_append]
        omega
      refine ih (And.left (separate_addResource hscalar ?_ hadd))
      exact separate_resourceOf hdecl hread

end Document
end ApiManifest
