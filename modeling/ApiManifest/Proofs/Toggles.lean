import ApiManifest.Proofs.Erasure
import ApiManifest.Proofs.Reading

/-!
# Toggles are independent

Two builds of one manifest that differ in their options make the same document, apart from the
fields that the options are about. The runs are compared resource by resource. Whatever they read is
the same, since the manifest shares nothing and only examples and descriptions are merged in place;
descriptions are merged alike in both runs; and examples, which may be merged in one run and not in
the other one, are a region of the store that nothing else looks at.
-/

namespace ApiManifest

variable {σ : Type}

/-! ## What the toggles are about -/

/-- Erases fields of a record. -/
def Erasure.dropping (names : List String) : Erasure :=
  .record (fun name => name ∉ names) fun _ => .nothing

/-- Erases fields of the schemas of properties from a definition. -/
def Definition.schemasErasure (names : List String) : Erasure :=
  .record (fun _ => true) fun field =>
    if field = "properties" then .record (fun _ => true) fun _ => .dropping names else .nothing

/-- Erases fields of the schemas of properties from definitions. -/
def Definition.erasure (names : List String) : Erasure :=
  .record (fun _ => true) fun _ => schemasErasure names

/-- Erases fields of operations from a path item. -/
def PathItem.itemErasure (names : List String) : Erasure :=
  .record (fun _ => true) fun _ => .dropping names

/-- Erases fields of operations from path items. -/
def PathItem.erasure (names : List String) : Erasure :=
  .record (fun _ => true) fun _ => itemErasure names

/-- The document without some fields of the schemas of properties and of the operations. -/
def Document.without (schema operation : List String) (d : Document) : Document :=
  { d with
    definitions := (Definition.erasure schema).ofFields d.definitions
    paths := (PathItem.erasure operation).ofFields d.paths }

/-- The fields of schemas that are toggled. If examples are to be compared they are not among
them. -/
def Definition.toggled (examples : Bool) : List String :=
  if examples then [validatorField] else ["example", validatorField]

namespace Definition

variable {examples : Bool} {E D : Nat → Prop}

/-- What the toggles leave of a schema. -/
theorem schemaWith_erased (st : Store) (resource name : String) (property : Property)
    (options : Options) (example? : Option Node) :
    (Erasure.dropping (toggled examples)).of
        (schemaWith st resource name property options example?)
      = .map ([("type", .text (DataType.ofName property.type).type),
          ("description", descriptionOf st resource name property)]
        ++ if examples then optional "example" example? else []) := by
  obtain ⟨validator, _, heq⟩ := schemaWith_eq st resource name property options example?
  rw [heq]
  cases examples <;> cases example? <;> cases validator <;>
    simp [Erasure.dropping, Erasure.of, eraseFields, toggled, optional, validatorField]

/-- A schema fits if its description and its example are in their regions. -/
theorem schemaWith_fits {st : Store} {resource name : String} {property : Property}
    {options : Options} {example? : Option Node} (hdescription : property.description.In D)
    (hexample : ∀ part, example? = some part → part.In (if examples then D else E)) :
    (Erasure.dropping (toggled examples)).Fits E D
      (schemaWith st resource name property options example?) := by
  obtain ⟨fields, heq, hfields⟩ := schemaWith_fields st resource name property options example?
  have hdescribed : (descriptionOf st resource name property).In D :=
    descriptionOf_in (fun _ => hdescription) resource name
  rw [heq]
  intro entry hentry
  rcases hfields entry hentry with rfl | rfl | ⟨part, hshown, rfl⟩ | ⟨text, rfl⟩
  · cases examples <;> simp [toggled, validatorField, Erasure.Fits, Node.In, Node.All, Value.In]
  · cases examples <;> simpa [toggled, validatorField, Erasure.Fits] using hdescribed
  · -- the example is erased, and then in the region `E`, unless examples are compared
    have hpart := hexample part hshown
    cases examples <;> simpa [toggled, validatorField, Erasure.Fits] using hpart
  · cases examples <;> simp [toggled, validatorField, Node.In, Node.All, Value.In]

end Definition

/-! ## Two runs side by side -/

/-- Two runs whose examples are to be compared have the same objects and ask a generator that is in
the same state. -/
def InStep (examples : Bool) (w₁ w₂ : World σ) : Prop :=
  examples = true → w₁.store = w₂.store ∧ w₁.examples = w₂.examples

namespace Definition

variable {examples : Bool} {E D : Nat → Prop} {options₁ options₂ : Options}
  {generator : Option (Generator σ)} {w₁ w₁' w₂ w₂' : World σ}

theorem exampleOf_inStep {property : Property} {value₁ value₂ : Option Node}
    (hstore : w₁.store = w₂.store) (hexamples : w₁.examples = w₂.examples)
    (h₁ : Returns (exampleOf generator property) w₁ value₁ w₁')
    (h₂ : Returns (exampleOf generator property) w₂ value₂ w₂') :
    value₁ = value₂ ∧ w₁'.examples = w₂'.examples := by
  obtain ⟨v₁, rfl, _, hcase₁⟩ := exampleOf_cases h₁
  obtain ⟨v₂, rfl, _, hcase₂⟩ := exampleOf_cases h₂
  rcases hcase₁ with ⟨g, hnull, rfl, hask₁, hstate₁⟩ | ⟨hno, rfl, hstate₁⟩
  · rcases hcase₂ with ⟨_, _, heq, hask₂, hstate₂⟩ | ⟨hno, _, _⟩
    · cases heq
      rw [hstore, hexamples] at hask₁ hstate₁
      have hv := Except.ok.inj (hask₁.symm.trans hask₂)
      exact ⟨by rw [hv], hstate₁.trans hstate₂.symm⟩
    · exact absurd ⟨hnull, rfl⟩ hno
  · rcases hcase₂ with ⟨_, hnull, rfl, _, _⟩ | ⟨_, rfl, hstate₂⟩
    · exact absurd ⟨hnull, rfl⟩ hno
    · exact ⟨rfl, by rw [hstate₁, hstate₂, hexamples]⟩

theorem shownExample_inStep {property : Property} {value₁ value₂ : Option Node}
    (hoptions : examples = true → options₁.examples = options₂.examples)
    (hstep : InStep examples w₁ w₂)
    (h₁ : Returns (shownExample property options₁ generator) w₁ value₁ w₁')
    (h₂ : Returns (shownExample property options₂ generator) w₂ value₂ w₂') :
    (examples = true → value₁ = value₂) ∧ InStep examples w₁' w₂' := by
  have hboth : examples = true → value₁ = value₂ ∧ w₁'.examples = w₂'.examples := by
    intro hon
    obtain ⟨hstore, hexamples⟩ := hstep hon
    unfold shownExample at h₁ h₂
    rw [← hoptions hon] at h₂
    split at h₁
    · rename_i hshown
      rw [if_pos hshown] at h₂
      exact exampleOf_inStep hstore hexamples h₁ h₂
    · rename_i hshown
      rw [if_neg hshown] at h₂
      obtain ⟨rfl, rfl⟩ := Returns.pure_iff.mp h₁
      obtain ⟨rfl, rfl⟩ := Returns.pure_iff.mp h₂
      exact ⟨rfl, hexamples⟩
  refine ⟨fun hon => (hboth hon).1, fun hon => ⟨?_, (hboth hon).2⟩⟩
  rw [shownExample_store h₁, shownExample_store h₂, (hstep hon).1]

/-- **The schemas of two runs differ in the toggled fields only.** -/
theorem schemas_inStep {resource : String} {properties : Fields Property}
    {parts₁ parts₂ : Fields Node}
    (hoptions : examples = true → options₁.examples = options₂.examples)
    (hstep : InStep examples w₁ w₂)
    (hholds : ∀ entry ∈ properties,
      w₁.store.holds entry.2.description = w₂.store.holds entry.2.description)
    (h₁ : Returns (schemas resource options₁ generator properties) w₁ parts₁ w₁')
    (h₂ : Returns (schemas resource options₂ generator properties) w₂ parts₂ w₂') :
    eraseFields (fun _ => true) (fun _ => (Erasure.dropping (toggled examples)).of) parts₁
        = eraseFields (fun _ => true) (fun _ => (Erasure.dropping (toggled examples)).of) parts₂ ∧
      InStep examples w₁' w₂' := by
  induction properties generalizing parts₁ parts₂ w₁ w₂ with
  | nil =>
      obtain ⟨rfl, rfl⟩ := Returns.pure_iff.mp h₁
      obtain ⟨rfl, rfl⟩ := Returns.pure_iff.mp h₂
      exact ⟨rfl, hstep⟩
  | cons entry rest ih =>
      rcases entry with ⟨name, property⟩
      obtain ⟨example₁, more₁, u₁, v₁, hlog₁, hex₁, hstore₁, hrest₁, rfl⟩ := schemas_cons h₁
      obtain ⟨example₂, more₂, u₂, v₂, hlog₂, hex₂, hstore₂, hrest₂, rfl⟩ := schemas_cons h₂
      have htold : InStep examples u₁ u₂ := fun hon => by
        rw [hlog₁.store, hlog₂.store, hlog₁.examples, hlog₂.examples]
        exact hstep hon
      -- the same examples were shown so far, so the next one is the same if examples are kept
      obtain ⟨hexample, hshown⟩ := shownExample_inStep hoptions htold hex₁ hex₂
      obtain ⟨hmore, hlast⟩ := ih hshown (fun e he => by
        rw [hstore₁, hstore₂]
        exact hholds e (List.mem_cons_of_mem _ he)) hrest₁ hrest₂
      refine ⟨?_, hlast⟩
      have hdescribed : descriptionOf w₁.store resource name property
          = descriptionOf w₂.store resource name property := by
        unfold descriptionOf
        rw [hholds _ List.mem_cons_self]
      unfold eraseFields
      rw [if_pos rfl, if_pos rfl, schemaWith_erased, schemaWith_erased, hdescribed, hmore]
      cases examples with
      | false => rfl
      | true => rw [hexample rfl]

/-- A part of a resource declares the same properties in both runs, and their descriptions and
examples are in the regions for them. -/
structure PartAlike (examples : Bool) (E D : Nat → Prop) (st₁ st₂ : Store) (declared : Value) :
    Prop where
  read : declaredProperties st₁ declared = declaredProperties st₂ declared
  merged : ∀ properties, declaredProperties st₁ declared = .ok properties →
    ∀ entry ∈ properties, entry.2.description.In D ∧
      entry.2.example?.In (if examples then D else E)

/-- What a generator answers is in the region for examples. -/
def AnswersIn (examples : Bool) (E D : Nat → Prop) (generator : Option (Generator σ))
    (st : Store) : Prop :=
  ∀ g, generator = some g → ∀ key s v, (g.ask st key s).result = .ok v →
    v.In (if examples then D else E)

theorem exampleOf_fits {property : Property} {value : Option Node} {w w' : World σ}
    (hexample : property.example?.In (if examples then D else E))
    (hanswers : AnswersIn examples E D generator w.store)
    (h : Returns (exampleOf generator property) w value w') :
    ∀ part, value = some part → part.In (if examples then D else E) := by
  obtain ⟨v, rfl, _, hcase⟩ := exampleOf_cases h
  have hv : v.In (if examples then D else E) := by
    rcases hcase with ⟨g, _, hg, hask, _⟩ | ⟨_, rfl, _⟩
    · exact hanswers g hg _ _ _ hask
    · exact hexample
  exact fun part hpart => in_of_shown hpart hv

theorem schemas_fit {resource : String} {options : Options} {properties : Fields Property}
    {parts : Fields Node} {w w' : World σ}
    (hmerged : ∀ entry ∈ properties, entry.2.description.In D ∧
      entry.2.example?.In (if examples then D else E))
    (hanswers : AnswersIn examples E D generator w.store)
    (h : Returns (schemas resource options generator properties) w parts w') :
    ∀ entry ∈ parts, (Erasure.dropping (toggled examples)).Fits E D entry.2 := by
  induction properties generalizing parts w with
  | nil =>
      obtain ⟨rfl, rfl⟩ := Returns.pure_iff.mp h
      simp
  | cons entry rest ih =>
      rcases entry with ⟨name, property⟩
      obtain ⟨example?, more, u, v, hlog, hex, hstore, hrest, rfl⟩ := schemas_cons h
      obtain ⟨hdescription, hexample⟩ := hmerged _ List.mem_cons_self
      have hshown : ∀ part, example? = some part → part.In (if examples then D else E) := by
        unfold shownExample at hex
        split at hex
        · exact exampleOf_fits hexample (by rw [hlog.store]; exact hanswers) hex
        · obtain ⟨rfl, _⟩ := Returns.pure_iff.mp hex
          intro part hnone
          cases hnone
      intro entry hentry
      rcases List.mem_cons.mp hentry with rfl | hentry
      · exact schemaWith_fits hdescription hshown
      · exact ih (fun e he => hmerged e (List.mem_cons_of_mem _ he))
          (by rw [hstore]; exact hanswers) hrest entry hentry

/-! ### Definitions -/

theorem withSchemas_erased (names : List String) (properties : Fields Property)
    (parts : Fields Node) :
    (schemasErasure names).of (withSchemas properties parts)
      = withSchemas properties
          (eraseFields (fun _ => true) (fun _ => (Erasure.dropping names).of) parts) := by
  simp [schemasErasure, withSchemas, Erasure.of, eraseFields]

theorem withSchemas_fits {names : List String} {properties : Fields Property}
    {parts : Fields Node} (h : ∀ entry ∈ parts, (Erasure.dropping names).Fits E D entry.2) :
    (schemasErasure names).Fits E D (withSchemas properties parts) := by
  intro entry hentry
  simp only [List.mem_cons, List.not_mem_nil, or_false] at hentry
  rcases hentry with rfl | rfl | rfl
  · trivial
  · exact requiredNames_in properties
  · exact h

theorem build_inStep {resource : String} {declared : Value} {part₁ part₂ : Node}
    (hoptions : examples = true → options₁.examples = options₂.examples)
    (hstep : InStep examples w₁ w₂) (hagree : Store.Agree D w₁.store w₂.store)
    (hpart : PartAlike examples E D w₁.store w₂.store declared)
    (h₁ : Returns (build resource declared options₁ generator) w₁ part₁ w₁')
    (h₂ : Returns (build resource declared options₂ generator) w₂ part₂ w₂') :
    (schemasErasure (toggled examples)).of part₁ = (schemasErasure (toggled examples)).of part₂ ∧
      InStep examples w₁' w₂' := by
  obtain ⟨properties, parts₁, hread₁, hschemas₁, rfl⟩ := build_cases h₁
  obtain ⟨properties', parts₂, hread₂, hschemas₂, rfl⟩ := build_cases h₂
  have hmerged := hpart.merged properties hread₁
  rw [hpart.read, hread₂] at hread₁
  cases hread₁
  obtain ⟨hschemas, hlast⟩ := schemas_inStep hoptions hstep
    (fun e he => (hagree.holds (hmerged e he).1).symm) hschemas₁ hschemas₂
  refine ⟨?_, hlast⟩
  rw [withSchemas_erased, withSchemas_erased, hschemas]

theorem build_fits {resource : String} {declared : Value} {options : Options} {part : Node}
    {w w' : World σ} {st : Store} (hpart : PartAlike examples E D w.store st declared)
    (hanswers : AnswersIn examples E D generator w.store)
    (h : Returns (build resource declared options generator) w part w') :
    (schemasErasure (toggled examples)).Fits E D part := by
  obtain ⟨properties, parts, hread, hschemas, rfl⟩ := build_cases h
  exact withSchemas_fits (schemas_fit (hpart.merged properties hread) hanswers hschemas)

/-- **The definitions of one resource in two runs differ in the toggled fields only.** -/
theorem ofResource_inStep {r : Resource} {definitions₁ definitions₂ : Fields Node}
    (hoptions : examples = true → options₁.examples = options₂.examples)
    (hstep : InStep examples w₁ w₂) (hagree : Store.Agree D w₁.store w₂.store)
    (hresponse : PartAlike examples E D w₁.store w₂.store r.response)
    (hmodify : PartAlike examples E D w₁.store w₂.store r.modify)
    (h₁ : Returns (ofResource r options₁ generator) w₁ definitions₁ w₁')
    (h₂ : Returns (ofResource r options₂ generator) w₂ definitions₂ w₂') :
    (erasure (toggled examples)).ofFields definitions₁
        = (erasure (toggled examples)).ofFields definitions₂ ∧ InStep examples w₁' w₂' := by
  obtain ⟨response₁, v₁, hr₁, hcase₁⟩ := ofResource_cases h₁
  obtain ⟨response₂, v₂, hr₂, hcase₂⟩ := ofResource_cases h₂
  obtain ⟨heq, hstepr⟩ := build_inStep hoptions hstep hagree hresponse hr₁ hr₂
  rcases hcase₁ with ⟨hro, rfl, rfl⟩ | ⟨modify₁, hro, hm₁, rfl⟩
  · rcases hcase₂ with ⟨_, rfl, rfl⟩ | ⟨modify₂, hro', _, _⟩
    · refine ⟨?_, hstepr⟩
      simp [erasure, Erasure.ofFields, eraseFields, heq]
    · rw [hro] at hro'
      cases hro'
  · rcases hcase₂ with ⟨hro', _, _⟩ | ⟨modify₂, _, hm₂, rfl⟩
    · rw [hro] at hro'
      cases hro'
    · have hstore₁ := build_store hr₁
      have hstore₂ := build_store hr₂
      obtain ⟨heq', hstepm⟩ := build_inStep (E := E) hoptions hstepr
        (by rw [hstore₁, hstore₂]; exact hagree) (by rw [hstore₁, hstore₂]; exact hmodify) hm₁ hm₂
      refine ⟨?_, hstepm⟩
      simp [erasure, Erasure.ofFields, eraseFields, heq, heq']

theorem ofResource_fits {r : Resource} {options : Options} {definitions : Fields Node}
    {w w' : World σ} {st : Store} (hresponse : PartAlike examples E D w.store st r.response)
    (hmodify : PartAlike examples E D w.store st r.modify)
    (hanswers : AnswersIn examples E D generator w.store)
    (h : Returns (ofResource r options generator) w definitions w') :
    (erasure (toggled examples)).Fits E D (.map definitions) := by
  obtain ⟨response, v, hr, hcase⟩ := ofResource_cases h
  have hfits := build_fits hresponse hanswers hr
  rcases hcase with ⟨_, rfl, _⟩ | ⟨modify, _, hm, rfl⟩
  · intro entry hentry
    rw [List.mem_singleton.mp hentry]
    exact hfits
  · have hstore := build_store hr
    rw [← hstore] at hmodify hanswers
    have hfits' := build_fits hmodify hanswers hm
    intro entry hentry
    simp only [List.mem_cons, List.not_mem_nil, or_false] at hentry
    rcases hentry with rfl | rfl
    · exact hfits
    · exact hfits'

end Definition

namespace PathItem

/-- What is left of an operation that is put into path items. -/
theorem putOperation_erased (names : List String) (path : String) (verb : Verb) (part : Node)
    (paths : Fields Node) :
    (erasure names).ofFields (putOperation path verb part paths)
      = putOperation path verb ((Erasure.dropping names).of part)
          ((erasure names).ofFields paths) := by
  have hget := @get?_eraseFields (fun _ => true) (fun _ => (itemErasure names).of) path paths
  unfold putOperation erasure Erasure.ofFields
  dsimp only
  rw [hget, if_pos rfl]
  cases Fields.get? path paths with
  | none => rfl
  | some item =>
      cases item with
      | map fields =>
          rw [Option.map_some]
          dsimp only
          rw [eraseFields_put, if_pos rfl]
          unfold itemErasure
          rw [Erasure.of, Erasure.of]
          dsimp only
          rw [eraseFields_put, if_pos rfl]
      | leaf v => rfl
      | list items => rfl

variable {r : Resource} {options₁ options₂ : Options} {backend : Option Backend}

theorem operation_erased {op : Operation} {part₁ part₂ : Node}
    (h₁ : operation r op options₁ backend = .ok part₁)
    (h₂ : operation r op options₂ backend = .ok part₂) :
    (Erasure.dropping [gatewayField]).of part₁ = (Erasure.dropping [gatewayField]).of part₂ := by
  obtain ⟨gateway₁, _, rfl⟩ := operation_eq h₁
  obtain ⟨gateway₂, _, rfl⟩ := operation_eq h₂
  cases gateway₁ <;> cases gateway₂ <;>
    simp [Erasure.dropping, Erasure.of, eraseFields, Definition.optional, gatewayField]

theorem offer_erased {ops : List Operation} {paths₁ paths₂ paths₁' paths₂' : Fields Node}
    (hp : (erasure [gatewayField]).ofFields paths₁ = (erasure [gatewayField]).ofFields paths₂)
    (h₁ : offer r options₁ backend ops paths₁ = .ok paths₁')
    (h₂ : offer r options₂ backend ops paths₂ = .ok paths₂') :
    (erasure [gatewayField]).ofFields paths₁' = (erasure [gatewayField]).ofFields paths₂' := by
  induction ops generalizing paths₁ paths₂ with
  | nil =>
      cases h₁
      cases h₂
      exact hp
  | cons op rest ih =>
      rw [offer] at h₁ h₂
      cases hpart₁ : operation r op options₁ backend with
      | error e => rw [hpart₁] at h₁; cases h₁
      | ok part₁ =>
          cases hpart₂ : operation r op options₂ backend with
          | error e => rw [hpart₂] at h₂; cases h₂
          | ok part₂ =>
              rw [hpart₁] at h₁
              rw [hpart₂] at h₂
              refine ih ?_ h₁ h₂
              rw [putOperation_erased, putOperation_erased, hp, operation_erased hpart₁ hpart₂]

/-- **The path items of one resource in two runs differ in their integrations only.** -/
theorem items_erased {items₁ items₂ : Fields Node}
    (h₁ : items r options₁ backend = .ok items₁) (h₂ : items r options₂ backend = .ok items₂) :
    (erasure [gatewayField]).ofFields items₁ = (erasure [gatewayField]).ofFields items₂ := by
  rw [items] at h₁ h₂
  cases hu : r.unknownMethods with
  | error e => rw [hu] at h₁; cases h₁
  | ok unknown =>
      rw [hu] at h₁ h₂
      exact offer_erased rfl h₁ h₂

end PathItem

/-! ## Two documents side by side -/

namespace Document

variable {examples : Bool} {E D : Nat → Prop}

/-- Two runs of a build, somewhere on their way: the documents differ in the toggled fields only,
and the stores in the region `E` only. -/
structure Twins (examples : Bool) (E D : Nat → Prop) (st : Store) (d₁ : Document) (w₁ : World σ)
    (d₂ : Document) (w₂ : World σ) : Prop where
  baseline : d₁.baseline = d₂.baseline
  definitions : (Definition.erasure (Definition.toggled examples)).ofFields d₁.definitions
    = (Definition.erasure (Definition.toggled examples)).ofFields d₂.definitions
  paths : (PathItem.erasure [PathItem.gatewayField]).ofFields d₁.paths
    = (PathItem.erasure [PathItem.gatewayField]).ofFields d₂.paths
  /-- The objects of the first document are in their regions. -/
  fits₁ : (Definition.erasure (Definition.toggled examples)).Fits E D (.map d₁.definitions)
  /-- The objects of the second document are in their regions. -/
  fits₂ : (Definition.erasure (Definition.toggled examples)).Fits E D (.map d₂.definitions)
  parted₁ : Store.Parted E D st w₁.store
  parted₂ : Store.Parted E D st w₂.store
  agree : Store.Agree (fun id => ¬ E id) w₁.store w₂.store
  inStep : InStep examples w₁ w₂

/-- Two runs start from the same state. -/
theorem Twins.refl {w : World σ} {baseline : Entries} (hE : w.store.Closed E)
    (hD : w.store.Closed D) :
    Twins examples E D w.store { baseline } w { baseline } w where
  baseline := rfl
  definitions := rfl
  paths := rfl
  fits₁ _ hentry := by cases hentry
  fits₂ _ hentry := by cases hentry
  parted₁ := .refl hE hD
  parted₂ := .refl hE hD
  agree := .refl _ _
  inStep _ := ⟨rfl, rfl⟩

/-- What a model comes to is read alike in two runs, whatever they have merged in the regions. -/
def ReadAlike (examples : Bool) (E D : Nat → Prop) (st : Store) (model : Value × Value) : Prop :=
  ∀ st₁ st₂, Store.Parted E D st st₁ → Store.Parted E D st st₂ →
    Store.Agree (fun id => ¬ E id) st₁ st₂ →
    resourceOf st₁ model.1 model.2 = resourceOf st₂ model.1 model.2 ∧
      ∀ r, resourceOf st₁ model.1 model.2 = .ok r →
        Definition.PartAlike examples E D st₁ st₂ r.response ∧
          Definition.PartAlike examples E D st₁ st₂ r.modify

section

variable {options₁ options₂ : Options} {backend : Backend} {generator : Option (Generator σ)}
  {st : Store} (hdisjoint : ∀ id, D id → ¬ E id) (hempty : examples = true → ∀ id, ¬ E id)
  (hoptions : examples = true → options₁.examples = options₂.examples)
  (hanswers : ∀ st', Store.Parted E D st st' → Definition.AnswersIn examples E D generator st')

include hdisjoint hempty hoptions hanswers

/-- **Preserved by every resource.** -/
theorem twins_addResource {d₁ d₁' d₂ d₂' : Document} {w₁ w₁' w₂ w₂' : World σ} {r : Resource}
    (ht : Twins examples E D st d₁ w₁ d₂ w₂)
    (hresponse : Definition.PartAlike examples E D w₁.store w₂.store r.response ∧
      Definition.PartAlike examples E D w₂.store w₁.store r.response)
    (hmodify : Definition.PartAlike examples E D w₁.store w₂.store r.modify ∧
      Definition.PartAlike examples E D w₂.store w₁.store r.modify)
    (h₁ : Returns (addResource d₁ r options₁ backend generator) w₁ d₁' w₁')
    (h₂ : Returns (addResource d₂ r options₂ backend generator) w₂ d₂' w₂') :
    Twins examples E D st d₁' w₁' d₂' w₂' := by
  obtain ⟨definitions₁, items₁, v₁, hdefs₁, hitems₁, rfl, hmerge₁, hstate₁⟩ := addResource_cases h₁
  obtain ⟨definitions₂, items₂, v₂, hdefs₂, hitems₂, rfl, hmerge₂, hstate₂⟩ := addResource_cases h₂
  have hmaps₁ := ht.parted₁.maps
  have hmaps₂ := ht.parted₂.maps
  obtain ⟨herased, hstep⟩ := Definition.ofResource_inStep hoptions ht.inStep
    (ht.agree.mono hdisjoint) hresponse.1 hmodify.1 hdefs₁ hdefs₂
  have hfits₁ := Definition.ofResource_fits hresponse.1 hmodify.1 (hanswers _ ht.parted₁) hdefs₁
  have hfits₂ := Definition.ofResource_fits hresponse.2 hmodify.2 (hanswers _ ht.parted₂) hdefs₂
  -- what meets apart from examples is the same in both runs
  have hthin₁ := @Erasure.Fits.thinnedFields E D st.isMapping _ _ _ ht.fits₁ hfits₁
  have hthin₂ := @Erasure.Fits.thinnedFields E D st.isMapping _ _ _ ht.fits₂ hfits₂
  rw [ht.definitions, herased] at hthin₁
  rw [hmaps₁] at hmerge₁
  rw [hmaps₂] at hmerge₂
  have hmapping₁ : ∀ pair ∈ Node.meetingsFields st.isMapping d₁.definitions definitions₁,
      w₁.store.isMapping pair.1 = true := fun pair hpair => by
    rw [hmaps₁]
    exact (Node.isMapping_of_meetingsFields _ _ pair hpair).1
  have hmapping₂ : ∀ pair ∈ Node.meetingsFields st.isMapping d₂.definitions definitions₂,
      w₂.store.isMapping pair.1 = true := fun pair hpair => by
    rw [hmaps₂]
    exact (Node.isMapping_of_meetingsFields _ _ pair hpair).1
  obtain ⟨hparted₁, sc, hkept₁, hagree₁⟩ := Store.mergeAll_thinned hdisjoint hthin₁
    ht.parted₁.closedE ht.parted₁.closedD hmapping₁ ht.agree hmerge₁
  obtain ⟨hparted₂, sc', hkept₂, hagree₂⟩ := Store.mergeAll_thinned hdisjoint hthin₂
    ht.parted₂.closedE ht.parted₂.closedD hmapping₂ (.refl _ _) hmerge₂
  -- both runs are compared with the one that merges only what meets in both
  obtain ⟨_, rfl⟩ := Returns.unique hkept₁ hkept₂
  have hagree := hagree₁.trans hagree₂.symm
  exact {
    baseline := ht.baseline
    definitions := by
      rw [Erasure.ofFields_overlayFields, Erasure.ofFields_overlayFields, hmaps₁, hmaps₂,
        ht.definitions, herased]
    paths := by
      rw [Erasure.ofFields_overlayFields, Erasure.ofFields_overlayFields, hmaps₁, hmaps₂,
        ht.paths, PathItem.items_erased hitems₁ hitems₂]
    fits₁ := ht.fits₁.overlayFields hfits₁
    fits₂ := ht.fits₂.overlayFields hfits₂
    parted₁ := ht.parted₁.trans hparted₁
    parted₂ := ht.parted₂.trans hparted₂
    agree := hagree
    inStep := fun hon => ⟨(hagree.eq fun id => hempty hon id).symm, by
      rw [hstate₁, hstate₂]
      exact (hstep hon).2⟩ }

/-- **One turn.** Each run has its own store by now, but reads the resource as the other one
does. -/
theorem twins_next {name decl : Value} {d₁ d₁' d₂ d₂' : Document} {w₁ w₁' w₂ w₂' : World σ}
    {r₁ r₂ : Resource} (hread : ReadAlike examples E D st (name, decl))
    (ht : Twins examples E D st d₁ w₁ d₂ w₂) (hr₁ : resourceOf w₁.store name decl = .ok r₁)
    (hr₂ : resourceOf w₂.store name decl = .ok r₂)
    (h₁ : Returns (addResource d₁ r₁ options₁ backend generator)
      { w₁ with log := w₁.log ++ generating w₁.store name } d₁' w₁')
    (h₂ : Returns (addResource d₂ r₂ options₂ backend generator)
      { w₂ with log := w₂.log ++ generating w₂.store name } d₂' w₂') :
    r₁ = r₂ ∧ Twins examples E D st d₁' w₁' d₂' w₂' := by
  obtain ⟨hsame, hparts⟩ := hread w₁.store w₂.store ht.parted₁ ht.parted₂ ht.agree
  obtain ⟨_, hparts'⟩ := hread w₂.store w₁.store ht.parted₂ ht.parted₁ ht.agree.symm
  dsimp only at hsame hparts hparts'
  have hpart' := hparts' r₂ hr₂
  rw [hsame, hr₂] at hr₁
  cases hr₁
  have hpart := hparts r₁ (hsame.trans hr₂)
  -- both runs tell that they go on, which leaves everything but the records
  have htold : Twins examples E D st
      d₁ { w₁ with log := w₁.log ++ generating w₁.store name }
      d₂ { w₂ with log := w₂.log ++ generating w₂.store name } :=
    ⟨ht.baseline, ht.definitions, ht.paths, ht.fits₁, ht.fits₂, ht.parted₁, ht.parted₂,
      ht.agree, ht.inStep⟩
  exact ⟨rfl, twins_addResource hdisjoint hempty hoptions hanswers htold ⟨hpart.1, hpart'.1⟩
    ⟨hpart.2, hpart'.2⟩ h₁ h₂⟩

theorem twins_of_assembles {models : List (Value × Value)} {d₁ d₁' d₂ d₂' : Document}
    {w₁ w₁' w₂ w₂' : World σ} {rs₁ rs₂ : List Resource}
    (hread : ∀ model ∈ models, ReadAlike examples E D st model)
    (ht : Twins examples E D st d₁ w₁ d₂ w₂)
    (h₁ : Assembles options₁ backend generator models d₁ w₁ rs₁ d₁' w₁')
    (h₂ : Assembles options₂ backend generator models d₂ w₂ rs₂ d₂' w₂') :
    Twins examples E D st d₁' w₁' d₂' w₂' := by
  induction h₁ generalizing d₂ w₂ rs₂ with
  | done =>
      cases h₂
      exact ht
  | next hr₁ hadd₁ _ ih =>
      cases h₂ with
      | next hr₂ hadd₂ hrest₂ =>
          obtain ⟨_, ht'⟩ := twins_next hdisjoint hempty hoptions hanswers
            (hread _ List.mem_cons_self) ht hr₁ hr₂ hadd₁ hadd₂
          exact ih (fun model hm => hread model (List.mem_cons_of_mem _ hm)) ht' hrest₂

end

end Document
end ApiManifest
