import ApiManifest.Proofs.Toggles

/-!
# What is turned off is not there

With examples turned off no schema has an example, and likewise for validators and for the
integrations of operations. A toggle adds its field to what each resource contributes, so a document
in which erasing the field changes nothing stays one when resources are added.
-/

namespace ApiManifest

variable {σ : Type}

namespace Document

/-- The schema of a property of a definition. -/
def schema? (d : Document) (key property : String) : Option Node :=
  ((Fields.get? key d.definitions).bind (Node.get? "properties")).bind (Node.get? property)

/-- The operation at a path and a verb. -/
def operation? (d : Document) (path verb : String) : Option Node :=
  (Fields.get? path d.paths).bind (Node.get? verb)

/-- The example in the schema of a property of a definition. -/
def example? (st : Store) (d : Document) (key property : String) : Option Tree :=
  ((d.schema? key property).bind (Node.get? "example")).map (Node.tree st)

theorem schema?_without (schema operation : List String) (d : Document) (key property : String) :
    (d.without schema operation).schema? key property
      = (d.schema? key property).map (Erasure.dropping schema).of := by
  unfold Document.schema? Document.without Definition.erasure Erasure.ofFields
  dsimp only
  rw [get?_eraseFields, if_pos rfl]
  cases Fields.get? key d.definitions with
  | none => rfl
  | some definition =>
      rw [Option.map_some, Option.bind_some, Option.bind_some]
      unfold Definition.schemasErasure
      cases definition with
      | leaf v => rfl
      | list items => rfl
      | map fields =>
          rw [Erasure.of, Node.get?, Node.get?, get?_eraseFields, if_pos rfl]
          cases Fields.get? "properties" fields with
          | none => rfl
          | some schemas =>
              rw [Option.map_some, Option.bind_some, Option.bind_some, if_pos rfl]
              cases schemas with
              | leaf v => rfl
              | list items => rfl
              | map fields => rw [Erasure.of, Node.get?, Node.get?, get?_eraseFields, if_pos rfl]

theorem operation?_without (schema operation : List String) (d : Document) (path verb : String) :
    (d.without schema operation).operation? path verb
      = (d.operation? path verb).map (Erasure.dropping operation).of := by
  unfold Document.operation? Document.without PathItem.erasure Erasure.ofFields
  dsimp only
  rw [get?_eraseFields, if_pos rfl]
  cases Fields.get? path d.paths with
  | none => rfl
  | some item =>
      rw [Option.map_some, Option.bind_some, Option.bind_some]
      unfold PathItem.itemErasure
      cases item with
      | leaf v => rfl
      | list items => rfl
      | map fields => rw [Erasure.of, Node.get?, Node.get?, get?_eraseFields, if_pos rfl]

theorem get?_dropping (names : List String) (name : String) (part : Node) :
    ((Erasure.dropping names).of part).get? name
      = if name ∈ names then none else part.get? name := by
  unfold Erasure.dropping
  cases part with
  | leaf v => simp [Erasure.of, Node.get?]
  | list items => simp [Erasure.of, Node.get?]
  | map fields =>
      rw [Erasure.of, Node.get?, Node.get?, get?_eraseFields]
      by_cases hmem : name ∈ names
      · simp [hmem]
      · cases Fields.get? name fields <;> simp [hmem, Erasure.of]

/-- Other fields of the schemas are still there. -/
theorem get?_schema?_without {names operation : List String} {name : String} (h : name ∉ names)
    (d : Document) (key property : String) :
    ((d.without names operation).schema? key property).bind (Node.get? name)
      = (d.schema? key property).bind (Node.get? name) := by
  rw [schema?_without]
  cases d.schema? key property with
  | none => rfl
  | some schema =>
      rw [Option.map_some, Option.bind_some, Option.bind_some, get?_dropping, if_neg h]

end Document

namespace Definition

variable {names : List String} {options : Options} {generator : Option (Generator σ)}

/-- With these options no schema has the fields of these names. -/
def Lacks (names : List String) (options : Options) : Prop :=
  ∀ st resource name property example?, (options.examples = false → example? = none) →
    (Erasure.dropping names).of (schemaWith st resource name property options example?)
      = schemaWith st resource name property options example?

theorem lacks_example (h : options.examples = false) : Lacks ["example"] options := by
  intro st resource name property example? hnone
  obtain ⟨validator, _, heq⟩ := schemaWith_eq st resource name property options example?
  rw [heq, hnone h]
  cases validator <;> simp [Erasure.dropping, Erasure.of, eraseFields, optional, validatorField]

theorem lacks_validator (h : options.validators = false) : Lacks [validatorField] options := by
  intro st resource name property example? _
  obtain ⟨validator, hnone, heq⟩ := schemaWith_eq st resource name property options example?
  rw [heq, hnone h]
  cases example? <;> simp [Erasure.dropping, Erasure.of, eraseFields, optional, validatorField]

theorem schemas_lack (hl : Lacks names options) {resource : String} {properties : Fields Property}
    {parts : Fields Node} {w w' : World σ}
    (h : Returns (schemas resource options generator properties) w parts w') :
    eraseFields (fun _ => true) (fun _ => (Erasure.dropping names).of) parts = parts := by
  induction properties generalizing parts w with
  | nil =>
      obtain ⟨rfl, rfl⟩ := Returns.pure_iff.mp h
      rfl
  | cons entry rest ih =>
      rcases entry with ⟨name, property⟩
      obtain ⟨example?, more, u, v, _, hex, _, hrest, rfl⟩ := schemas_cons h
      rw [eraseFields, if_pos rfl, hl _ _ _ _ _ fun hoff => shownExample_off hoff hex, ih hrest]

theorem build_lacks (hl : Lacks names options) {resource : String} {declared : Value}
    {part : Node} {w w' : World σ}
    (h : Returns (build resource declared options generator) w part w') :
    (schemasErasure names).of part = part := by
  obtain ⟨properties, parts, _, hschemas, rfl⟩ := build_cases h
  rw [withSchemas_erased, schemas_lack hl hschemas]

theorem ofResource_lacks (hl : Lacks names options) {r : Resource} {definitions : Fields Node}
    {w w' : World σ} (h : Returns (ofResource r options generator) w definitions w') :
    (erasure names).ofFields definitions = definitions := by
  obtain ⟨response, v, hr, hcase⟩ := ofResource_cases h
  have hresponse := build_lacks hl hr
  rcases hcase with ⟨_, rfl, _⟩ | ⟨modify, _, hm, rfl⟩
  · simp [erasure, Erasure.ofFields, eraseFields, hresponse]
  · simp [erasure, Erasure.ofFields, eraseFields, hresponse, build_lacks hl hm]

end Definition

namespace PathItem

theorem roots_erased (r : Resource) (names : List String) :
    (erasure names).ofFields (roots r) = roots r := by
  unfold roots
  generalize (PathTemplate.parse r.path true).display = collection
  generalize (PathTemplate.parse r.path false).display = item
  by_cases heq : item = collection
  · simp [heq, erasure, itemErasure, Erasure.ofFields, eraseFields, Erasure.of, Erasure.dropping]
  · simp [heq, erasure, itemErasure, Erasure.ofFields, eraseFields, Erasure.of, Erasure.dropping]

theorem items_lack {r : Resource} {options : Options} {backend : Option Backend}
    {items : Fields Node} (hoff : options.apiGateway = false)
    (h : PathItem.items r options backend = .ok items) :
    (erasure [gatewayField]).ofFields items = items := by
  refine items_induction (P := fun paths => (erasure [gatewayField]).ofFields paths = paths) ?_ ?_ h
  · exact roots_erased r _
  · intro op _ part paths hpart hpaths
    obtain ⟨gateway, hgateway, rfl⟩ := operation_eq hpart
    rw [putOperation_erased, hpaths]
    rcases integration?_cases hgateway with ⟨_, rfl⟩ | ⟨_, _, hon, _⟩
    · rfl
    · rw [hoff] at hon
      cases hon

end PathItem

namespace Document

section

variable {options : Options} {backend : Backend} {generator : Option (Generator σ)}
  {models : List (Value × Value)} {d d' : Document} {w w' : World σ} {rs : List Resource}
  {names : List String}

/-- What the options keep out of all schemas is in none of the document. -/
theorem definitions_lack (hl : Definition.Lacks names options)
    (hd : (Definition.erasure names).ofFields d.definitions = d.definitions)
    (h : Assembles options backend generator models d w rs d' w') :
    (Definition.erasure names).ofFields d'.definitions = d'.definitions := by
  induction h with
  | done => exact hd
  | next _ hadd _ ih =>
      refine ih ?_
      obtain ⟨definitions, _, _, hdefs, _, rfl, _⟩ := addResource_cases hadd
      rw [Erasure.ofFields_overlayFields, hd, Definition.ofResource_lacks hl hdefs]

/-- Without a gateway no operation of the document has an integration. -/
theorem paths_lack (hoff : options.apiGateway = false)
    (hd : (PathItem.erasure [PathItem.gatewayField]).ofFields d.paths = d.paths)
    (h : Assembles options backend generator models d w rs d' w') :
    (PathItem.erasure [PathItem.gatewayField]).ofFields d'.paths = d'.paths := by
  induction h with
  | done => exact hd
  | next _ hadd _ ih =>
      refine ih ?_
      obtain ⟨_, items, _, _, hitems, rfl, _⟩ := addResource_cases hadd
      rw [Erasure.ofFields_overlayFields, hd, PathItem.items_lack hoff hitems]

theorem schema_lacks (hd : (Definition.erasure names).ofFields d.definitions = d.definitions)
    {key property name : String} {schema : Node} (hname : name ∈ names)
    (h : d.schema? key property = some schema) : schema.get? name = none := by
  -- the schema is what is left of it without the fields
  have hwithout := schema?_without names [] d key property
  unfold Document.without Document.schema? at hwithout
  dsimp only at hwithout
  rw [hd] at hwithout
  replace hwithout : d.schema? key property
    = (d.schema? key property).map (Erasure.dropping names).of := hwithout
  rw [h] at hwithout
  rw [Option.some.inj hwithout, get?_dropping, if_pos hname]

theorem operation_lacks (hd : (PathItem.erasure names).ofFields d.paths = d.paths)
    {path verb name : String} {operation : Node} (hname : name ∈ names)
    (h : d.operation? path verb = some operation) : operation.get? name = none := by
  have hwithout := operation?_without [] names d path verb
  unfold Document.without Document.operation? at hwithout
  dsimp only at hwithout
  rw [hd] at hwithout
  replace hwithout : d.operation? path verb
    = (d.operation? path verb).map (Erasure.dropping names).of := hwithout
  rw [h] at hwithout
  rw [Option.some.inj hwithout, get?_dropping, if_pos hname]

end

end Document
end ApiManifest
