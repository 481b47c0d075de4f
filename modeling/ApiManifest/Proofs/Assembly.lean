import ApiManifest.Document
import ApiManifest.Proofs.Parts
import ApiManifest.Proofs.Properties

/-!
# How a document is assembled

A document is built resource by resource. This file takes a build apart into the resources that it
reads, each when its turn comes, and into what each of them contributes: some definitions and some
path items, which are merged into those that are there. What a merge keeps and what every
contribution has, the finished document has.
-/

namespace ApiManifest

variable {σ α : Type}

/-- Nothing but the log tells the two worlds apart. -/
def World.OnlyLogs (w w' : World σ) : Prop := ∃ log, { w with log } = w'

theorem World.OnlyLogs.refl (w : World σ) : w.OnlyLogs w := ⟨w.log, rfl⟩

theorem World.OnlyLogs.trans {w w' w'' : World σ} (h : w.OnlyLogs w') (h' : w'.OnlyLogs w'') :
    w.OnlyLogs w'' := by
  obtain ⟨log, rfl⟩ := h
  obtain ⟨log', rfl⟩ := h'
  exact ⟨log', rfl⟩

theorem World.OnlyLogs.store {w w' : World σ} (h : w.OnlyLogs w') : w'.store = w.store := by
  obtain ⟨log, rfl⟩ := h
  rfl

theorem World.OnlyLogs.examples {w w' : World σ} (h : w.OnlyLogs w') :
    w'.examples = w.examples := by
  obtain ⟨log, rfl⟩ := h
  rfl

theorem Run.onlyLogs_of_tell {records : List Log.Record} {w w' : World σ} {u : Unit}
    (h : Returns (tell records : Run σ Unit) w u w') : w.OnlyLogs w' :=
  ⟨_, tell_iff.mp h⟩

/-! ## Path items -/

namespace PathItem

/-- Some path items with the operations of a resource put into them, one after the other. -/
def offer (r : Resource) (options : Options) (backend : Option Backend) :
    List Operation → Fields Node → Except Error (Fields Node)
  | [], paths => .ok paths
  | op :: rest, paths => do
    let part ← operation r op options backend
    offer r options backend rest (putOperation (pathOf r op) op.verb part paths)

theorem offer_of_returns {r : Resource} {options : Options} {backend : Option Backend}
    {ops : List Operation} {paths paths' : Fields Node} {w w' : World σ}
    (h : Returns (addOperations r options backend ops paths) w paths' w') :
    offer r options backend ops paths = .ok paths' ∧ w.OnlyLogs w' := by
  induction ops generalizing paths w with
  | nil =>
      obtain ⟨rfl, rfl⟩ := Returns.pure_iff.mp h
      exact ⟨rfl, .refl w⟩
  | cons op rest ih =>
      rw [addOperations] at h
      obtain ⟨_, w₁, ht, h⟩ := Returns.bind_iff.mp h
      obtain ⟨part, w₂, hp, h⟩ := Returns.bind_iff.mp h
      obtain ⟨hpart, rfl⟩ := Run.reading_iff.mp hp
      obtain ⟨ho, hl⟩ := ih h
      -- the operation itself is computed without touching the world
      refine ⟨?_, (Run.onlyLogs_of_tell ht).trans hl⟩
      rw [offer, hpart]
      exact ho

theorem returns_of_offer {r : Resource} {options : Options} {backend : Option Backend}
    {ops : List Operation} {paths paths' : Fields Node} (w : World σ)
    (h : offer r options backend ops paths = .ok paths') :
    ∃ w', Returns (addOperations r options backend ops paths) w paths' w' := by
  induction ops generalizing paths w with
  | nil =>
      cases h
      exact ⟨w, rfl⟩
  | cons op rest ih =>
      rw [offer] at h
      cases hp : operation r op options backend with
      | error e => rw [hp] at h; cases h
      | ok part =>
          rw [hp] at h
          obtain ⟨w', hw'⟩ := ih { w with log := w.log ++
            [(⟨.paths, .debug, s!"{op.verb.text} {pathOf r op} -> {op.name}"⟩ : Log.Record)] } h
          exact ⟨w', Returns.bind_iff.mpr ⟨(), _, Run.tell_iff.mpr rfl,
            Returns.bind_iff.mpr ⟨part, _, Run.reading_iff.mpr ⟨hp, rfl⟩, hw'⟩⟩⟩

/-- The path items of a resource, whose methods have to be keys. -/
def items (r : Resource) (options : Options) (backend : Option Backend) :
    Except Error (Fields Node) := do
  let _ ← r.unknownMethods
  offer r options backend r.operations (roots r)

/-- The path items of a resource need no objects and ask for no examples. -/
theorem items_of_returns {r : Resource} {options : Options} {backend : Option Backend}
    {paths : Fields Node} {w w' : World σ} (h : Returns (ofResource r options backend) w paths w') :
    items r options backend = .ok paths ∧ w.OnlyLogs w' := by
  rw [ofResource] at h
  obtain ⟨unknown, w₁, hu, h⟩ := Returns.bind_iff.mp h
  obtain ⟨hmethods, rfl⟩ := Run.reading_iff.mp hu
  obtain ⟨_, w₂, ht, h⟩ := Returns.bind_iff.mp h
  obtain ⟨ho, hl⟩ := offer_of_returns h
  refine ⟨?_, (Run.onlyLogs_of_tell ht).trans hl⟩
  rw [items, hmethods]
  exact ho

theorem returns_of_items {r : Resource} {options : Options} {backend : Option Backend}
    {paths : Fields Node} (w : World σ) (h : items r options backend = .ok paths) :
    ∃ w', Returns (ofResource r options backend) w paths w' := by
  rw [items] at h
  cases hu : r.unknownMethods with
  | error e => rw [hu] at h; cases h
  | ok unknown =>
      rw [hu] at h
      obtain ⟨w', hw'⟩ := returns_of_offer
        { w with log := w.log ++ unknown.flatMap (skipped r) } h
      exact ⟨w', Returns.bind_iff.mpr ⟨unknown, w, Run.reading_iff.mpr ⟨hu, rfl⟩,
        Returns.bind_iff.mpr ⟨(), _, Run.tell_iff.mpr rfl, hw'⟩⟩⟩

/-- What is put into path items one after the other keeps what every operation keeps. -/
theorem offer_induction {r : Resource} {options : Options} {backend : Option Backend}
    {P : Fields Node → Prop}
    (hput : ∀ op ∈ r.operations, ∀ part paths, operation r op options backend = .ok part →
      P paths → P (putOperation (pathOf r op) op.verb part paths))
    {ops : List Operation} (hops : ∀ op ∈ ops, op ∈ r.operations) {paths paths' : Fields Node}
    (hp : P paths) (h : offer r options backend ops paths = .ok paths') : P paths' := by
  induction ops generalizing paths with
  | nil =>
      cases h
      exact hp
  | cons op rest ih =>
      rw [offer] at h
      cases hpart : operation r op options backend with
      | error e => rw [hpart] at h; cases h
      | ok part =>
          rw [hpart] at h
          exact ih (fun o ho => hops o (List.mem_cons_of_mem _ ho))
            (hput op (hops op List.mem_cons_self) part paths hpart hp) h

theorem items_induction {r : Resource} {options : Options} {backend : Option Backend}
    {P : Fields Node → Prop} (hroots : P (roots r))
    (hput : ∀ op ∈ r.operations, ∀ part paths, operation r op options backend = .ok part →
      P paths → P (putOperation (pathOf r op) op.verb part paths))
    {paths : Fields Node} (h : items r options backend = .ok paths) : P paths := by
  rw [items] at h
  cases hu : r.unknownMethods with
  | error e => rw [hu] at h; cases h
  | ok unknown =>
      rw [hu] at h
      exact offer_induction hput (fun _ ho => ho) hroots h

/-- The fields of an operation. -/
theorem operation_eq {r : Resource} {op : Operation} {options : Options}
    {backend : Option Backend} {part : Node} (h : operation r op options backend = .ok part) :
    ∃ gateway, integration? r op options backend = .ok gateway ∧ part = .map ([
      ("description", .text (op.describe (Naming.title r.name))),
      ("operationId", .text op.name),
      ("parameters", .list (parameters r op)),
      ("responses", .map [
        ("200", .map [("description", .text (op.describe (Naming.title r.name))),
          ("schema", answerSchema r op)])])]
      ++ Definition.optional gatewayField gateway) := by
  rw [operation] at h
  cases hi : integration? r op options backend with
  | error e => rw [hi] at h; cases h
  | ok gateway =>
      rw [hi] at h
      exact ⟨gateway, rfl, (Except.ok.inj h).symm⟩

theorem integration?_cases {r : Resource} {op : Operation} {options : Options}
    {backend : Option Backend} {gateway : Option Node}
    (h : integration? r op options backend = .ok gateway) :
    (options.apiGateway = false ∧ gateway = none) ∨
      ∃ b part, options.apiGateway = true ∧ backend = some b ∧ integration r op b = .ok part ∧
        gateway = some part := by
  unfold integration? at h
  cases hg : options.apiGateway with
  | false =>
      rw [hg] at h
      cases h
      exact Or.inl ⟨rfl, rfl⟩
  | true =>
      rw [hg] at h
      cases backend with
      | none => cases h
      | some b =>
          dsimp only [if_true] at h
          cases hi : integration r op b with
          | error e => rw [hi] at h; cases h
          | ok part =>
              rw [hi] at h
              cases h
              exact Or.inr ⟨b, part, rfl, rfl, hi, rfl⟩

/-- The fields of a gateway integration. -/
theorem integration_eq {r : Resource} {op : Operation} {backend : Backend} {part : Node}
    (h : integration r op backend = .ok part) : ∃ uri, part = .map [
      ("type", .text "http"),
      ("uri", .text uri),
      ("httpMethod", .text op.verb.text),
      ("requestParameters", .map ((PathTemplate.parse r.path op.onCollection).params.map
        fun (name, _) =>
          ("integration.request.path." ++ name, .text ("method.request.path." ++ name)))),
      ("requestTemplates", .map [("application/json", .text forwardedRequest)]),
      ("responses", .map [(successStatuses, .map [("statusCode", .text "200")])])] := by
  rw [integration] at h
  cases huri : backend.uri (PathTemplate.parse r.path op.onCollection).display with
  | error e => rw [huri] at h; cases h
  | ok uri =>
      rw [huri] at h
      exact ⟨uri, (Except.ok.inj h).symm⟩

/-- The paths of a resource are those of its collection and of its items, and hold nothing but
the name of the collection. -/
theorem mem_roots {r : Resource} {entry : String × Node} (h : entry ∈ roots r) :
    (∃ collection, entry.1 = (PathTemplate.parse r.path collection).display) ∧
      entry.2 = .map [(tagField, .text (Naming.pascalCase r.name))] := by
  unfold roots at h
  generalize hcollection : (PathTemplate.parse r.path true).display = collection at h
  generalize hitem : (PathTemplate.parse r.path false).display = item at h
  -- where both paths are one, there is one path item
  have hmem : entry = (collection, .map [(tagField, .text (Naming.pascalCase r.name))]) ∨
      entry = (item, .map [(tagField, .text (Naming.pascalCase r.name))]) := by
    by_cases heq : item = collection
    · rw [if_pos heq, List.mem_singleton] at h
      exact Or.inl h
    · rw [if_neg heq, List.mem_cons, List.mem_singleton] at h
      exact h
  rcases hmem with rfl | rfl
  · exact ⟨⟨true, hcollection.symm⟩, rfl⟩
  · exact ⟨⟨false, hitem.symm⟩, rfl⟩

theorem nodup_roots {r : Resource} : (roots r).names.Nodup := by
  unfold roots
  generalize (PathTemplate.parse r.path true).display = collection
  generalize (PathTemplate.parse r.path false).display = item
  by_cases heq : item = collection
  · rw [if_pos heq]
    simp [Fields.names]
  · rw [if_neg heq]
    simp [Fields.names, Ne.symm heq]

/-! ### What holds throughout path items -/

/-- The field that refers to a definition. -/
def referenceField : String := "$ref"

theorem ofList_ne_referenceField {c : Char} (hc : c ≠ '$') (cs : List Char) :
    String.ofList (c :: cs) ≠ referenceField := by
  intro h
  have h' := congrArg String.toList h
  rw [String.toList_ofList] at h'
  exact hc (List.cons.inj h').1

/-- A displayed path begins with a slash. -/
theorem display_ne_referenceField (raw : String) (collection : Bool) :
    (PathTemplate.parse raw collection).display ≠ referenceField := by
  unfold PathTemplate.parse PathTemplate.ofSegments
  exact ofList_ne_referenceField (by decide) _

theorem pathOf_ne_referenceField (r : Resource) (op : Operation) :
    pathOf r op ≠ referenceField :=
  display_ne_referenceField r.path op.onCollection

theorem parameterKey_ne_referenceField (name : String) :
    "integration.request.path." ++ name ≠ referenceField := by
  intro h
  have h' := congrArg (fun s => s.toList.head?) h
  simp [referenceField] at h'

section

variable {field : String → Node → Prop}
  (hfield : ∀ name part, name ≠ referenceField → field name part)
  {r : Resource} {op : Operation}
  (hresponse : field referenceField
    (.text (Definition.address (Definition.responseName r.name))))
  (hmodify : r.isReadOnly = false → field referenceField
    (.text (Definition.address (Definition.requestName r.name))))

theorem reference_all {key : String} (h : field referenceField (.text (Definition.address key))) :
    Node.All Node.isWord field (Definition.reference key) :=
  ⟨⟨h, trivial⟩, trivial⟩

include hfield

theorem parameterNamed_all (name : String) (hint : Option String) :
    Node.All Node.isWord field (parameterNamed r name hint) := by
  simp (disch := decide) [parameterNamed, Node.All, Node.AllFields, Node.isWord, hfield]

include hmodify

theorem parameters_all {x : Node} (hx : x ∈ parameters r op) :
    Node.All Node.isWord field x := by
  rcases List.mem_append.mp hx with h | h
  · obtain ⟨⟨name, hint⟩, _, rfl⟩ := List.mem_map.mp h
    exact parameterNamed_all hfield name hint
  · split at h
    · rename_i hmod
      rw [List.mem_singleton] at h
      subst h
      have hro : r.isReadOnly = false := by
        simpa using (Bool.and_eq_true_iff.mp hmod).2
      have href := reference_all (hmodify hro)
      simp (disch := decide) [contentsParameter, Node.All, Node.AllFields, Node.isWord, hfield,
        href]
    · simp at h

omit hmodify

include hresponse

theorem answerSchema_all : Node.All Node.isWord field (answerSchema r op) := by
  unfold answerSchema
  dsimp only
  split
  · simp (disch := decide) [Node.All, Node.AllFields, Node.isWord, hfield,
      reference_all hresponse]
  · exact reference_all hresponse

omit hresponse

theorem integration_all {backend : Backend} {part : Node}
    (h : integration r op backend = .ok part) : Node.All Node.isWord field part := by
  obtain ⟨uri, rfl⟩ := integration_eq h
  have hparams : ∀ params : Fields (Option String), Node.AllFields Node.isWord field
      (params.map fun (name, _) => ("integration.request.path." ++ name,
        Node.text ("method.request.path." ++ name))) := by
    intro params
    rw [Node.allFields_iff]
    intro entry hentry
    obtain ⟨⟨name, hint⟩, _, rfl⟩ := List.mem_map.mp hentry
    exact ⟨hfield _ _ (parameterKey_ne_referenceField name), trivial⟩
  simp (disch := decide) [Node.All, Node.AllFields, Node.isWord, hfield, hparams,
    successStatuses]

theorem putOperation_all {path : String} {verb : Verb} {part : Node} {paths : Fields Node}
    (hpart : Node.All Node.isWord field part)
    (hpaths : Node.AllFields Node.isWord field paths) (hpath : path ≠ referenceField) :
    Node.AllFields Node.isWord field (putOperation path verb part paths) := by
  unfold putOperation
  split
  · rename_i fields hget
    have hitem := (Node.allFields_iff.mp hpaths _ (Fields.mem_of_get? hget)).2
    have hverb : verb.key ≠ referenceField := by cases verb <;> decide
    exact Node.allFields_put hpaths (hfield _ _ hpath)
      (Node.allFields_put hitem (hfield _ _ hverb) hpart)
  · exact hpaths

theorem roots_all {entry : String × Node} (hentry : entry ∈ roots r) :
    field entry.1 entry.2 ∧ Node.All Node.isWord field entry.2 := by
  obtain ⟨⟨collection, hname⟩, hpart⟩ := mem_roots hentry
  rw [hname, hpart]
  exact ⟨hfield _ _ (display_ne_referenceField r.path collection),
    ⟨hfield _ _ (by decide), trivial⟩, trivial⟩

include hresponse hmodify

/-- What holds of all fields but references holds throughout an operation, if it holds of the
references to the definitions of the resource. -/
theorem operation_all {options : Options} {backend : Option Backend} {part : Node}
    (h : operation r op options backend = .ok part) : Node.All Node.isWord field part := by
  obtain ⟨gateway, hgateway, rfl⟩ := operation_eq h
  have hparameters : Node.AllItems Node.isWord field (parameters r op) := by
    rw [Node.allItems_iff]
    intro x hx
    exact parameters_all hfield hmodify hx
  have hschema : Node.All Node.isWord field (answerSchema r op) :=
    answerSchema_all hfield hresponse
  have hoptional : Node.AllFields Node.isWord field
      (Definition.optional gatewayField gateway) := by
    rcases integration?_cases hgateway with ⟨_, rfl⟩ | ⟨b, integrated, _, _, hi, rfl⟩
    · trivial
    · exact ⟨⟨hfield _ _ (by decide), integration_all hfield hi⟩, trivial⟩
  simp (disch := decide) [Node.All, Node.AllFields, Node.isWord, hfield, hparameters, hschema,
    hoptional]

/-- What holds of all fields but references holds throughout the path items of a resource, if it
holds of the references to its definitions. -/
theorem items_all {options : Options} {backend : Option Backend} {paths : Fields Node}
    (h : items r options backend = .ok paths) : Node.AllFields Node.isWord field paths := by
  refine items_induction (P := Node.AllFields Node.isWord field) ?_ ?_ h
  · rw [Node.allFields_iff]
    intro entry hentry
    exact roots_all hfield hentry
  · intro op _ part paths hpart hpaths
    exact putOperation_all hfield (operation_all hfield hresponse hmodify hpart) hpaths
      (pathOf_ne_referenceField r op)

end

/-- The path items of a resource are made of words. -/
theorem items_words {r : Resource} {options : Options} {backend : Option Backend}
    {paths : Fields Node} (h : items r options backend = .ok paths) :
    Node.AllFields Node.isWord (fun _ _ => True) paths :=
  items_all (fun _ _ _ => trivial) trivial (fun _ => trivial) h

/-- The path items of a resource refer to no object. -/
theorem items_plain {r : Resource} {options : Options} {backend : Option Backend}
    {paths : Fields Node} (h : items r options backend = .ok paths) : Node.PlainFields paths :=
  (items_words h).mono (fun _ => Node.isScalar_of_isWord) (fun _ _ h => h)

end PathItem

/-! ## Definitions -/

namespace Definition

/-- The example is an answer of the generator, if it is asked because the author gives none, and
else it is the author's. -/
theorem exampleOf_cases {generator : Option (Generator σ)} {property : Property}
    {value : Option Node} {w w' : World σ} (h : Returns (exampleOf generator property) w value w') :
    ∃ v, value = (if v = .null then none else some (.leaf v)) ∧ w'.store = w.store ∧
      ((∃ g, property.example? = .null ∧ generator = some g ∧
          (g.ask w.store (DataType.ofName property.type).exampleKey w.examples).result = .ok v ∧
          w'.examples =
            (g.ask w.store (DataType.ofName property.type).exampleKey w.examples).state) ∨
        (¬ (property.example? = .null ∧ generator.isSome = true) ∧ v = property.example? ∧
          w'.examples = w.examples)) := by
  unfold exampleOf at h
  dsimp only at h
  split at h
  · rename_i g hnull
    obtain ⟨v, w₁, hask, h⟩ := Returns.bind_iff.mp h
    obtain ⟨rfl, rfl⟩ := Returns.pure_iff.mp h
    obtain ⟨hresult, rfl⟩ := Run.ask_iff.mp hask
    exact ⟨v, rfl, rfl, Or.inl ⟨g, hnull, rfl, hresult, rfl⟩⟩
  · rename_i hneither
    obtain ⟨v, w₁, hv, h⟩ := Returns.bind_iff.mp h
    obtain ⟨rfl, rfl⟩ := Returns.pure_iff.mp hv
    obtain ⟨rfl, rfl⟩ := Returns.pure_iff.mp h
    refine ⟨property.example?, rfl, rfl, Or.inr ⟨?_, rfl, rfl⟩⟩
    rintro ⟨hnull, hsome⟩
    obtain ⟨g, rfl⟩ := Option.isSome_iff_exists.mp hsome
    exact hneither g hnull rfl

/-- An example that is shown is the value that there is. -/
theorem in_of_shown {S : Nat → Prop} {v : Value} {part : Node}
    (h : (if v = .null then none else some (Node.leaf v)) = some part) (hv : v.In S) :
    part.In S := by
  split at h
  · cases h
  · cases h
    exact hv

/-- The fields of a schema. -/
theorem schemaWith_eq (st : Store) (resource name : String) (property : Property)
    (options : Options) (example? : Option Node) :
    ∃ validator : Option String, (options.validators = false → validator = none) ∧
      schemaWith st resource name property options example? = .map (
        [("type", .text (DataType.ofName property.type).type),
          ("description", descriptionOf st resource name property)]
        ++ optional "example" example? ++ optional validatorField (validator.map .text)) := by
  refine ⟨_, ?_, rfl⟩
  intro hoff
  rw [hoff]
  rfl

/-- Objects come into a schema by its description and its example only. -/
theorem schemaWith_fields (st : Store) (resource name : String) (property : Property)
    (options : Options) (example? : Option Node) :
    ∃ fields, schemaWith st resource name property options example? = .map fields ∧
      ∀ entry ∈ fields, entry = ("type", .text (DataType.ofName property.type).type) ∨
        entry = ("description", descriptionOf st resource name property) ∨
        (∃ part, example? = some part ∧ entry = ("example", part)) ∨
        ∃ text, entry = (validatorField, .text text) := by
  obtain ⟨validator, _, heq⟩ := schemaWith_eq st resource name property options example?
  refine ⟨_, heq, fun entry hentry => ?_⟩
  rcases List.mem_append.mp hentry with hentry | hentry
  · rcases List.mem_append.mp hentry with hentry | hentry
    · rcases List.mem_cons.mp hentry with rfl | hentry
      · exact Or.inl rfl
      · exact Or.inr (Or.inl (List.mem_singleton.mp hentry))
    · cases example? with
      | none => cases hentry
      | some part => exact Or.inr (Or.inr (Or.inl ⟨part, rfl, List.mem_singleton.mp hentry⟩))
  · cases validator with
    | none => cases hentry
    | some text => exact Or.inr (Or.inr (Or.inr ⟨text, List.mem_singleton.mp hentry⟩))

theorem descriptionOf_in {S : Nat → Prop} {st : Store} {property : Property}
    (h : st.holds property.description = true → property.description.In S)
    (resource name : String) : (descriptionOf st resource name property).In S := by
  unfold descriptionOf
  split
  · rename_i hholds
    exact h hholds
  · trivial

/-- A schema is made from the store as it is, and leaves it so. -/
theorem schema_cases {resource name : String} {property : Property} {options : Options}
    {generator : Option (Generator σ)} {part : Node} {w w' : World σ}
    (h : Returns (schema resource name property options generator) w part w') :
    ∃ w₁ example?, w.OnlyLogs w₁ ∧
      Returns (shownExample property options generator) w₁ example? w' ∧
      schemaWith w.store resource name property options example? = part := by
  rw [schema] at h
  obtain ⟨_, w₁, ht, h⟩ := Returns.bind_iff.mp h
  obtain ⟨_, _, hget, h⟩ := Returns.bind_iff.mp h
  obtain ⟨rfl, rfl⟩ := Returns.get_iff.mp hget
  obtain ⟨example?, w₂, hex, h⟩ := Returns.bind_iff.mp h
  obtain ⟨rfl, rfl⟩ := Returns.pure_iff.mp h
  have hl := Run.onlyLogs_of_tell ht
  refine ⟨w₁, example?, hl, hex, ?_⟩
  rw [hl.store]

theorem shownExample_store {property : Property} {options : Options}
    {generator : Option (Generator σ)} {example? : Option Node} {w w' : World σ}
    (h : Returns (shownExample property options generator) w example? w') :
    w'.store = w.store := by
  unfold shownExample at h
  split at h
  · obtain ⟨_, _, hstore, _⟩ := exampleOf_cases h
    exact hstore
  · obtain ⟨_, rfl⟩ := Returns.pure_iff.mp h
    rfl

/-- Without examples there is none to show, and nobody is asked. -/
theorem shownExample_off {property : Property} {options : Options}
    {generator : Option (Generator σ)} {example? : Option Node} {w w' : World σ}
    (hoff : options.examples = false)
    (h : Returns (shownExample property options generator) w example? w') : example? = none := by
  unfold shownExample at h
  rw [if_neg (by rw [hoff]; exact Bool.false_ne_true)] at h
  exact (Returns.pure_iff.mp h).1.symm

/-- The schemas of some properties are the schema of the first one and those of the others. -/
theorem schemas_cons {resource name : String} {property : Property} {rest : Fields Property}
    {options : Options} {generator : Option (Generator σ)} {parts : Fields Node} {w w' : World σ}
    (h : Returns (schemas resource options generator ((name, property) :: rest)) w parts w') :
    ∃ example? more u v, w.OnlyLogs u ∧
      Returns (shownExample property options generator) u example? v ∧ v.store = w.store ∧
      Returns (schemas resource options generator rest) v more w' ∧
      parts = (name, schemaWith w.store resource name property options example?) :: more := by
  rw [schemas] at h
  obtain ⟨part, v, hpart, h⟩ := Returns.bind_iff.mp h
  obtain ⟨more, w₂, hrest, h⟩ := Returns.bind_iff.mp h
  obtain ⟨rfl, rfl⟩ := Returns.pure_iff.mp h
  obtain ⟨u, example?, hl, hex, rfl⟩ := schema_cases hpart
  exact ⟨example?, more, u, v, hl, hex, (shownExample_store hex).trans hl.store, hrest, rfl⟩

theorem schemas_cases {resource : String} {options : Options} {generator : Option (Generator σ)}
    {properties : Fields Property} {parts : Fields Node} {w w' : World σ}
    (h : Returns (schemas resource options generator properties) w parts w') :
    w'.store = w.store ∧ parts.names = properties.names := by
  induction properties generalizing parts w with
  | nil =>
      obtain ⟨rfl, rfl⟩ := Returns.pure_iff.mp h
      exact ⟨rfl, rfl⟩
  | cons entry rest ih =>
      rcases entry with ⟨name, property⟩
      obtain ⟨_, _, _, _, _, _, hfirst, hrest, rfl⟩ := schemas_cons h
      obtain ⟨hstore, hnames⟩ := ih hrest
      refine ⟨hstore.trans hfirst, ?_⟩
      rw [Fields.names, Fields.names, List.map_cons, List.map_cons]
      exact congrArg _ hnames

/-- The definition that a list of schemas makes. -/
def withSchemas (properties : Fields Property) (parts : Fields Node) : Node :=
  .map [("type", .text "object"), ("required", .list ((requiredNames properties).map .text)),
    ("properties", .map parts)]

/-- The names of the properties that are required are texts. -/
theorem requiredNames_in {S : Nat → Prop} (properties : Fields Property) :
    Node.In S (.list ((requiredNames properties).map .text)) := by
  rw [Node.In, Node.All, Node.allItems_iff]
  intro x hx
  obtain ⟨name, _, rfl⟩ := List.mem_map.mp hx
  trivial

theorem build_cases {resource : String} {declared : Value} {options : Options}
    {generator : Option (Generator σ)} {part : Node} {w w' : World σ}
    (h : Returns (build resource declared options generator) w part w') :
    ∃ properties parts, declaredProperties w.store declared = .ok properties ∧
      Returns (schemas resource options generator properties) w parts w' ∧
      withSchemas properties parts = part := by
  rw [build] at h
  obtain ⟨properties, w₁, hp, h⟩ := Returns.bind_iff.mp h
  obtain ⟨hdeclared, rfl⟩ := Run.reading_iff.mp hp
  obtain ⟨parts, w₂, hs, h⟩ := Returns.bind_iff.mp h
  obtain ⟨rfl, rfl⟩ := Returns.pure_iff.mp h
  exact ⟨properties, parts, hdeclared, hs, rfl⟩

theorem build_store {resource : String} {declared : Value} {options : Options}
    {generator : Option (Generator σ)} {part : Node} {w w' : World σ}
    (h : Returns (build resource declared options generator) w part w') :
    w'.store = w.store := by
  obtain ⟨_, _, _, hs, _⟩ := build_cases h
  exact (schemas_cases hs).1

/-- A resource has a definition of its answers, and one of its requests unless it cannot be
changed. -/
theorem ofResource_cases {r : Resource} {options : Options} {generator : Option (Generator σ)}
    {definitions : Fields Node} {w w' : World σ}
    (h : Returns (ofResource r options generator) w definitions w') :
    ∃ response w₁, Returns (build r.name r.response options generator) w response w₁ ∧
      ((r.isReadOnly = true ∧ definitions = [(responseName r.name, response)] ∧ w' = w₁) ∨
        ∃ modify, r.isReadOnly = false ∧
          Returns (build r.name r.modify options generator) w₁ modify w' ∧
          definitions = [(responseName r.name, response), (requestName r.name, modify)]) := by
  rw [ofResource] at h
  obtain ⟨response, w₁, hr, h⟩ := Returns.bind_iff.mp h
  refine ⟨response, w₁, hr, ?_⟩
  cases hro : r.isReadOnly with
  | true =>
      rw [hro] at h
      obtain ⟨rfl, rfl⟩ := Returns.pure_iff.mp h
      exact Or.inl ⟨rfl, rfl, rfl⟩
  | false =>
      rw [hro] at h
      obtain ⟨modify, w₂, hm, h⟩ := Returns.bind_iff.mp h
      obtain ⟨rfl, rfl⟩ := Returns.pure_iff.mp h
      exact Or.inr ⟨modify, rfl, hm, rfl⟩

theorem ofResource_store {r : Resource} {options : Options} {generator : Option (Generator σ)}
    {definitions : Fields Node} {w w' : World σ}
    (h : Returns (ofResource r options generator) w definitions w') : w'.store = w.store := by
  obtain ⟨response, w₁, hr, ⟨_, _, rfl⟩ | ⟨modify, _, hm, _⟩⟩ := ofResource_cases h
  · exact build_store hr
  · rw [build_store hm, build_store hr]

/-- The keys of the definitions of a resource. -/
theorem names_ofResource {r : Resource} {options : Options} {generator : Option (Generator σ)}
    {definitions : Fields Node} {w w' : World σ}
    (h : Returns (ofResource r options generator) w definitions w') :
    definitions.names = responseName r.name ::
      if r.isReadOnly then [] else [requestName r.name] := by
  obtain ⟨response, w₁, _, ⟨hro, rfl, _⟩ | ⟨modify, hro, _, rfl⟩⟩ := ofResource_cases h
  · rw [hro]
    rfl
  · rw [hro]
    rfl

/-- No key is one of answers and one of requests. -/
theorem responseName_ne_requestName (a b : String) : responseName a ≠ requestName b := by
  intro h
  -- they end in different letters
  have hlast := congrArg (fun s => s.toList.getLast?) h
  simp [responseName, requestName] at hlast

/-- The keys of the definitions of a resource are made of its name. -/
theorem mem_names_ofResource {r : Resource} {options : Options} {generator : Option (Generator σ)}
    {definitions : Fields Node} {w w' : World σ}
    (h : Returns (ofResource r options generator) w definitions w') {key : String}
    (hkey : key ∈ definitions.names) : key = responseName r.name ∨ key = requestName r.name := by
  rw [names_ofResource h] at hkey
  rcases List.mem_cons.mp hkey with hkey | hkey
  · exact Or.inl hkey
  · split at hkey
    · simp at hkey
    · exact Or.inr (List.mem_singleton.mp hkey)

theorem nodup_names_ofResource {r : Resource} {options : Options}
    {generator : Option (Generator σ)} {definitions : Fields Node} {w w' : World σ}
    (h : Returns (ofResource r options generator) w definitions w') :
    definitions.names.Nodup := by
  rw [names_ofResource h]
  split
  · exact List.pairwise_singleton _ _
  · simpa using responseName_ne_requestName r.name r.name

/-- Two keys of one kind are the same only if the names come to the same in PascalCase. -/
theorem pascalCase_eq_of_key {a b key : String}
    (ha : key = responseName a ∨ key = requestName a)
    (hb : key = responseName b ∨ key = requestName b) :
    Naming.pascalCase a = Naming.pascalCase b := by
  rcases ha with ha | ha <;> rcases hb with hb | hb
  · exact (String.append_left_inj _).mp (ha.symm.trans hb)
  · exact absurd (ha.symm.trans hb) (responseName_ne_requestName a b)
  · exact absurd (hb.symm.trans ha) (responseName_ne_requestName b a)
  · exact (String.append_left_inj _).mp (ha.symm.trans hb)

/-- Definitions with new keys meet nothing. -/
theorem meetingsFields_ofResource {r : Resource} {options : Options}
    {generator : Option (Generator σ)} {definitions : Fields Node} {w w' : World σ}
    (h : Returns (ofResource r options generator) w definitions w') {target : Fields Node}
    (hresponse : responseName r.name ∉ target.names) (hrequest : requestName r.name ∉ target.names)
    (maps : Nat → Bool) : Node.meetingsFields maps target definitions = [] := by
  refine Node.meetingsFields_of_disjoint (nodup_names_ofResource h) fun key hkey => ?_
  rcases mem_names_ofResource h hkey with heq | heq
  · rw [heq]
    exact hresponse
  · rw [heq]
    exact hrequest

end Definition

/-! ## Documents -/

/-- The value at a text key, if the tree is a mapping that has one. -/
def Tree.at? (name : String) : Tree → Option Tree
  | .map es => Entries.get? es name
  | _ => none

namespace Document

theorem tree_paths (st : Store) (d : Document) :
    (d.tree st).at? "paths" = some (.map (Node.entries st d.paths)) := by
  rw [tree, Tree.at?, Entries.get?_put_of_ne (by decide), Entries.get?_put_self]

theorem tree_definitions (st : Store) (d : Document) :
    (d.tree st).at? "definitions" = some (.map (Node.entries st d.definitions)) := by
  rw [tree, Tree.at?, Entries.get?_put_self]

/-- What a resource adds to a document: its definitions and its path items are merged in, and
only the definitions can make objects meet. -/
theorem addResource_cases {d d' : Document} {r : Resource} {options : Options} {backend : Backend}
    {generator : Option (Generator σ)} {w w' : World σ}
    (h : Returns (addResource d r options backend generator) w d' w') :
    ∃ definitions items w₁, Returns (Definition.ofResource r options generator) w definitions w₁ ∧
      PathItem.items r options (some backend) = .ok items ∧
      d' = { d with
        definitions := Node.overlayFields w.store.isMapping d.definitions definitions
        paths := Node.overlayFields w.store.isMapping d.paths items } ∧
      Returns (Store.mergeAll (Node.meetingsFields w.store.isMapping d.definitions definitions))
        w.store () w'.store ∧ w'.examples = w₁.examples := by
  rw [addResource] at h
  obtain ⟨definitions, w₁, hdefs, h⟩ := Returns.bind_iff.mp h
  obtain ⟨merged, w₂, hmerge, h⟩ := Returns.bind_iff.mp h
  obtain ⟨items, w₃, hitems, h⟩ := Returns.bind_iff.mp h
  obtain ⟨paths, w₄, hpaths, h⟩ := Returns.bind_iff.mp h
  obtain ⟨rfl, rfl⟩ := Returns.pure_iff.mp h
  obtain ⟨st, hst, rfl⟩ := Run.onStore_iff.mp hmerge
  obtain ⟨hoffer, hlogs⟩ := PathItem.items_of_returns hitems
  obtain ⟨st', hst', rfl⟩ := Run.onStore_iff.mp hpaths
  obtain ⟨rfl, hmeet⟩ := (Node.mergeFields_iff _ _).mp hst
  obtain ⟨rfl, hnone⟩ := (Node.mergeFields_iff _ _).mp hst'
  -- the definitions are made in the store that the resource was read from, and path items hold
  -- no objects that could meet
  rw [Definition.ofResource_store hdefs] at hmeet
  rw [Node.meetingsFields_plain (PathItem.items_plain hoffer)] at hnone
  obtain ⟨_, hst'⟩ := Returns.pure_iff.mp hnone
  have hmaps : w₃.store.isMapping = w.store.isMapping := by
    rw [hlogs.store]
    exact Node.isMapping_of_mergeAll (Node.isMapping_of_meetingsFields _ _) hmeet
  refine ⟨definitions, items, w₁, hdefs, hoffer, ?_, ?_, hlogs.examples⟩
  · rw [hmaps, Definition.ofResource_store hdefs]
  · rw [← hst', hlogs.store]
    exact hmeet

/-- A resource brings no key of another name. -/
theorem not_mem_names_addResource {d d' : Document} {r : Resource} {options : Options}
    {backend : Backend} {generator : Option (Generator σ)} {w w' : World σ}
    (h : Returns (addResource d r options backend generator) w d' w') {name key : String}
    (hkey : key = Definition.responseName name ∨ key = Definition.requestName name)
    (hne : Naming.pascalCase r.name ≠ Naming.pascalCase name)
    (hd : key ∉ d.definitions.names) : key ∉ d'.definitions.names := by
  obtain ⟨definitions, _, _, hdefs, _, rfl, _⟩ := addResource_cases h
  intro hin
  rcases Node.mem_names_overlayFields.mp hin with hin | hin
  · exact hd hin
  · exact hne (Definition.pascalCase_eq_of_key (Definition.mem_names_ofResource hdefs hin) hkey)

/-- The resource that a declaration describes under its name. -/
def resourceOf (st : Store) (name decl : Value) : Except Error Resource := do
  Resource.ofModel st (← (st.tree name).display) decl

/-- Merging what declared resources contribute into a document: the resources are read one after
the other, from the store as the earlier ones have left it. -/
inductive Assembles (options : Options) (backend : Backend) (generator : Option (Generator σ)) :
    List (Value × Value) → Document → World σ → List Resource → Document → World σ → Prop where
  | done {d : Document} {w : World σ} : Assembles options backend generator [] d w [] d w
  | next {name decl : Value} {rest : List (Value × Value)} {d d₁ d' : Document}
      {w w₁ w' : World σ} {r : Resource} {rs : List Resource} :
      resourceOf w.store name decl = .ok r →
      Returns (addResource d r options backend generator)
        { w with log := w.log ++ generating w.store name } d₁ w₁ →
      Assembles options backend generator rest d₁ w₁ rs d' w' →
      Assembles options backend generator ((name, decl) :: rest) d w (r :: rs) d' w'

theorem addModels_iff {options : Options} {backend : Backend} {generator : Option (Generator σ)}
    {models : List (Value × Value)} {d d' : Document} {w w' : World σ} :
    Returns (addModels options backend generator models d) w d' w' ↔
      ∃ rs, Assembles options backend generator models d w rs d' w' := by
  induction models generalizing d w with
  | nil =>
      constructor
      · intro h
        obtain ⟨rfl, rfl⟩ := Returns.pure_iff.mp h
        exact ⟨[], .done⟩
      · rintro ⟨rs, h⟩
        cases h
        rfl
  | cons model rest ih =>
      -- one resource is read and added, and the rest is run on what it leaves
      rcases model with ⟨name, decl⟩
      rw [addModels]
      constructor
      · intro h
        obtain ⟨_, _, hget, h⟩ := Returns.bind_iff.mp h
        obtain ⟨rfl, rfl⟩ := Returns.get_iff.mp hget
        obtain ⟨_, w₁, ht, h⟩ := Returns.bind_iff.mp h
        have hw := Run.tell_iff.mp ht
        subst hw
        obtain ⟨r, w₂, hr, h⟩ := Returns.bind_iff.mp h
        obtain ⟨hread, rfl⟩ := Run.reading_iff.mp hr
        obtain ⟨d₁, w₃, hadd, h⟩ := Returns.bind_iff.mp h
        obtain ⟨rs, hrs⟩ := ih.mp h
        exact ⟨r :: rs, .next hread hadd hrs⟩
      · rintro ⟨rs, h⟩
        cases h with
        | next hread hadd hrest =>
            exact Returns.bind_iff.mpr ⟨w, w, rfl, Returns.bind_iff.mpr ⟨(), _,
              Run.tell_iff.mpr rfl, Returns.bind_iff.mpr ⟨_, _,
                Run.reading_iff.mpr ⟨hread, rfl⟩, Returns.bind_iff.mpr ⟨_, _, hadd,
                  ih.mpr ⟨_, hrest⟩⟩⟩⟩⟩

/-- What holds of words holds of all leaves of the path items. -/
theorem leaves_of_assembles {leaf : Value → Prop} (hleaf : ∀ v, Node.isWord v → leaf v)
    {options : Options} {backend : Backend} {generator : Option (Generator σ)}
    {models : List (Value × Value)} {d d' : Document} {w w' : World σ} {rs : List Resource}
    (hd : Node.AllFields leaf (fun _ _ => True) d.paths)
    (h : Assembles options backend generator models d w rs d' w') :
    Node.AllFields leaf (fun _ _ => True) d'.paths := by
  induction h with
  | done => exact hd
  | next _ hadd _ ih =>
      obtain ⟨_, _, _, _, hitems, rfl, _⟩ := addResource_cases hadd
      exact ih (Node.allFields_overlay (fun _ _ _ _ _ => trivial) hd
        ((PathItem.items_words hitems).mono hleaf (fun _ _ h => h)))

/-- No path item refers to an object. -/
theorem plain_of_assembles {options : Options} {backend : Backend}
    {generator : Option (Generator σ)} {models : List (Value × Value)} {d d' : Document}
    {w w' : World σ} {rs : List Resource} (hd : Node.PlainFields d.paths)
    (h : Assembles options backend generator models d w rs d' w') : Node.PlainFields d'.paths :=
  leaves_of_assembles (fun _ => Node.isScalar_of_isWord) hd h

/-- The build of a document reads the resources `rs`, one for each declaration of the manifest,
and returns `d`. -/
def Builds (manifest : Value) (options : Options) (generator : Option (Generator σ))
    (w : World σ) (rs : List Resource) (d : Document) (w' : World σ) : Prop :=
  ∃ baseline backend declared w₁,
    Baseline.ofManifest (w.store.tree manifest) = .ok (.map baseline) ∧
      Backend.ofDocument (.map baseline) = .ok backend ∧
      declarations w.store manifest = .ok declared ∧
      Assembles options backend generator declared { baseline } w rs d w₁ ∧
      { w₁ with log := w₁.log ++ [assembled d] } = w'

/-- **A build returns exactly when the document can be assembled from what the manifest
declares.** -/
theorem build_iff {manifest : Value} {options : Options} {generator : Option (Generator σ)}
    {w w' : World σ} {d : Document} :
    Returns (build manifest options generator) w d w' ↔
      ∃ rs, Builds manifest options generator w rs d w' := by
  rw [build]
  constructor
  · intro h
    obtain ⟨baseline, w₁, hb, h⟩ := Returns.bind_iff.mp h
    obtain ⟨hbaseline, rfl⟩ := Run.reading_iff.mp hb
    obtain ⟨backend, w₂, hk, h⟩ := Returns.bind_iff.mp h
    obtain ⟨hbackend, rfl⟩ := Run.reading_iff.mp hk
    cases baseline with
    | map entries =>
        -- only a baseline that is a mapping names a backend
        obtain ⟨declared, w₃, hd, h⟩ := Returns.bind_iff.mp h
        obtain ⟨hdeclared, rfl⟩ := Run.reading_iff.mp hd
        obtain ⟨d', w₄, ha, h⟩ := Returns.bind_iff.mp h
        obtain ⟨_, w₅, ht, h⟩ := Returns.bind_iff.mp h
        obtain ⟨rfl, rfl⟩ := Returns.pure_iff.mp h
        obtain ⟨rs, hrs⟩ := addModels_iff.mp ha
        exact ⟨rs, entries, backend, declared, w₄, hbaseline, hbackend, hdeclared, hrs,
          Run.tell_iff.mp ht⟩
    | _ => cases hbackend
  · rintro ⟨rs, baseline, backend, declared, w₁, hbaseline, hbackend, hdeclared, hrs, hw⟩
    exact Returns.bind_iff.mpr ⟨_, w, Run.reading_iff.mpr ⟨hbaseline, rfl⟩,
      Returns.bind_iff.mpr ⟨_, w, Run.reading_iff.mpr ⟨hbackend, rfl⟩,
        Returns.bind_iff.mpr ⟨_, w, Run.reading_iff.mpr ⟨hdeclared, rfl⟩,
          Returns.bind_iff.mpr ⟨d, w₁, addModels_iff.mpr ⟨rs, hrs⟩,
            Returns.bind_iff.mpr ⟨(), w', Run.tell_iff.mpr hw, rfl⟩⟩⟩⟩⟩

/-- The manifest declares this resource, as the store is. -/
def Declares (st : Store) (manifest : Value) (r : Resource) : Prop :=
  ∃ declared, declarations st manifest = .ok declared ∧
    ∃ model ∈ declared, resourceOf st model.1 model.2 = .ok r

theorem forall_declares {st : Store} {manifest : Value} {check : Resource → Bool}
    (h : (declarations st manifest).toOption.any (fun declared => declared.all fun model =>
      (resourceOf st model.1 model.2).toOption.all check) = true) {r : Resource}
    (hr : Declares st manifest r) : check r = true := by
  obtain ⟨declared, hdeclared, model, hmodel, hr⟩ := hr
  rw [hdeclared] at h
  have hmodels := List.all_eq_true.mp h model hmodel
  rwa [hr] at hmodels

/-- The build of a document reads this resource. -/
def Reads (manifest : Value) (options : Options) (generator : Option (Generator σ)) (w : World σ)
    (r : Resource) : Prop :=
  ∃ rs d w', Builds manifest options generator w rs d w' ∧ r ∈ rs

/-- The only resource that is declared is read as it was declared. -/
theorem declares_of_reads {manifest : Value} {options : Options} {generator : Option (Generator σ)}
    {w : World σ} {r : Resource} {model : Value × Value}
    (hone : declarations w.store manifest = .ok [model])
    (h : Reads manifest options generator w r) : Declares w.store manifest r := by
  obtain ⟨rs, d, w', ⟨_, _, declared, w₁, _, _, hdeclared, hassembles, _⟩, hr⟩ := h
  rw [hone] at hdeclared
  cases hdeclared
  cases hassembles with
  | next hread _ hrest =>
      cases hrest
      rw [List.mem_singleton.mp hr]
      exact ⟨_, hone, _, List.mem_singleton_self _, hread⟩

end Document
end ApiManifest
