import ApiManifest.Data.Node
import ApiManifest.Naming
import ApiManifest.Options
import ApiManifest.Property
import ApiManifest.Resource
import ApiManifest.Run

/-!
# Definitions

The schemas of a resource: one of its answers, and one of its requests unless it cannot be
changed. Operations refer to them by key.
-/

namespace ApiManifest.Definition

variable {σ : Type}

/-- The key of the definition of a resource's answers. -/
def responseName (resource : String) : String := Naming.pascalCase resource ++ "Response"

/-- The key of the definition of a resource's requests. -/
def requestName (resource : String) : String := Naming.pascalCase resource ++ "Modify"

/-- The text that refers to the definition of a key. -/
def address (key : String) : String := "#/definitions/" ++ key

/-- A reference to the definition of a key. -/
def reference (key : String) : Node := .map [("$ref", .text (address key))]

/-- The key of a property's validator in its schema. -/
def validatorField : String := "x-kraken-validator"

/-- The field of a schema that a value is for, left out when there is no value. -/
def optional (name : String) (part : Option Node) : List (String × Node) :=
  match part with
  | some part => [(name, part)]
  | none => []

/-- What is said about a property: its author's words, or its name and its resource's. -/
def descriptionOf (st : Store) (resource name : String) (property : Property) : Node :=
  if st.holds property.description then .leaf property.description
  else .text s!"The {Naming.phrase name} of the {Naming.title resource}"

/-- The example of a property: its author's, or one that the generator has for its type. -/
def exampleOf (generator : Option (Generator σ)) (property : Property) : Run σ (Option Node) := do
  let value ← match property.example?, generator with
    | .scalar .null, some generator => Run.ask generator (DataType.ofName property.type).exampleKey
    | value, _ => pure value
  return if value = .null then none else some (.leaf value)

/-- The example that the schema of a property shows, if examples are asked for. -/
def shownExample (property : Property) (options : Options) (generator : Option (Generator σ)) :
    Run σ (Option Node) :=
  if options.examples then exampleOf generator property else pure none

/-- The record that the type of a property is passed through, when it is not known. -/
def passingThrough (resource name : String) (property : Property) : List Log.Record :=
  if DataType.isKnown property.type then []
  else [⟨.definitions, .warning,
    s!"Unknown type {Text.quoted property.type} for {resource}.{name}, passing it through"⟩]

/-- The schema of a property that shows an example, or none. -/
def schemaWith (st : Store) (resource name : String) (property : Property) (options : Options)
    (example? : Option Node) : Node :=
  let dataType := DataType.ofName property.type
  let validator := if options.validators then property.validatorOr dataType.validator else none
  .map <|
    [("type", .text dataType.type), ("description", descriptionOf st resource name property)]
      ++ optional "example" example? ++ optional validatorField (validator.map .text)

/-- The schema of a property. -/
def schema (resource name : String) (property : Property) (options : Options)
    (generator : Option (Generator σ)) : Run σ Node := do
  Run.tell (passingThrough resource name property)
  let st := (← get).store
  let example? ← shownExample property options generator
  return schemaWith st resource name property options example?

/-- The schemas of some properties. -/
def schemas (resource : String) (options : Options) (generator : Option (Generator σ)) :
    Fields Property → Run σ (Fields Node)
  | [] => pure []
  | (name, property) :: rest => do
    let part ← schema resource name property options generator
    return (name, part) :: (← schemas resource options generator rest)

/-- The names of the properties that have to be there. -/
def requiredNames (properties : Fields Property) : List String :=
  Fields.names (properties.filter fun (_, p) => p.required)

/-- The definition that declared properties make. -/
def build (resource : String) (declared : Value) (options : Options)
    (generator : Option (Generator σ)) : Run σ Node := do
  let properties ← Run.reading fun st => declaredProperties st declared
  let parts ← schemas resource options generator properties
  return .map [
    ("type", .text "object"),
    ("required", .list ((requiredNames properties).map .text)),
    ("properties", .map parts)]

/-- The definitions of a resource by key. -/
def ofResource (r : Resource) (options : Options) (generator : Option (Generator σ)) :
    Run σ (Fields Node) := do
  let response ← build r.name r.response options generator
  if r.isReadOnly then return [(responseName r.name, response)]
  else
    let modify ← build r.name r.modify options generator
    return [(responseName r.name, response), (requestName r.name, modify)]

end ApiManifest.Definition
