import ApiManifest.Data.Display
import ApiManifest.Data.Store

/-!
# Properties

A resource declares its properties by name: in short by a type, `id: uuid`, or in full by a
mapping, `id: {type: uuid, required: false}`. A question mark behind the name makes a property
optional. All forms come to the same description of a property.
-/

namespace ApiManifest

/-- A property as declared, whatever the form of its declaration. -/
structure Property where
  type : String
  required : Bool := true
  /-- What the author says about it, null if nothing. -/
  description : Value := .null
  /-- The author's example, null if there is none. -/
  example? : Value := .null
  /-- `false` for no validator, a text for another one than the type's. -/
  validator : Value := .null
  deriving DecidableEq, Repr

namespace Property

/-- The property that a declaration describes. -/
def ofValue (st : Store) (decl : Value) : Except Error Property :=
  match st.entries? decl with
  | some es => do
    let type := st.field es "type"
    return {
      type := ← if st.holds type then (st.tree type).display else pure "string"
      required := ((st.find? (.text "required") es).map st.holds).getD true
      description := st.field es "description"
      example? := st.field es "example"
      validator := st.field es "validator" }
  | none => do return { type := ← (st.tree decl).display }

/-- A property under the name that it is declared with: a question mark at the end of the name
makes it optional and is not part of it. -/
def named (name : String) (property : Property) : String × Property :=
  match name.toList.reverse with
  | '?' :: rest => (String.ofList rest.reverse, { property with required := false })
  | _ => (name, property)

/-- The validator of a property whose type has `default` for one. -/
def validatorOr (default : Option String) (property : Property) : Option String :=
  match property.validator with
  | .scalar (.bool false) => none
  | .scalar (.text s) => if s = "" then default else some s
  | _ => default

end Property

/-- Reads declarations one after the other into the properties read before. Of two declarations
for one name the last one counts, in the place of the first. -/
def declareAll (st : Store) (properties : Fields Property) :
    List (Value × Value) → Except Error (Fields Property)
  | [] => .ok properties
  | (key, decl) :: rest => do
    let name ← (st.tree key).display
    let (name, property) := (← Property.ofValue st decl).named name
    declareAll st (properties.put name property) rest

/-- The properties that a value declares, by name. Whatever is empty declares none. -/
def declaredProperties (st : Store) (declared : Value) : Except Error (Fields Property) :=
  if !st.holds declared then .ok []
  else match st.entries? declared with
    | some es => declareAll st [] es
    | none => .error .notMapping

end ApiManifest
