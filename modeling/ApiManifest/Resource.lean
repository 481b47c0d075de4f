import ApiManifest.Catalog
import ApiManifest.Data.Display
import ApiManifest.Data.Store

/-!
# Resources

A manifest declares its resources by name: where each one lives, which operations it offers and
the properties that its answers and its requests have.
-/

namespace ApiManifest

/-- A resource as declared. -/
structure Resource where
  name : String
  /-- The template of the path to an item. -/
  path : String
  /-- The operations asked for, in the author's words. -/
  methods : List Tree
  /-- The author says that it cannot be changed. -/
  markedReadOnly : Bool
  /-- The properties of an answer. -/
  response : Value
  /-- The properties of a request. -/
  modify : Value

namespace Resource

/-- The names of all operations. -/
def allMethods : List Tree := Operation.all.map fun op => .text op.name

/-- The items of a value: those of a list, the keys of a mapping, the characters of a text. -/
def itemsOf : Tree → Except Error (List Tree)
  | .list items | .tuple items | .set items => .ok items
  | .map es => .ok (es.map Prod.fst)
  | .scalar (.text s) => .ok (s.toList.map fun c => .text c.toString)
  | .scalar (.bytes b) => .ok (b.map fun x => .int x.toNat)
  | _ => .error .notIterable

/-- The template of the path that the entries of a declaration give, empty without one. -/
def pathOf (st : Store) (es : List (Value × Value)) : Except Error String :=
  match st.find? (.text "path") es with
  | some v => (st.tree v).display
  | none => .ok ""

/-- The methods that the entries of a declaration ask for. Null methods are all methods. -/
def methodsOf (st : Store) (es : List (Value × Value)) : Except Error (List Tree) :=
  match st.field es "methods" with
  | .scalar .null => .ok allMethods
  | v => itemsOf (st.tree v)

/-- The response or the request that the entries of a declaration give. An empty one is none. -/
def partOf (st : Store) (es : List (Value × Value)) (name : String) : Value :=
  if st.holds (st.field es name) then st.field es name else .null

/-- The resource that the entries of a declaration describe. -/
def ofEntries (st : Store) (name : String) (es : List (Value × Value)) :
    Except Error Resource := do
  return { name
           path := ← pathOf st es
           methods := ← methodsOf st es
           markedReadOnly := st.holds (st.field es "readOnly")
           response := partOf st es "response"
           modify := partOf st es "modify" }

/-- The resource that a declaration describes. -/
def ofValue (st : Store) (name : String) (decl : Value) : Except Error Resource :=
  match st.entries? decl with
  | some es => ofEntries st name es
  | none => .error .notMapping

/-- The resource of a manifest's entry, which may be left empty. -/
def ofModel (st : Store) (name : String) (decl : Value) : Except Error Resource :=
  if st.holds decl then ofValue st name decl else ofEntries st name []

/-- The operations that the resource offers, in the order of the catalogue. -/
def operations (r : Resource) : List Operation :=
  Operation.all.filter fun op => r.methods.any (Tree.sameKey (.text op.name))

/-- Whether a method is the name of an operation. -/
def isMethod (m : Tree) : Bool := Operation.all.any fun op => m.sameKey (.text op.name)

/-- The methods that are no operations. A method that cannot be a key cannot be looked up. -/
def unknownMethods (r : Resource) : Except Error (List Tree) :=
  if Tree.areKeys r.methods then .ok (r.methods.filter (!isMethod ·)) else .error .unhashable

/-- Whether the resource cannot be changed: it is marked so, or nothing that it offers
changes it. -/
def isReadOnly (r : Resource) : Bool :=
  r.markedReadOnly || !r.operations.any Operation.modifies

end Resource
end ApiManifest
