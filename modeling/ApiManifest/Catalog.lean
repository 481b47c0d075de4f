/-!
# Property types and operations

The two fixed vocabularies of a manifest: the types that a property can be declared with, and the
operations that a resource can offer.
-/

namespace ApiManifest

/-! ## Property types -/

/-- A property type that is known by name. -/
inductive KnownType where
  | string | integer | number | boolean | uuid | url | email | date | dateTime
  deriving DecidableEq, Repr

/-- How a declared type is written in a schema. -/
structure DataType where
  /-- The type in the schema. -/
  type : String
  /-- What an example is asked for by. -/
  exampleKey : String
  /-- The validator that the type brings along. -/
  validator : Option String := none
  deriving DecidableEq, Repr

namespace KnownType

/-- All known types. -/
def all : List KnownType :=
  [.string, .integer, .number, .boolean, .uuid, .url, .email, .date, .dateTime]

/-- The name in a declaration. -/
def name : KnownType → String
  | string => "string"
  | integer => "integer"
  | number => "number"
  | boolean => "boolean"
  | uuid => "uuid"
  | url => "url"
  | email => "email"
  | date => "date"
  | dateTime => "datetime"

/-- The form in a schema. -/
def dataType : KnownType → DataType
  | string => ⟨"string", "word", none⟩
  | integer => ⟨"number", "random_int", none⟩
  | number => ⟨"number", "pyfloat", none⟩
  | boolean => ⟨"boolean", "boolean", none⟩
  | uuid => ⟨"string", "uuid4", some "string.guid"⟩
  | url => ⟨"string", "url", some "string.uri"⟩
  | email => ⟨"string", "email", some "string.email"⟩
  | date => ⟨"string", "date", some "string.isoDate"⟩
  | dateTime => ⟨"string", "iso8601", some "string.isoDate"⟩

/-- The known type of a name. -/
def ofName? (name : String) : Option KnownType := all.find? (·.name == name)

end KnownType

namespace DataType

/-- Whether a declared type is a known one. -/
def isKnown (name : String) : Bool := (KnownType.ofName? name).isSome

/-- The form of a declared type. One that is not known passes through, and its name is what an
example is asked for by. -/
def ofName (name : String) : DataType :=
  match KnownType.ofName? name with
  | some known => known.dataType
  | none => ⟨name, name, none⟩

end DataType

/-! ## Operations -/

/-- The verb of a request. -/
inductive Verb where
  | get | post | put | delete
  deriving DecidableEq, Repr

/-- The key of a verb in a path item. -/
def Verb.key : Verb → String
  | get => "get"
  | post => "post"
  | put => "put"
  | delete => "delete"

/-- The verb as a request writes it. -/
def Verb.text : Verb → String
  | get => "GET"
  | post => "POST"
  | put => "PUT"
  | delete => "DELETE"

/-- What a resource can offer. -/
inductive Operation where
  | list | create | read | update | delete
  deriving DecidableEq, Repr

namespace Operation

/-- All operations, in the order in which a resource offers them. -/
def all : List Operation := [.list, .create, .read, .update, .delete]

/-- The name in a manifest. -/
def name : Operation → String
  | list => "list"
  | create => "create"
  | read => "read"
  | update => "update"
  | delete => "delete"

/-- The operation of a name. -/
def ofName? (name : String) : Option Operation := all.find? (·.name == name)

/-- The verb it is requested with. -/
def verb : Operation → Verb
  | list => .get
  | create => .post
  | read => .get
  | update => .put
  | delete => .delete

/-- Whether it is requested of the collection, not of an item. -/
def onCollection : Operation → Bool
  | list | create => true
  | read | update | delete => false

/-- Whether a request carries new contents. -/
def modifies : Operation → Bool
  | create | update => true
  | list | read | delete => false

/-- Whether it answers with many items. -/
def isListing (op : Operation) : Bool := op.verb == .get && op.onCollection

/-- The words before the resource's title in a description. -/
def phrase : Operation → String
  | list => "Return a list of "
  | create => "Create a new "
  | read => "Return a "
  | update => "Update a "
  | delete => "Delete a "

/-- What it does to a resource of this title. -/
def describe (op : Operation) (title : String) : String := op.phrase ++ title

end Operation
end ApiManifest
