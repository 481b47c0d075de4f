import ApiManifest.Calendar
import ApiManifest.Number.Binary64

/-!
# Values as trees

What a manifest is made of, when it does not matter whether two equal parts are one object or
two. A mapping keeps its entries in insertion order and finds them by key equality: numbers and
truth values that are numerically equal are one key. A document has fields instead, whose keys are
names.
-/

namespace ApiManifest

/-- A value without parts. -/
inductive Scalar where
  | null
  | bool (b : Bool)
  | int (n : Int)
  | float (x : Binary64)
  | text (s : String)
  | bytes (b : List UInt8)
  deriving DecidableEq, Repr, Inhabited

/-- A value with all its parts. -/
inductive Tree where
  | scalar (s : Scalar)
  | date (d : Date)
  | dateTime (t : DateTime)
  | list (items : List Tree)
  | tuple (items : List Tree)
  | set (items : List Tree)
  | map (entries : List (Tree × Tree))
  deriving Repr, Inhabited

namespace Scalar

/-- The integer that a number or a truth value stands for. -/
def int? : Scalar → Option Int
  | bool b => some (if b then 1 else 0)
  | int n => some n
  | _ => none

/-- Equality of keys. Numbers compare by value, and a truth value is the number 0 or 1. -/
def same : Scalar → Scalar → Bool
  | null, null => true
  | text a, text b => a == b
  | bytes a, bytes b => a == b
  | float a, float b => a.sameValue b
  | float a, b => b.int?.any a.isInt
  | a, float b => a.int?.any b.isInt
  | a, b => match a.int?, b.int? with
    | some m, some n => m == n
    | _, _ => false

/-- Whether a condition holds that is given by this value: empty and zero do not hold. -/
def holds : Scalar → Bool
  | null => false
  | bool b => b
  | int n => n != 0
  | float x => x.isNonzero
  | text s => s != ""
  | bytes b => !b.isEmpty

end Scalar

namespace Tree

/-- The absent value. -/
abbrev null : Tree := scalar .null

/-- A text. -/
abbrev text (s : String) : Tree := scalar (.text s)

/-- A truth value. -/
abbrev bool (b : Bool) : Tree := scalar (.bool b)

/-- An integer. -/
abbrev int (n : Int) : Tree := scalar (.int n)

/-- Whether a condition holds that is given by this value: null, zero and whatever is empty do
not hold. -/
def holds : Tree → Bool
  | scalar s => s.holds
  | date _ | dateTime _ => true
  | list items | tuple items | set items => !items.isEmpty
  | map entries => !entries.isEmpty

mutual

/-- Equality of keys. Only scalars, dates, times and tuples of such are keys. -/
def sameKey : Tree → Tree → Bool
  | scalar a, scalar b => a.same b
  | date a, date b => a == b
  | dateTime a, dateTime b => a.same b
  | tuple xs, tuple ys => sameKeys xs ys
  | _, _ => false

/-- Equality of tuples of keys. -/
def sameKeys : List Tree → List Tree → Bool
  | [], [] => true
  | x :: xs, y :: ys => sameKey x y && sameKeys xs ys
  | _, _ => false

end

mutual

/-- Whether the value can be a key. -/
def isKey : Tree → Bool
  | scalar _ | date _ | dateTime _ => true
  | tuple items => areKeys items
  | list _ | set _ | map _ => false

/-- Whether all the values can be keys. -/
def areKeys : List Tree → Bool
  | [] => true
  | x :: xs => isKey x && areKeys xs

end

/-- The word for the value's kind. -/
def kindName : Tree → String
  | scalar .null => "NoneType"
  | scalar (.bool _) => "bool"
  | scalar (.int _) => "int"
  | scalar (.float _) => "float"
  | scalar (.text _) => "str"
  | scalar (.bytes _) => "bytes"
  | date _ => "date"
  | dateTime _ => "datetime"
  | list _ => "list"
  | tuple _ => "tuple"
  | set _ => "set"
  | map _ => "dict"

end Tree

/-- The entries of a mapping, in insertion order. -/
abbrev Entries := List (Tree × Tree)

namespace Entries

/-- The value at a key. -/
def find? (key : Tree) : Entries → Option Tree
  | [] => none
  | (k, v) :: rest => if key.sameKey k then some v else find? key rest

/-- The value at a text key. -/
def get? (es : Entries) (name : String) : Option Tree := find? (.text name) es

/-- Sets the value at a key. A key that is there keeps its place and its spelling, a new one
comes last. -/
def put (key value : Tree) : Entries → Entries
  | [] => [(key, value)]
  | (k, v) :: rest => if key.sameKey k then (k, value) :: rest else (k, v) :: put key value rest

end Entries

/-! ## Named fields -/

/-- Values by name, in insertion order. -/
abbrev Fields (α : Type) := List (String × α)

namespace Fields

variable {α : Type}

/-- The value of a name. -/
def get? (name : String) : Fields α → Option α
  | [] => none
  | (n, v) :: rest => if n = name then some v else get? name rest

/-- Sets the value of a name. A name that is there keeps its place, a new one comes last. -/
def put (name : String) (value : α) : Fields α → Fields α
  | [] => [(name, value)]
  | (n, v) :: rest => if n = name then (n, value) :: rest else (n, v) :: put name value rest

/-- The names, in order. -/
def names (fields : Fields α) : List String := fields.map Prod.fst

end Fields

end ApiManifest
