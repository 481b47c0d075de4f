import ApiManifest.Data.Display
import ApiManifest.Data.Store
import ApiManifest.Text.Base64
import ApiManifest.Yaml.Tag

/-!
# Outlines

What is written of a value in YAML. An object that is referred to at several places is written
where it comes first, with an anchor; at the other places an alias names the anchor. Anchors are
numbered in the order in which their objects come for the second time.
-/

namespace ApiManifest.Yaml

/-- What is written of a value. -/
inductive Outline where
  | alias (number : Nat)
  | scalar (anchor : Option Nat) (tag : Tag) (text : String)
  | sequence (anchor : Option Nat) (items : List Outline)
  | mapping (anchor : Option Nat) (isSet : Bool) (entries : List (Outline × Outline))
  deriving Repr, Inhabited

/-! ## Numbering -/

/-- Which objects have come, and which have come again. -/
structure Marks where
  seen : Array Bool
  numbers : Array (Option Nat)
  next : Nat := 1

namespace Marks

/-- Notes that an object comes. Tells if it comes for the first time. -/
def visit (m : Marks) (id : Nat) : Bool × Marks :=
  if (m.seen[id]?).getD false then
    if (m.numbers[id]?).join.isSome then (false, m)
    else (false, { m with numbers := m.numbers.setIfInBounds id (some m.next), next := m.next + 1 })
  else (true, { m with seen := m.seen.setIfInBounds id true })

/-- Notes that a value and all its parts come, keys before values, down to a depth. -/
def visitTo (st : Store) : (depth : Nat) → Value → Marks → Marks
  | 0, _, m => m
  | _ + 1, .scalar _, m => m
  | depth + 1, .ref id, m =>
    match st.cells[id]? with
    | none | some (.tuple []) => m
    | some cell =>
      match m.visit id with
      | (false, m) => m
      | (true, m) => match cell with
        | .date _ | .dateTime _ => m
        | .list items | .tuple items | .set items =>
          items.foldl (fun m v => visitTo st depth v m) m
        | .map entries =>
          entries.foldl (fun m (k, v) => visitTo st depth v (visitTo st depth k m)) m

/-- The marks that the entries of a mapping leave. -/
def ofEntries (st : Store) (entries : List (Value × Value)) : Marks :=
  let depth := st.cells.size + 1
  let start : Marks :=
    { seen := Array.replicate st.cells.size false
      numbers := Array.replicate st.cells.size none }
  entries.foldl (fun m (k, v) => visitTo st depth v (visitTo st depth k m)) start

end Marks

/-! ## Texts of scalars -/

/-- Floating-point numbers as YAML writes them. -/
def floatLayout : Binary64.Layout := ⟨-3, 16, ".nan", ".inf"⟩

/-- The text of a number, with a point before an exponent. -/
def floatText (x : Binary64) : String :=
  let text := (x.text floatLayout).toList
  let mantissa := text.takeWhile (· != 'e')
  match text.drop mantissa.length with
  | [] => String.ofList text
  | exponent =>
    if mantissa.contains '.' then String.ofList text
    else String.ofList (mantissa ++ ".0".toList ++ exponent)

/-- Lines of a number of characters, each one ended. -/
def inLines (width : Nat) : (left : Nat) → List Char → List Char
  | _, [] => []
  | 0, cs => cs
  | left + 1, c :: rest =>
    if rest.isEmpty then [c, '\n']
    else if left = 0 then c :: '\n' :: inLines width width rest
    else c :: inLines width left rest

/-- Bytes as lines of base 64. -/
def bytesText (bytes : List UInt8) : String :=
  String.ofList (inLines 76 76 (Text.Base64.encode bytes))

/-- What is written of a scalar. -/
def Outline.ofScalar : Scalar → Except Error Outline
  | .null => .ok (.scalar none .null "null")
  | .bool b => .ok (.scalar none .bool (if b then "true" else "false"))
  | .int n => do return .scalar none .int (← decimalText n)
  | .float x => .ok (.scalar none .float (floatText x))
  | .text s => .ok (.scalar none .str s)
  | .bytes b => .ok (.scalar none .binary (bytesText b))

/-! ## Writing out -/

/-- The objects that have been written. -/
abbrev Outlining := StateT (Array Bool) (Except Error)

namespace Outline

/-- What is written of a value, down to a depth. -/
def ofValue (st : Store) (m : Marks) : (depth : Nat) → Value → Outlining Outline
  | _, .scalar s => StateT.lift (ofScalar s)
  | 0, .ref _ => throw .selfContaining
  | depth + 1, .ref id => do
    let number := (m.numbers[id]?).join
    match number, ((← get)[id]?).getD false with
    | some n, true => return .alias n
    | _, _ => do
      modify fun written => written.setIfInBounds id true
      match st.cells[id]? with
      | none => throw .yaml
      | some (.date d) => return .scalar number .timestamp (String.ofList d.text)
      | some (.dateTime t) => return .scalar number .timestamp (String.ofList (t.text ' '))
      | some (.list items) | some (.tuple items) =>
        return .sequence number (← items.mapM (ofValue st m depth))
      | some (.set items) => do
        let keys ← items.mapM (ofValue st m depth)
        return .mapping number true (keys.map fun k => (k, .scalar none .null "null"))
      | some (.map entries) => do
        let parts ← entries.mapM fun (k, v) => do
          let key ← ofValue st m depth k
          return (key, ← ofValue st m depth v)
        return .mapping number false parts

/-- What is written of a mapping with some entries. -/
def ofEntries (st : Store) (entries : List (Value × Value)) : Except Error Outline := do
  let m := Marks.ofEntries st entries
  let depth := st.cells.size + 1
  let parts : Outlining (List (Outline × Outline)) := entries.mapM fun (k, v) => do
    let key ← ofValue st m depth k
    return (key, ← ofValue st m depth v)
  let (parts, _) ← parts.run (Array.replicate st.cells.size false)
  return .mapping none false parts

end Outline
end ApiManifest.Yaml
