import ApiManifest.Data.Store

/-!
# Parts of a document

What is generated is a tree of its own: every list and every mapping in it is new, and so is no
part of two places. Only its leaves can be objects of the manifest, or values that an example
generator gave: they are referred to and not copied.

So a merge can make a new part instead of changing the old one. In a build no generated mapping
meets an object (`Document.matches_of_meetsInBuild`), and merging the parts comes to merging, in
place, the objects that would be made of them (`Document.merges_in_place`).
-/

namespace ApiManifest

/-- A part of a generated document. -/
inductive Node where
  | leaf (v : Value)
  | list (items : List Node)
  | map (fields : List (String × Node))
  deriving Repr, Inhabited

namespace Node

/-- A text. -/
abbrev text (s : String) : Node := .leaf (.text s)

/-- A truth value. -/
abbrev bool (b : Bool) : Node := .leaf (.scalar (.bool b))

/-- The part at a name. -/
def get? (name : String) : Node → Option Node
  | .map fields => Fields.get? name fields
  | _ => none

/-! ## Merging -/

mutual

/-- Merges a part into another one that has its place. Mappings of the document are merged entry
by entry, objects that both are mappings are merged in place, and else the source wins. A mapping
of the document and an object would have to be merged too, but these do not meet. -/
def merge (target : Node) : (source : Node) → Store.Work Node
  | .map source => match target with
    | .map fields => do return .map (← mergeFields fields source)
    | _ => return .map source
  | .leaf (.ref new) => match target with
    | .leaf (.ref old) => do
      let st ← get
      if (st.entries? (.ref old)).isSome && (st.entries? (.ref new)).isSome then
        Store.merge old new
        return .leaf (.ref old)
      else return .leaf (.ref new)
    | _ => return .leaf (.ref new)
  | source => return source

/-- Merges fields into others, one after the other. -/
def mergeFields (target : Fields Node) : (source : List (String × Node)) →
    Store.Work (Fields Node)
  | [] => return target
  | (name, part) :: rest => do
    let part ← match Fields.get? name target with
      | some existing => merge existing part
      | none => pure part
    mergeFields (Fields.put name part target) rest

end

/-! ## Views -/

mutual

/-- The part with all that it refers to. -/
def tree (st : Store) : Node → Tree
  | .leaf v => st.tree v
  | .list items => .list (trees st items)
  | .map fields => .map (entries st fields)

/-- The trees of the items of a list. -/
def trees (st : Store) : List Node → List Tree
  | [] => []
  | x :: rest => tree st x :: trees st rest

/-- The entries of a mapping as trees. -/
def entries (st : Store) : List (String × Node) → Entries
  | [] => []
  | (name, x) :: rest => (.text name, tree st x) :: entries st rest

end

mutual

/-- Makes the part an object of the store, like all its own parts. What it refers to stays. -/
def insert (st : Store) : Node → Store × Value
  | .leaf v => (st, v)
  | .list items => let (st, vs) := insertAll st items; st.alloc (.list vs)
  | .map fields => let (st, es) := insertFields st fields; st.alloc (.map es)

/-- Makes objects of the items of a list. -/
def insertAll (st : Store) : List Node → Store × List Value
  | [] => (st, [])
  | x :: rest =>
    let (st, v) := insert st x
    let (st, vs) := insertAll st rest
    (st, v :: vs)

/-- Makes objects of the parts of a mapping. -/
def insertFields (st : Store) : List (String × Node) → Store × List (Value × Value)
  | [] => (st, [])
  | (name, x) :: rest =>
    let (st, v) := insert st x
    let (st, es) := insertFields st rest
    (st, (.text name, v) :: es)

end

end Node
end ApiManifest
