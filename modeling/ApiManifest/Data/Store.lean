import ApiManifest.Data.Tree
import ApiManifest.Error

/-!
# Objects

A manifest is a graph: an anchor of a YAML file lets two places hold one object. Where that can
be seen, values are references into a store of objects. Lists, tuples, sets, mappings, dates and
times are objects; scalars have no identity.
-/

namespace ApiManifest

/-- A value, or a reference to the object that it is. -/
inductive Value where
  | scalar (s : Scalar)
  | ref (id : Nat)
  deriving DecidableEq, Repr, Inhabited

/-- The contents of an object. -/
inductive Cell where
  | date (d : Date)
  | dateTime (t : DateTime)
  | list (items : List Value)
  | tuple (items : List Value)
  | set (items : List Value)
  | map (entries : List (Value × Value))
  deriving DecidableEq, Repr, Inhabited

/-- The objects made so far; a reference is an index. -/
structure Store where
  cells : Array Cell := #[]
  deriving DecidableEq, Repr, Inhabited

/-- The parts of an object. -/
def Cell.parts : Cell → List Value
  | date _ | dateTime _ => []
  | list items | tuple items | set items => items
  | map entries => entries.flatMap fun (key, value) => [key, value]

namespace Value

/-- The absent value. -/
abbrev null : Value := .scalar .null

/-- A text. -/
abbrev text (s : String) : Value := .scalar (.text s)

end Value

namespace Store

/-- A store without objects. -/
def empty : Store := {}

/-- Makes an object. -/
def alloc (st : Store) (cell : Cell) : Store × Value :=
  (⟨st.cells.push cell⟩, .ref st.cells.size)

/-- The object that a value refers to. -/
def cell? (st : Store) : Value → Option Cell
  | .scalar _ => none
  | .ref id => st.cells[id]?

/-- Changes the contents of an object. -/
def update (st : Store) (id : Nat) (cell : Cell) : Store :=
  ⟨st.cells.setIfInBounds id cell⟩

/-! ## A value with all its parts -/

/-- The tree of a value, down to a depth. An object that contains itself ends in nulls. -/
def treeTo (st : Store) : (depth : Nat) → Value → Tree
  | _, .scalar s => .scalar s
  | 0, .ref _ => .null
  | depth + 1, .ref id => match st.cells[id]? with
    | none => .null
    | some (.date d) => .date d
    | some (.dateTime t) => .dateTime t
    | some (.list items) => .list (items.map (st.treeTo depth))
    | some (.tuple items) => .tuple (items.map (st.treeTo depth))
    | some (.set items) => .set (items.map (st.treeTo depth))
    | some (.map entries) =>
      .map (entries.map fun (k, v) => (st.treeTo depth k, st.treeTo depth v))

/-- The tree of a value. No chain of objects is longer than the store. -/
def tree (st : Store) (v : Value) : Tree := st.treeTo (st.cells.size + 1) v

/-- The word for a value's kind, which its outermost level shows. -/
def kindName (st : Store) (v : Value) : String := (st.treeTo 1 v).kindName

/-! ## Values that contain themselves -/

/-- Whether a value is known to end: a scalar does, an object if it is one of some. -/
def isKnown (known : Array Bool) : Value → Bool
  | .scalar _ => true
  | .ref id => known[id]?.getD true

/-- Adds the objects all of whose parts are known to end, the one made last first. -/
def sweep (st : Store) (known : Array Bool) : Array Bool :=
  (List.range st.cells.size).reverse.foldl (fun known id =>
    if st.cells[id]?.all fun cell => cell.parts.all (isKnown known) then
      known.setIfInBounds id true
    else known) known

/-- Sweeps until nothing is added any more. -/
def sweeps (st : Store) : (rounds : Nat) → Array Bool → Array Bool
  | 0, known => known
  | rounds + 1, known =>
    let more := st.sweep known
    if more = known then known else st.sweeps rounds more

/-- Whether a value has a tree, which is when none of its parts contains itself. Each sweep but
the last one adds an object. -/
def hasTree (st : Store) (v : Value) : Bool :=
  isKnown (st.sweeps st.cells.size (Array.replicate st.cells.size false)) v

/-! ## Values of trees -/

mutual

/-- Makes a value of a tree, each of whose parts becomes an object of its own. -/
def insert (st : Store) : Tree → Store × Value
  | .scalar s => (st, .scalar s)
  | .date d => st.alloc (.date d)
  | .dateTime t => st.alloc (.dateTime t)
  | .list items => let (st, vs) := st.insertAll items; st.alloc (.list vs)
  | .tuple items => let (st, vs) := st.insertAll items; st.alloc (.tuple vs)
  | .set items => let (st, vs) := st.insertAll items; st.alloc (.set vs)
  | .map entries => let (st, es) := st.insertEntries entries; st.alloc (.map es)

/-- Makes values of the trees in a list. -/
def insertAll (st : Store) : List Tree → Store × List Value
  | [] => (st, [])
  | x :: rest =>
    let (st, v) := st.insert x
    let (st, vs) := st.insertAll rest
    (st, v :: vs)

/-- Makes values of the keys and values of a mapping. -/
def insertEntries (st : Store) : List (Tree × Tree) → Store × List (Value × Value)
  | [] => (st, [])
  | (k, x) :: rest =>
    let (st, key) := st.insert k
    let (st, v) := st.insert x
    let (st, es) := st.insertEntries rest
    (st, (key, v) :: es)

end

/-! ## Mappings -/

/-- Key equality. All that is not a number is one and the same key. -/
def sameKey (st : Store) : Value → Value → Bool
  | .scalar (.float .nan), .scalar (.float .nan) => true
  | .scalar a, .scalar b => a.same b
  | .ref a, .ref b => a == b || (st.tree (.ref a)).sameKey (st.tree (.ref b))
  | _, _ => false

/-- The value at a key. -/
def find? (st : Store) (key : Value) : List (Value × Value) → Option Value
  | [] => none
  | (k, v) :: rest => if st.sameKey key k then some v else st.find? key rest

/-- Sets the value at a key. A key that is there keeps its place and its spelling, a new one
comes last. -/
def put (st : Store) (key value : Value) : List (Value × Value) → List (Value × Value)
  | [] => [(key, value)]
  | (k, v) :: rest =>
    if st.sameKey key k then (k, value) :: rest else (k, v) :: st.put key value rest

/-- The entries of a mapping. -/
def entries? (st : Store) (v : Value) : Option (List (Value × Value)) :=
  match st.cell? v with
  | some (.map es) => some es
  | _ => none

/-- The value at a text key of a mapping, null when the key is absent. -/
def field (st : Store) (es : List (Value × Value)) (name : String) : Value :=
  (st.find? (.text name) es).getD .null

/-- Whether a condition holds that is given by this value. -/
def holds (st : Store) (v : Value) : Bool :=
  match v with
  | .scalar s => s.holds
  | .ref _ => match st.cell? v with
    | some (.list items) | some (.tuple items) | some (.set items) => !items.isEmpty
    | some (.map es) => !es.isEmpty
    | _ => true

/-! ## Merging in place -/

/-- Work on the store that may fail; what was done before a failure stays done. -/
abbrev Work := ExceptT Error (StateM Store)

/-- Puts one entry of a source into the mapping `target`. Where both hold a mapping at the key,
`inner` merges the two instead. -/
def mergeEntry (inner : Nat → Nat → Work Unit) (target : Nat) (key value : Value) :
    Work Unit := do
  let st ← get
  let existing := (st.entries? (.ref target)).getD []
  let replace : Work Unit := set (st.update target (.map (st.put key value existing)))
  match st.find? key existing, value with
  | some (.ref old), .ref new =>
    if (st.entries? (.ref old)).isSome && (st.entries? (.ref new)).isSome then inner old new
    else replace
  | _, _ => replace

/-- The entries of the mapping `source`, which is refused when it has no longer `count` of them. -/
def countedEntries (source count : Nat) : Work (List (Value × Value)) := do
  let entries := ((← get).entries? (.ref source)).getD []
  if entries.length = count then pure entries else throw .changedDuringIteration

/-- Goes through the entries of the mapping `source` as they are when their turn comes, from the
`index`-th of `count` on. A source whose number of entries has changed is refused. -/
def mergeEntries (inner : Nat → Nat → Work Unit) (target source count : Nat) :
    (left index : Nat) → Work Unit
  | 0, _ => do
    let _ ← countedEntries source count
    pure ()
  | left + 1, index => do
    let entries ← countedEntries source count
    match entries[index]? with
    | some (key, value) =>
      mergeEntry inner target key value
      mergeEntries inner target source count left (index + 1)
    | none => pure ()

/-- Merges the mapping `source` into the mapping `target` in place, which shows wherever `target`
is referred to, through at most `depth` levels of mappings. -/
def mergeTo : (depth : Nat) → (target source : Nat) → Work Unit
  | 0, _, _ => throw .selfContaining
  | depth + 1, target, source => do
    let count := (((← get).entries? (.ref source)).getD []).length
    mergeEntries (mergeTo depth) target source count count 0

/-- Merges one mapping into another in place. No chain of mappings is longer than the store. -/
def merge (target source : Nat) : Work Unit := do
  mergeTo ((← get).cells.size + 1) target source

end Store
end ApiManifest
