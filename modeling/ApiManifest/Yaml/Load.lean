import ApiManifest.Yaml.Merge
import ApiManifest.Yaml.ScalarValue

/-!
# Values of nodes

The values that a YAML document describes. A node that occurs at several places is one object
there. Collections are made before their contents are, one level after the other, so what is at
fault on an outer level shows before what is at fault further in.
-/

namespace ApiManifest.Yaml

/-! ## Texts of nodes -/

namespace Graph

/-- The text of a node, found in a number of steps: that of a scalar, or of the value that a
mapping names as its own. -/
def textIn (g : Graph) : (steps : Nat) → (id : Nat) → Except Error String
  | 0, _ => .error .selfContaining
  | steps + 1, id =>
    match g.contents id with
    | .text text => .ok text
    | .items _ => .error .yaml
    | .entries entries =>
      match entries.find? fun (key, _) => g.tag key = .value with
      | some (_, value) => g.textIn steps value
      | none => .error .yaml

/-- The text of a node. A mapping whose own value leads back to it has none. -/
def text (g : Graph) (id : Nat) : Except Error String := g.textIn (g.size + 1) id

end Graph

/-! ## Objects -/

/-- How far the values of a document have been made. -/
structure Construction where
  graph : Graph
  store : Store
  /-- The values of nodes, by number. -/
  made : Array (Option Value)
  /-- The objects whose contents are to be made, and their nodes, the last one first. -/
  pending : List (Nat × Nat) := []

/-- A step of making values. -/
abbrev Construct := StateT Construction (Except Error)

namespace Construct

/-- Makes an object. -/
def alloc (cell : Cell) : Construct Value := do
  let c ← get
  let (store, v) := c.store.alloc cell
  set { c with store }
  return v

/-- Makes an empty collection whose contents are made later. -/
def later (empty : Cell) (node : Nat) : Construct Value := do
  let v ← alloc empty
  if let .ref id := v then modify fun c => { c with pending := (id, node) :: c.pending }
  return v

/-- The text of a node. -/
def textOf (node : Nat) : Construct String := do (← get).graph.text node

/-- Makes the value of a node for the first time. -/
def fresh (node : Nat) : Construct Value := do
  match (← get).graph.tag node with
  | .null => do let _ ← textOf node; return .null
  | .bool => return .scalar (.bool (← ScalarValue.readBool (← textOf node)))
  | .int => return .scalar (.int (← ScalarValue.readInt (← textOf node)))
  | .float => return .scalar (.float (← ScalarValue.readFloat (← textOf node)))
  | .str => return .text (← textOf node)
  | .binary => return .scalar (.bytes (← ScalarValue.readBinary (← textOf node)))
  | .timestamp => do
    let text ← textOf node
    match (← get).graph.contents node with
    | .text _ => alloc (← ScalarValue.readTimestamp text)
    | _ => throw .notNumber
  | .seq | .omap | .pairs => later (.list []) node
  | .set => later (.set []) node
  | .map => later (.map []) node
  | .merge | .value | .other _ => throw .yaml

/-- The value of a node. -/
def value (node : Nat) : Construct Value := do
  match (← get).made[node]?.join with
  | some v => return v
  | none =>
    let v ← fresh node
    modify fun c => { c with made := c.made.setIfInBounds node (some v) }
    return v

/-- Makes entries of a mapping, behind some that are known. Keys are no collections. -/
def entries (known : List (Value × Value)) :
    List (Nat × Nat) → Construct (List (Value × Value))
  | [] => return known
  | (k, x) :: rest => do
    let key ← value k
    match (← get).store.cell? key with
    | none | some (.date _) | some (.dateTime _) => pure ()
    | _ => throw .yaml
    let v ← value x
    entries ((← get).store.put key v known) rest

/-- Makes the entries of a mapping, those that it merges in among them. -/
def mapping (node : Nat) : Construct (List (Value × Value)) := do
  let graph ← (← get).graph.flatten node
  modify fun c => { c with graph }
  entries [] (← graph.entries node)

/-- Makes the pair that a mapping of one entry stands for. -/
def pair (node : Nat) : Construct Value := do
  match (← get).graph.contents node with
  | .entries [(k, x)] => do
    let key ← value k
    let v ← value x
    alloc (.tuple [key, v])
  | _ => throw .yaml

/-- Makes the contents of a collection. -/
def contents (node : Nat) : Construct Cell := do
  let graph := (← get).graph
  match graph.tag node, graph.contents node with
  | .seq, .items items => return .list (← items.mapM value)
  | .omap, .items items | .pairs, .items items => return .list (← items.mapM pair)
  | .map, .entries _ => return .map (← mapping node)
  | .set, .entries _ => return .set ((← mapping node).map Prod.fst)
  | _, _ => throw .yaml

/-- Makes the contents of the collections that were begun, level after level. No level is empty,
so there are no more levels than nodes. -/
def levels : (fuel : Nat) → Construct Unit
  | 0 => return ()
  | fuel + 1 => do
    let level := (← get).pending.reverse
    unless level.isEmpty do
      modify fun c => { c with pending := [] }
      level.forM fun (id, node) => do
        let cell ← contents node
        modify fun c => { c with store := c.store.update id cell }
      levels fuel

end Construct

/-- The value that a text describes, as an object of a store. An empty text describes null. -/
def load (st : Store) (text : List Char) : Except Error (Store × Value) := do
  match ← compose text with
  | (_, none) => return (st, .null)
  | (graph, some root) =>
    let build : Construct Value := do
      let v ← Construct.value root
      Construct.levels graph.size
      return v
    let (v, c) ← build.run { graph, store := st, made := Array.replicate graph.size none }
    return (c.store, v)

end ApiManifest.Yaml
