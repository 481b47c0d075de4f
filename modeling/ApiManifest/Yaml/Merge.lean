import ApiManifest.Yaml.Node

/-!
# Merged entries

A mapping can merge the entries of other mappings in before its own. Merging changes the mapping
wherever it occurs, so once it is done no entry is left that merges. A mapping may merge itself
in, which adds the entries that it has by then.
-/

namespace ApiManifest.Yaml.Graph

/-- Takes the first entry that merges out of some entries. Gives what it merges in, and the
others. -/
def takeMerge (g : Graph) : List (Nat × Nat) → Option (Nat × List (Nat × Nat))
  | [] => none
  | (key, value) :: rest =>
    if g.tag key = .merge then some (value, rest)
    else (g.takeMerge rest).map fun (source, rest) => (source, (key, value) :: rest)

/-- The entries of a mapping. -/
def entries (g : Graph) (id : Nat) : Except Error (List (Nat × Nat)) :=
  match g.contents id with
  | .entries entries => .ok entries
  | _ => .error .yaml

/-- Makes the keys that stand for a mapping's own value plain texts. -/
def settleKeys (g : Graph) (entries : List (Nat × Nat)) : Graph :=
  entries.foldl (fun g (key, _) => if g.tag key = .value then g.setTag key .str else g) g

/-- A step of merging. -/
abbrev Merge := StateT Graph (Except Error)

/-- Merges entries into a mapping, behind those of `merged`, which come before all others. Of two
mappings in a sequence the earlier one counts, so its entries come later. Every step takes an
entry that merges out of the graph or is the last one. -/
def mergeFrom : (steps : Nat) → (merged : List (Nat × Nat)) → (id : Nat) → Merge Unit
  | 0, _, _ => throw .yaml
  | steps + 1, merged, id => do
    let entriesOf (source : Nat) : Merge (List (Nat × Nat)) := do
      mergeFrom steps [] source
      (← get).entries source
    let entries ← (← get).entries id
    match (← get).takeMerge entries with
    | none =>
      modify fun g => (g.settleKeys entries).setContents id (.entries (merged ++ entries))
    | some (source, rest) => do
      modify fun g => g.setContents id (.entries rest)
      let more ← match (← get).contents source with
        | .entries _ => entriesOf source
        | .items items => do pure (← items.mapM entriesOf).reverse.flatten
        | .text _ => throw .yaml
      mergeFrom steps (merged ++ more) id

/-- The number of entries of a node that merge. -/
def mergeCount (g : Graph) (node : Node) : Nat :=
  match node.contents with
  | .entries entries => entries.countP fun (key, _) => g.tag key = .merge
  | _ => 0

/-- Merges the entries into a mapping that are to be merged in. -/
def flatten (g : Graph) (id : Nat) : Except Error Graph := do
  let count := g.nodes.foldl (fun n node => n + g.mergeCount node) 0
  let ((), g) ← (mergeFrom (count + 1) [] id).run g
  return g

end ApiManifest.Yaml.Graph
