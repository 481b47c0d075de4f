import ApiManifest.Data.Tree
import ApiManifest.Error

/-!
# Merging mappings

One mapping is merged into another entry by entry: where both hold a mapping at a key the two are
merged in turn, everywhere else the value of the source wins.
-/

namespace ApiManifest

namespace Tree

mutual

/-- The value that a clash leaves. -/
def merge (target : Tree) : (source : Tree) → Tree
  | map source => match target with
    | map entries => map (mergeEntries entries source)
    | _ => map source
  | source => source

/-- The entries after those of the source have been merged in, one after the other. -/
def mergeEntries (target : Entries) : (source : List (Tree × Tree)) → Entries
  | [] => target
  | (k, v) :: rest =>
    let value := match Entries.find? k target with
      | some existing => merge existing v
      | none => v
    mergeEntries (Entries.put k value target) rest

end

/-- Merges one value into another. Both have to be mappings, but whatever has no entries to take
from leaves the target alone. -/
def mergeInto (target source : Tree) : Except Error Tree :=
  match source with
  | map [] => .ok target
  | map entries => match target with
    | map existing => .ok (map (mergeEntries existing entries))
    | _ => .error .notMapping
  | _ => .error .notMapping

end Tree
end ApiManifest
