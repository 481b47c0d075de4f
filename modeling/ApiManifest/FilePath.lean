import ApiManifest.Text.Case
import ApiManifest.Text.Split

/-!
# File paths

Paths as names between slashes, with what comes of writing one carelessly taken out: doubled
slashes, a slash at the end, and the names that stand for the directory itself.
-/

namespace ApiManifest

/-- A path: the slashes that it begins with, and its names. -/
structure FilePath where
  root : String
  names : List String
  deriving DecidableEq, Repr

namespace FilePath

/-- The path that a text writes. Two slashes in front are kept, more are one. -/
def ofText (s : String) : FilePath :=
  let cs := s.toList
  let slashes := (cs.takeWhile (· == '/')).length
  let names := (Text.pieces '/' cs).map String.ofList
  { root := if slashes = 0 then "" else if slashes = 2 then "//" else "/"
    names := names.filter (· != ".") }

/-- The text of a path. The path without names is the directory itself. -/
def text (p : FilePath) : String :=
  if p.root = "" && p.names.isEmpty then "." else p.root ++ "/".intercalate p.names

/-- The path of the directory that holds what the path names. -/
def parent (p : FilePath) : FilePath := { p with names := p.names.dropLast }

/-- The last name, from its last point on, unless that point is at either end of it. -/
def suffix (p : FilePath) : List Char :=
  let name := (p.names.getLast?.getD "").toList
  let after := (name.reverse.takeWhile (· != '.')).reverse
  let before := name.length - after.length
  if 2 ≤ before ∧ after ≠ [] then '.' :: after else []

end FilePath
end ApiManifest
