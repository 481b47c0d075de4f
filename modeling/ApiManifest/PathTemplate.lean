import ApiManifest.Data.Tree
import ApiManifest.Text.Split

/-!
# Path templates

A resource says where it lives by a template such as `/projects/{projectId:integer}/items/{id}`.
A placeholder may carry a type hint behind a colon, which the displayed path leaves out.
-/

namespace ApiManifest

/-- A path template, taken apart. -/
structure PathTemplate where
  /-- The template with single slashes. -/
  path : String
  /-- The template without type hints. -/
  display : String
  /-- The names of the placeholders in order, each with its type hint. -/
  params : Fields (Option String)
  deriving DecidableEq, Repr

namespace PathTemplate

/-- The parts between slashes, empty ones left out. -/
def segments (path : String) : List (List Char) := Text.pieces '/' path.toList

/-- A character that ends a placeholder or keeps it from being one. -/
def isBoundary (c : Char) : Bool := c == '/' || c == '\x7b' || c == '\x7d'

/-- A piece of a template: a placeholder between braces, or a character that belongs to none. -/
inductive Piece where
  | placeholder (inner : List Char)
  | char (c : Char)
  deriving DecidableEq, Repr

/-- Cuts a template into its pieces. `opened` holds, backwards, what follows a brace that may yet
be closed. -/
def piecesFrom : (opened : Option (List Char)) → List Char → List Piece
  | none, [] => []
  | some inner, [] => .char '\x7b' :: inner.reverse.map .char
  | none, c :: rest =>
    if c = '\x7b' then piecesFrom (some []) rest else .char c :: piecesFrom none rest
  | some inner, c :: rest =>
    if c = '\x7d' ∧ inner ≠ [] then .placeholder inner.reverse :: piecesFrom none rest
    else if c = '\x7b' then
      (.char '\x7b' :: inner.reverse.map .char) ++ piecesFrom (some []) rest
    else if isBoundary c then
      (.char '\x7b' :: inner.reverse.map .char) ++ .char c :: piecesFrom none rest
    else piecesFrom (some (c :: inner)) rest

/-- The pieces of a template or of a part of it. -/
def pieces (cs : List Char) : List Piece := piecesFrom none cs

/-- The name in a placeholder, which ends at the first colon. -/
def paramName (inner : List Char) : List Char := (Text.cut ':' inner).1

/-- The type hint in a placeholder. -/
def paramType? (inner : List Char) : Option String :=
  match (Text.cut ':' inner).2 with
  | none | some [] => none
  | some hint => some (String.ofList hint)

/-- A piece without its type hint. -/
def Piece.display : Piece → List Char
  | .placeholder inner => '\x7b' :: paramName inner ++ ['\x7d']
  | .char c => [c]

/-- The placeholders of some pieces by name, the last hint for a name counting. -/
def paramsOf (pieces : List Piece) : Fields (Option String) :=
  pieces.foldl (fun params piece => match piece with
    | .placeholder inner => Fields.put (String.ofList (paramName inner)) (paramType? inner) params
    | .char _ => params) []

/-- A slash, and the segments with slashes between them. -/
def ofSegments (segments : List (List Char)) : String :=
  String.ofList ('/' :: Text.joinWith '/' segments)

/-- Takes a template apart. For the collection the last segment, which identifies an item, is
dropped. -/
def parse (raw : String) (collection : Bool) : PathTemplate :=
  let all := segments raw
  let kept := if collection then all.dropLast else all
  { path := ofSegments kept
    display := ofSegments (kept.map fun s => (pieces s).flatMap Piece.display)
    params := paramsOf (pieces (ofSegments kept).toList) }

/-- Joins paths, with single slashes. An absent part has no segments. -/
def join (parts : List (Option String)) : String :=
  ofSegments (parts.flatMap fun part => segments (part.getD ""))

end PathTemplate
end ApiManifest
