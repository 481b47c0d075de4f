import ApiManifest.Error
import ApiManifest.FilePath

/-!
# Files

The files and directories that a program can see, and what looking up a path in them comes to.
-/

namespace ApiManifest

/-- Files by the names on the way to them; a directory has no contents. The outermost directory
is always there. -/
structure FileTree where
  entries : List (List String × Option ByteArray) := []

namespace FileTree

/-- The directory from which paths that do not begin with a slash start. -/
def workingDirectory : List String := ["work"]

/-- What a file tree has at a place. -/
inductive Kind where
  | missing
  | directory
  | file (contents : ByteArray)

/-- A file tree with nothing in its working directory. -/
def empty : FileTree := { entries := [(workingDirectory, none)] }

/-- What is at a place. -/
def at? (t : FileTree) (place : List String) : Kind :=
  if place.isEmpty then .directory
  else match t.entries.lookup place with
    | none => .missing
    | some none => .directory
    | some (some contents) => .file contents

/-- Puts something at a place. -/
def put (t : FileTree) (place : List String) (contents : Option ByteArray) : FileTree :=
  { entries := t.entries.filter (·.1 != place) ++ [(place, contents)] }

/-- Goes on from a directory by names, all of which have to be directories. -/
def walk (t : FileTree) (place : List String) : List String → Except FileFault (List String)
  | [] => .ok place
  | name :: rest =>
    if name = "" ∨ name = "." then walk t place rest
    else if name = ".." then walk t place.dropLast rest
    else match t.at? (place ++ [name]) with
      | .missing => .error .notFound
      | .file _ => .error .notDirectory
      | .directory => walk t (place ++ [name]) rest

/-- The place that a path leads to, which may be empty as long as its directory is there. -/
def resolve (t : FileTree) (path : String) : Except FileFault (List String) := do
  if path = "" then throw .notFound
  let names := (Text.splitAt '/' path.toList).map String.ofList
  let start := if path.startsWith "/" then [] else workingDirectory
  let directory ← walk t start names.dropLast
  match names.getLast? with
  | none | some "" | some "." => return directory
  | some ".." => return directory.dropLast
  | some name => return directory ++ [name]

/-- What an operation on a path makes of a fault. -/
def faultAt (path : String) {α : Type} : Except FileFault α → Except Error α
  | .ok a => .ok a
  | .error fault => .error (.file fault path)

/-- Refuses a path with a null character. -/
def checkPath (path : String) : Except Error Unit :=
  if path.toList.contains '\x00' then .error .nullInPath else .ok ()

/-- The contents of a file. -/
def read (t : FileTree) (path : String) : Except Error ByteArray := do
  checkPath path
  faultAt path do
    match t.at? (← t.resolve path) with
    | .missing => throw .notFound
    | .directory => throw .isDirectory
    | .file contents => return contents

/-- Writes a file, whose directory has to be there. -/
def write (t : FileTree) (path : String) (contents : ByteArray) : Except Error FileTree := do
  checkPath path
  faultAt path do
    let place ← t.resolve path
    match t.at? place with
    | .directory => throw .isDirectory
    | _ => return t.put place (some contents)

/-- Makes a directory in one that is there. -/
def makeDirectory (t : FileTree) (path : String) : Except Error FileTree := do
  checkPath path
  faultAt path do
    let place ← t.resolve path
    match t.at? place with
    | .missing => return t.put place none
    | _ => throw .alreadyExists

/-- Whether a path leads to a directory. -/
def isDirectory (t : FileTree) (path : String) : Bool :=
  match t.resolve path with
  | .ok place => (t.at? place matches .directory)
  | .error _ => false

/-- Makes a directory unless it is there. -/
def ensureDirectory (t : FileTree) (path : String) : Except Error FileTree :=
  match t.makeDirectory path with
  | .ok t => .ok t
  | .error e => if t.isDirectory path then .ok t else .error e

/-- Makes a directory and those on the way to it, unless they are there. Gives the tree with the
directories that were made before a failure, too. -/
def ensureDirectories (root : String) : (names : List String) → FileTree →
    Except Error Unit × FileTree
  | names, t =>
    let path := (FilePath.mk root names).text
    match t.makeDirectory path with
    | .ok t => (.ok (), t)
    | .error (.file .notFound p) =>
      if _h : names = [] then (.error (.file .notFound p), t)
      else
        match ensureDirectories root names.dropLast t with
        | (.error e, t) => (.error e, t)
        | (.ok (), t) => match t.ensureDirectory path with
          | .ok t => (.ok (), t)
          | .error e => (.error e, t)
    | .error e => if t.isDirectory path then (.ok (), t) else (.error e, t)
termination_by names => names.length
decreasing_by
  have := List.length_pos_iff.mpr _h
  simp only [List.length_dropLast]
  omega

end FileTree
end ApiManifest
