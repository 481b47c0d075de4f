import ApiManifest.Document
import ApiManifest.FilePath
import ApiManifest.Yaml.Render

/-!
# Output

The formats that a document is written in. The suffix of the output path chooses one.
-/

namespace ApiManifest

/-- A format of documents. -/
inductive Format where
  | json | yaml
  deriving DecidableEq, Repr

namespace Format

/-- The name of a format. -/
def name : Format → String
  | json => "json"
  | yaml => "yaml"

/-- The format of a name. -/
def ofName (name : String) : Except Error Format :=
  if name = "json" then .ok json
  else if name = "yaml" then .ok yaml
  else .error (.unsupportedFormat (Text.quoted name))

/-- The format of a suffix, in whatever case. -/
def ofSuffix? (suffix : List Char) : Option Format :=
  match Text.lower (String.ofList suffix) with
  | ".json" => some json
  | ".yaml" | ".yml" => some yaml
  | _ => none

/-- The format of an output path, which an error shows as the given text. -/
def ofPath (p : FilePath) (shown : String) : Except Error Format :=
  match ofSuffix? p.suffix with
  | some format => .ok format
  | none => .error (.unsupportedPath (Text.quoted shown))

/-- The format of the text of an output path. -/
def ofPathText (path : String) : Except Error Format := ofPath (.ofText path) path

end Format

namespace Output

/-- The items of a value. -/
def itemsOf (st : Store) : Value → Except Error (List Value)
  | .scalar (.text s) => .ok (s.toList.map fun c => .text c.toString)
  | .scalar (.bytes b) => .ok (b.map fun x => .scalar (.int x.toNat))
  | .scalar _ => .error .notIterable
  | v@(.ref _) => match st.cell? v with
    | some (.list items) | some (.tuple items) | some (.set items) => .ok items
    | some (.map es) => .ok (es.map Prod.fst)
    | _ => .error .notIterable

/-- Adds pairs of a key and a value, given as sequences of two items, to the entries of a
mapping. -/
def addPairs (st : Store) (es : List (Value × Value)) :
    List Value → Except Error (List (Value × Value))
  | [] => .ok es
  | pair :: rest => do
    match ← itemsOf st pair with
    | [key, value] =>
      if (st.tree key).isKey then addPairs st (st.put key value es) rest else throw .unhashable
    | _ => throw .notPair

/-- The entries of a document: of a mapping, or as pairs. -/
def entriesOf (st : Store) (document : Value) : Except Error (List (Value × Value)) :=
  match st.entries? document with
  | some es => .ok es
  | none => do addPairs st [] (← itemsOf st document)

/-- The text of a value in a format. -/
def render (st : Store) (document : Value) : Format → Except Error String
  | .json => Json.document st document
  | .yaml => do return Yaml.render (← Yaml.Outline.ofEntries st (← entriesOf st document))

/-- The text of a document in a format. -/
def renderDocument (st : Store) (d : Document) (format : Format) : Except Error String :=
  let (st, es) := d.insert st
  let (st, v) := st.alloc (.map es)
  render st v format

/-- How many parts a section of a document has. -/
def sectionSize (es : List (Tree × Tree)) (name : String) : Except Error Nat :=
  match Entries.get? es name with
  | none => .ok 0
  | some (.scalar (.text s)) => .ok s.length
  | some (.scalar (.bytes b)) => .ok b.length
  | some (.list items) | some (.tuple items) | some (.set items) => .ok items.length
  | some (.map entries) => .ok entries.length
  | some _ => .error .notSequence

/-- The line that tells what was written. -/
def summary (document : Tree) (path : FilePath) : Except Error String :=
  match document with
  | .map es => do
    let paths ← sectionSize es "paths"
    let definitions ← sectionSize es "definitions"
    return s!"Generated {path.text} ({paths} paths, {definitions} definitions)\n"
  | _ => .error .notMapping

end Output
end ApiManifest
