import ApiManifest.FileTree
import ApiManifest.Yaml.Load

/-!
# Manifest files

A manifest is a YAML file whose contents are a mapping. Its lines may end in any of the usual
ways.
-/

namespace ApiManifest.Manifest

/-- The text with every line ended by a line feed. -/
def unifyLines : List Char → List Char
  | '\r' :: '\n' :: rest => '\n' :: unifyLines rest
  | '\r' :: rest => '\n' :: unifyLines rest
  | c :: rest => c :: unifyLines rest
  | [] => []

/-- The text of a file. -/
def decode (contents : ByteArray) : Except Error (List Char) :=
  match String.fromUTF8? contents with
  | some s => .ok (unifyLines s.toList)
  | none => .error .notUtf8

/-- The manifest that the text of a file describes, as an object of a store. It is refused if a
part of it contains itself. -/
def ofText (st : Store) (path : String) (text : List Char) : Except Error (Store × Value) := do
  let (st, v) ← Yaml.load st text
  match st.entries? v with
  | some _ => if st.hasTree v then return (st, v) else throw .selfContaining
  | none => throw (.manifestNotMapping path (st.kindName v))

/-- The manifest that the contents of a file describe. -/
def ofContents (st : Store) (path : String) (contents : ByteArray) :
    Except Error (Store × Value) := do
  ofText st path (← decode contents)

/-- The manifest in a file. -/
def read (st : Store) (files : FileTree) (path : String) : Except Error (Store × Value) := do
  ofContents st path (← files.read path)

end ApiManifest.Manifest
