import ApiManifest.BaseUri
import ApiManifest.Json
import ApiManifest.Yaml.Load

/-!
# The baseline document

A document begins with what the manifest says about the interface as a whole. These fields are
filled into a template, which is read back as YAML: every value is written as JSON, whose texts
mean the same in YAML however odd they are.
-/

namespace ApiManifest

/-- What a manifest says about the interface as a whole. -/
structure Metadata where
  title : String
  description : Tree
  version : String
  schemes : List Tree
  formats : List Tree
  host : String
  basePath : String

namespace Metadata

/-- The scheme that base URIs have by default. -/
def usualScheme : String := "https"

/-- A value as a list: null is the empty one, and whatever is no list or tuple is a single
item. -/
def asList : Tree → List Tree
  | .scalar .null => []
  | .list items | .tuple items => items
  | v => [v]

/-- The text of a value, which is empty if the value is. -/
def textOf (v : Tree) : Except Error String := if v.holds then v.display else .ok ""

/-- What a manifest says. -/
def ofManifest (manifest : Tree) : Except Error Metadata :=
  match manifest with
  | .map es => do
    let field (name : String) : Tree := (Entries.get? es name).getD .null
    let schemes := asList (field "schemes")
    let scheme ← (schemes.head?.getD (.text usualScheme)).display
    let (host, basePath) ← BaseUri.split (← textOf (field "baseUri")) scheme
    return {
      title := ← textOf (field "title")
      description := field "description"
      version := ← match field "version" with
        | .scalar .null => pure ""
        | version => version.display
      schemes
      formats := asList (field "formats")
      host
      basePath }
  | _ => .error .notMapping

/-- The fields that the template takes. -/
def entries (m : Metadata) : Entries := [
  (.text "title", .text m.title),
  (.text "description", m.description),
  (.text "version", .text m.version),
  (.text "schemes", .list m.schemes),
  (.text "formats", .list m.formats),
  (.text "host", .text m.host),
  (.text "base_path", .text m.basePath)]

end Metadata

namespace Baseline

/-- A character of JSON that is written by its code in the template. -/
def escapedChar (c : Char) : List Char :=
  if c = '<' ∨ c = '>' ∨ c = '&' ∨ c = '\'' then '\\' :: 'u' :: Text.hexPadded c.toNat 4 else [c]

/-- A value in the template. -/
def filled (v : Tree) : Except Error String := do
  return String.ofList ((← Json.inline v).toList.flatMap escapedChar)

/-- Whether the names of fields are texts, and none is the one that the template has itself. -/
def areNames (fields : Entries) : Bool :=
  fields.all fun (k, _) => match k with
    | .scalar (.text s) => s != "self"
    | _ => false

/-- A field of the template; it has to be given. -/
def given (fields : Entries) (name : String) : Except Error String :=
  match Entries.get? fields name with
  | some v => filled v
  | none => .error .badFields

/-- The line about the description, which is left out when that is null. -/
def descriptionLine (fields : Entries) : Except Error String :=
  match Entries.get? fields "description" with
  | some .null => .ok ""
  | _ => do return "  description: " ++ (← given fields "description") ++ "\n"

/-- The template with its fields. -/
def text (fields : Entries) : Except Error String := do
  if !areNames fields then throw .badFields
  let title ← given fields "title"
  let description ← descriptionLine fields
  let version ← given fields "version"
  let schemes ← given fields "schemes"
  let formats ← given fields "formats"
  let host ← given fields "host"
  let basePath ← given fields "base_path"
  return "swagger: \"2.0\"\ninfo:\n"
    ++ "  title: " ++ title ++ "\n"
    ++ description
    ++ "  version: " ++ version ++ "\n"
    ++ "schemes: " ++ schemes ++ "\n"
    ++ "consumes: " ++ formats ++ "\n"
    ++ "produces: " ++ formats ++ "\n"
    ++ "host: " ++ host ++ "\n"
    ++ "basePath: " ++ basePath ++ "\n"
    ++ "paths: \x7b\x7d\ndefinitions: \x7b\x7d\n"

/-- The document that the template makes of some fields. -/
def ofFields (fields : Tree) : Except Error Tree :=
  match fields with
  | .map es => do
    let (st, v) ← Yaml.load .empty (← text es).toList
    return st.tree v
  | _ => .error .badFields

/-- The baseline of a manifest. -/
def ofManifest (manifest : Tree) : Except Error Tree := do
  ofFields (.map (← Metadata.ofManifest manifest).entries)

end Baseline
end ApiManifest
