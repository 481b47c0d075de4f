import ApiManifest.Baseline
import ApiManifest.PathItem

/-!
# Documents

A document is made of a manifest resource by resource, in the order of their declaration. What a
resource contributes is merged into what is there: resources may share definitions and paths.
-/

namespace ApiManifest

/-- A document: what the manifest says about the interface as a whole, and the two sections that
the resources fill. -/
structure Document where
  baseline : Entries
  paths : Fields Node := []
  definitions : Fields Node := []

namespace Document

/-- The document with all that it refers to. -/
def tree (st : Store) (d : Document) : Tree :=
  let entries := Entries.put (.text "paths") (.map (Node.entries st d.paths)) d.baseline
  .map (Entries.put (.text "definitions") (.map (Node.entries st d.definitions)) entries)

/-- Makes the document an object of the store. Gives its entries. -/
def insert (st : Store) (d : Document) : Store × List (Value × Value) :=
  let (st, es) := st.insertEntries d.baseline
  let (st, paths) := Node.insert st (.map d.paths)
  let es := st.put (.text "paths") paths es
  let (st, definitions) := Node.insert st (.map d.definitions)
  (st, st.put (.text "definitions") definitions es)

variable {σ : Type}

/-! ## Resources -/

/-- Merges what a resource contributes into a document. -/
def addResource (d : Document) (r : Resource) (options : Options) (backend : Backend)
    (generator : Option (Generator σ)) : Run σ Document := do
  let definitions ← Definition.ofResource r options generator
  let definitions ← Run.onStore (Node.mergeFields d.definitions definitions)
  let paths ← PathItem.ofResource r options (some backend)
  let paths ← Run.onStore (Node.mergeFields d.paths paths)
  return { d with paths, definitions }

/-- The record that a resource's turn has come, when its name can be shown. -/
def generating (st : Store) (name : Value) : List Log.Record :=
  match (st.tree name).display with
  | .ok text => [⟨.assembly, .debug, s!"Generating resource {text}"⟩]
  | .error _ => []

/-- Merges what the resources contribute, one after the other. A declaration is read when its turn
comes, as earlier resources may have changed it. -/
def addModels (options : Options) (backend : Backend) (generator : Option (Generator σ)) :
    List (Value × Value) → Document → Run σ Document
  | [], d => pure d
  | (name, decl) :: rest, d => do
    Run.tell (generating (← get).store name)
    let resource ← Run.reading fun st => do
      Resource.ofModel st (← (st.tree name).display) decl
    let d ← addResource d resource options backend generator
    addModels options backend generator rest d

/-! ## Manifests -/

/-- The resources that a manifest declares. Without any, and whatever is empty, there are none. -/
def models (st : Store) (manifest : Value) : Except Error Value :=
  match st.entries? manifest with
  | some es =>
    let models := st.field es "models"
    .ok (if st.holds models then models else .null)
  | none => .error .notMapping

/-- The declarations of the resources of a manifest, in order. -/
def declarations (st : Store) (manifest : Value) : Except Error (List (Value × Value)) := do
  match ← models st manifest with
  | .scalar .null => return []
  | v => match st.entries? v with
    | some es => return es
    | none => throw .notMapping

/-- The record of a finished document. -/
def assembled (d : Document) : Log.Record :=
  ⟨.assembly, .info,
    s!"Assembled {d.paths.length} paths and {d.definitions.length} definitions"⟩

/-- The document of a manifest. -/
def build (manifest : Value) (options : Options) (generator : Option (Generator σ)) :
    Run σ Document := do
  let baseline ← Run.reading fun st => Baseline.ofManifest (st.tree manifest)
  let backend ← Run.reading fun _ => Backend.ofDocument baseline
  let entries := match baseline with
    | .map es => es
    | _ => []
  let declared ← Run.reading fun st => declarations st manifest
  let d ← addModels options backend generator declared { baseline := entries }
  Run.tell [assembled d]
  return d

end Document
end ApiManifest
