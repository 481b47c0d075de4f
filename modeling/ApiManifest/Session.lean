import ApiManifest.Manifest
import ApiManifest.Output

/-!
# Generating files

From a manifest to the file of its document. Nothing is written before all of the text is there,
and the output path is looked at before anything else.
-/

namespace ApiManifest

/-- Where a manifest comes from. -/
inductive ManifestSource where
  | file (path : String)
  | value (manifest : Tree)
  /-- A value of objects that are there already, some of which may stand in it more than once. -/
  | object (manifest : Value)

/-- The manifest of a source, as a value of a store. -/
def ManifestSource.load (source : ManifestSource) (st : Store) (files : FileTree) :
    Except Error (Store × Value) :=
  match source with
  | .file path => Manifest.read st files path
  | .value manifest => .ok (st.insert manifest)
  | .object manifest => .ok (st, manifest)

/-- Where examples come from. -/
inductive ExampleSource where
  /-- From the values of a mapping. -/
  | fixed (values : Tree)
  /-- From providers that start from a seed, or from the usual one. -/
  | providers (table : Fields Provider) (seed : Option Int)
  /-- From providers that start from the seed of the options, if these ask for examples. -/
  | standard (table : Fields Provider)

namespace ExampleSource

/-- The generator that is there before the options are known. Its values are objects of the
store. -/
def prepare (source : ExampleSource) (st : Store) :
    Store × Option (Generator Providers.Calls) :=
  match source with
  | fixed values =>
    let (st, v) := st.insert values
    (st, some (.fixed v))
  | providers table seed =>
    (st, some (Providers.generator { table, seed := seed.getD Providers.usualSeed }))
  | standard _ => (st, none)

/-- The generator of a run with some options, when `prepared` was there before. -/
def generator (source : ExampleSource) (prepared : Option (Generator Providers.Calls))
    (options : Options) : Option (Generator Providers.Calls) :=
  match prepared, source with
  | some g, _ => some g
  | none, standard table =>
    if options.examples then
      some (Providers.generator { table, seed := options.seed.getD Providers.usualSeed })
    else none
  | none, _ => none

end ExampleSource

/-- What a program sees and leaves behind. -/
structure Session where
  files : FileTree := .empty
  /-- What was printed. -/
  printed : String := ""
  log : Array Log.Record := #[]

/-- Something done in a session. What was done before a failure stays done. -/
abbrev Job := ExceptT Error (StateM Session)

namespace Job

/-- Only reads files. -/
def reading {α : Type} (read : FileTree → Except Error α) : Job α := do
  match read (← get).files with
  | .ok a => pure a
  | .error e => throw e

/-- Changes files. -/
def writing (work : FileTree → Except Error FileTree) : Job Unit := do
  match work (← get).files with
  | .ok files => modify fun s => { s with files }
  | .error e => throw e

/-- Makes the directory of a path and those around it. -/
def ensureParent (path : FilePath) : Job Unit := do
  let parent := path.parent
  let (result, files) := FileTree.ensureDirectories parent.root parent.names (← get).files
  modify fun s => { s with files }
  match result with
  | .ok () => pure ()
  | .error e => throw e

/-- Takes a result that may be an error. -/
def ofExcept {α : Type} (result : Except Error α) : Job α :=
  match result with
  | .ok a => pure a
  | .error e => throw e

/-- Writes a document to a file, whose suffix chooses the format. Gives the path of the file. -/
def write (st : Store) (document : Value) (path : FilePath) : Job FilePath := do
  let format ← ofExcept (Format.ofPath path path.text)
  let text ← ofExcept (Output.render st document format)
  ensureParent path
  writing fun files => files.write path.text text.toUTF8
  let line ← ofExcept (Output.summary (st.tree document) path)
  modify fun s => { s with printed := s.printed ++ line }
  return path

/-- Generates the document of a manifest and writes it. The manifest is read before the options
are, so what is wrong with it comes first. Which generator answers can depend on the options; its
first state is `memory`. Gives the document as a value. -/
def generateWith {σ : Type} (st : Store) (memory : σ)
    (generator : Options → Option (Generator σ)) (source : ManifestSource) (output : String)
    (options : Except Error Options) : Job Tree := do
  let _ ← ofExcept (Format.ofPathText output)
  let (st, manifest) ← reading fun files => source.load st files
  let options ← ofExcept options
  let run : Run σ Document := Document.build manifest options (generator options)
  let (result, world) := run.run { store := st, examples := memory }
  modify fun s => { s with log := s.log ++ world.log }
  let document ← ofExcept result
  let (st, es) := document.insert world.store
  let (st, v) := st.alloc (.map es)
  let _ ← write st v (.ofText output)
  return st.tree v

/-- Generates the document of a manifest and writes it, with examples from a source. -/
def generate (source : ManifestSource) (output : String) (options : Except Error Options)
    (examples : ExampleSource) : Job Tree :=
  let (st, prepared) := examples.prepare .empty
  generateWith st [] (examples.generator prepared) source output options

end Job
end ApiManifest
