import ApiManifest.Command

/-!
# The program

The outermost layer: it reads the manifest's file and writes the document's. What is between the
two is decided elsewhere.
-/

namespace ApiManifest.CommandLine

/-- How the command is used. -/
def usage : String :=
  "usage: api-manifest [-h] [--no-examples] [--no-validators] [--api-gateway] [--seed SEED] [-v]\n"
    ++ "                    manifest output\n"

/-- The fault that an error of the system stands for. -/
def faultOf? (e : IO.Error) : Option FileFault :=
  match e with
  | .noFileOrDirectory .. => some .notFound
  | .alreadyExists .. => some .alreadyExists
  | .inappropriateType _ code _ => some (if code = 21 then .isDirectory else .notDirectory)
  | _ => none

/-- What is done with a path; faults that have a name become errors. -/
def onPath {α : Type} (path : String) (action : IO α) : ExceptT Error IO α := do
  match ← action.toBaseIO with
  | .ok a => return a
  | .error e => match faultOf? e with
    | some fault => throw (.file fault path)
    | none => throwThe IO.Error e

/-- Reads the manifest and gives the text of its document and the line that tells of it. -/
def Request.textOf (r : Request) (output : String) : ExceptT Error IO (String × String) := do
  let format ← ExceptT.mk (pure (Format.ofPathText output))
  let contents ← onPath r.manifest (IO.FS.readBinFile r.manifest)
  let (st, manifest) ← ExceptT.mk (pure (Manifest.ofContents .empty r.manifest contents))
  let generator := (ExampleSource.standard []).generator none r.options
  let run : Run Providers.Calls Document := Document.build manifest r.options generator
  let (result, world) := run.run { store := st, examples := [] }
  for line in r.shown world.log do
    IO.eprintln line
  let document ← ExceptT.mk (pure result)
  let text ← ExceptT.mk (pure (Output.renderDocument world.store document format))
  let line ← ExceptT.mk (pure
    (Output.summary (document.tree world.store) (.ofText output)))
  return (text, line)

/-- Does what is asked for. -/
def Request.perform (r : Request) : ExceptT Error IO Unit := do
  let output ← match r.output with
    | some output => pure output
    | none => throw .noOutput
  let (text, line) ← r.textOf output
  let path := FilePath.ofText output
  onPath path.parent.text (IO.FS.createDirAll path.parent.text)
  onPath path.text (IO.FS.writeFile path.text text)
  IO.print line

/-- Runs the command with some arguments. Gives its exit code. -/
def run (args : List String) : IO UInt32 := do
  match parse args with
  | .help => IO.print usage; return 0
  | .misuse => IO.eprint usage; return 2
  | .request r =>
    match ← r.perform with
    | .ok () => return 0
    | .error e =>
      IO.eprint e.complaint
      return (e.exitCode?.getD 1).toUInt32

end ApiManifest.CommandLine

/-- Runs the command. -/
def main (args : List String) : IO UInt32 := ApiManifest.CommandLine.run args
