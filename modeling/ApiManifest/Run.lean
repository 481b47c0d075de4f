import ApiManifest.Example

/-!
# Runs

A run reads and may change the objects of the manifest, asks a generator for examples and keeps a
log. Whatever happened before a failure has happened.
-/

namespace ApiManifest

/-- What a run works on. -/
structure World (σ : Type) where
  /-- The objects of the manifest and of the generator's values. -/
  store : Store := .empty
  /-- The state of the generator. -/
  examples : σ
  /-- The keys that the generator was asked, the first one first. -/
  asked : Array String := #[]
  /-- The log, the first record first. -/
  log : Array Log.Record := #[]

/-- A step of a run. -/
abbrev Run (σ : Type) := ExceptT Error (StateM (World σ))

namespace Run

variable {σ α : Type}

/-- A step that only reads objects. -/
def reading (read : Store → Except Error α) : Run σ α := do
  match read (← get).store with
  | .ok a => pure a
  | .error e => throw e

/-- A step that works on objects. -/
def onStore (work : Store.Work α) : Run σ α := do
  let w ← get
  let (result, store) := work.run w.store
  set { w with store }
  match result with
  | .ok a => pure a
  | .error e => throw e

/-- Adds records to the log. -/
def tell (records : List Log.Record) : Run σ Unit :=
  modify fun w => { w with log := w.log ++ records }

/-- Asks a generator for an example. -/
def ask (generator : Generator σ) (key : String) : Run σ Value := do
  let w ← get
  let reply := generator.ask w.store key w.examples
  set { w with examples := reply.state, asked := w.asked.push key, log := w.log ++ reply.log }
  match reply.result with
  | .ok v => pure v
  | .error e => throw e

end Run
end ApiManifest
