import ApiManifest.Data.Display
import ApiManifest.Data.Store
import ApiManifest.Log

/-!
# Example values

A property without an example of its own shows one that a generator gives for the kind of value
that it holds. A generator is asked by a key and may have nothing to answer; what it answers may
depend on what it was asked before.
-/

namespace ApiManifest

/-- What comes of asking a generator. -/
structure Reply (σ : Type) where
  /-- The example, null if the generator has none. -/
  result : Except Error Value
  /-- The generator's next state. -/
  state : σ
  /-- What it tells about its answer. -/
  log : List Log.Record := []

/-- A source of example values with states `σ`. It may look at objects, but makes and changes
none. -/
structure Generator (σ : Type) where
  ask : Store → (key : String) → σ → Reply σ

namespace Generator

variable {σ : Type}

/-- The value at a key of a mapping of examples, null when there is none. -/
def lookup (st : Store) (examples : Value) (key : Value) : Value :=
  (st.find? key ((st.entries? examples).getD [])).getD .null

/-- The generator that always answers with the values of one mapping. -/
def fixed (examples : Value) : Generator σ where
  ask st key state := { result := .ok (lookup st examples (.text key)), state }

end Generator

/-! ## Providers -/

/-- What a provider returns when it is called. -/
inductive Provided where
  | value (t : Tree)
  /-- A time of day, by its text. -/
  | time (text : String)
  /-- A decimal number, by its text. -/
  | decimal (text : String)
  deriving Repr, Inhabited

/-- An example provider. -/
inductive Provider where
  /-- Always returns the same. -/
  | returns (v : Provided)
  /-- Returns the items of a list in turn. -/
  | sequence (items : List Provided)
  /-- Returns texts that tell the seed and the number of the call. -/
  | seeded (label : String)
  /-- Raises. -/
  | raises (fault : ProviderFault)
  /-- Cannot be called. -/
  | attribute
  deriving Repr, Inhabited

/-- The providers of a source of examples, by name, and the number that the source starts from. -/
structure Providers where
  table : Fields Provider
  seed : Int
  locale : String := "en_US"

/-- How often each provider was called. -/
abbrev Providers.Calls := Fields Nat

namespace Provided

/-- The example that a returned value makes: a scalar, or the text of a date or a time. -/
def toScalar : Provided → Except Error Scalar
  | .value (.scalar (.bytes _)) => .ok .null
  | .value (.scalar s) => .ok s
  | .value (.date d) => .ok (.text (String.ofList d.text))
  | .value (.dateTime t) => .ok (.text (String.ofList (t.text 'T')))
  | .value _ => .ok .null
  | .time text => .ok (.text text)
  | .decimal text => do return .float (← Numeral.float text.toList)

/-- The word for the kind of a returned value. -/
def kindName : Provided → String
  | .value t => t.kindName
  | .time _ => "time"
  | .decimal _ => "Decimal"

end Provided

namespace Providers

/-- The seed of examples if none is set, so that runs can be repeated. -/
def usualSeed : Int := 0

/-- The provider of a name. Names with an underscore in front are hidden. -/
def provider? (ps : Providers) (key : String) : Option Provider :=
  if key.startsWith "_" then none else ps.table.get? key

/-- What the `n`-th call of a provider returns, counted from zero. -/
def call (ps : Providers) (n : Nat) : Provider → Except ProviderFault Provided
  | .returns v => .ok v
  | .sequence items => .ok ((items[n % items.length]?).getD (.value .null))
  | .seeded label => .ok (.value (.text s!"{label}-{ps.locale}-{ps.seed}-{n}"))
  | .raises fault => .error fault
  | .attribute => .error .needsArguments

/-- A record about an example. -/
def note (message : String) : Log.Record := ⟨.examples, .debug, message⟩

/-- Asks the provider that the key names. Without such a provider, or if it cannot be called
without arguments or returns nothing that a schema can show, there is no example. -/
def ask (ps : Providers) (key : String) (calls : Calls) : Reply Calls :=
  let nothing (log : List Log.Record) (calls : Calls) : Reply Calls :=
    { result := .ok .null, state := calls, log }
  if key = "" || key.startsWith "_" then nothing [] calls
  else match ps.provider? key with
    | none | some .attribute =>
      nothing [note s!"No example provider for {Text.quoted key}"] calls
    | some provider =>
      let n := (calls.get? key).getD 0
      let calls := calls.put key (n + 1)
      match ps.call n provider with
      | .error .needsArguments =>
        nothing [note
          s!"Example provider {Text.quoted key} is not usable without arguments"] calls
      | .error fault => { result := .error (.provider fault), state := calls }
      | .ok provided => match provided.toScalar with
        | .error e => { result := .error e, state := calls }
        | .ok .null =>
          nothing [note
            s!"Example provider {Text.quoted key} returned {provided.kindName}, skipping"] calls
        | .ok s => { result := .ok (.scalar s), state := calls }

/-- The generator that asks the providers. -/
def generator (ps : Providers) : Generator Calls where
  ask _ key calls := ps.ask key calls

end Providers
end ApiManifest
