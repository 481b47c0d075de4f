import ApiManifest.CommandLine
import ApiManifest.Session

/-!
# The command

What the command does with its arguments, and how it ends when something is wrong: it says what,
and its exit code tells whether the output path or anything else is to blame.
-/

namespace ApiManifest

namespace Error

/-- The exit code of a command that ends for this cause. Causes without one are not foreseen. -/
def exitCode? : Error → Option Nat
  | unsupportedPath _ | unsupportedFormat _ => some 2
  | manifestNotMapping .. | noBackend | file .. | yaml | notUtf8 | nullInPath | badNumeral
  | longNumeral | badDate | badCharacterCode | notPair | badHost | circular
  | provider .badValue => some 1
  | _ => none

/-- What a command says about the cause that ends it. -/
def reason (e : Error) : String :=
  match e.message?, e with
  | some message, _ => message
  | none, file fault path => s!"{fault.description}: {Text.quoted path}"
  | none, yaml => "what is read or written is no YAML document"
  | none, notUtf8 => "the manifest is not UTF-8"
  | none, nullInPath => "a path holds a null character"
  | none, badNumeral => "a text is no numeral"
  | none, longNumeral => "a numeral is too long"
  | none, badDate => "a date or a time is not in the calendar"
  | none, badCharacterCode => "there is no character of a code"
  | none, notPair => "a key and a value are needed"
  | none, badHost => "the host of the base URI is malformed"
  | none, circular => "a value contains itself"
  | none, provider .badValue => "an example provider fails"
  | none, _ => "the manifest cannot be used"

/-- The line in which a command says it. -/
def complaint (e : Error) : String := s!"error: {e.reason}\n"

end Error

namespace CommandLine

/-- Does what is asked for, examples coming from some providers. -/
def Request.job (r : Request) (table : Fields Provider) : Job Unit :=
  match r.output with
  | some output => do
    let _ ← Job.generate (.file r.manifest) output (.ok r.options) (.standard table)
  | none => throw .noOutput

/-- The lines of a log that are written when a request is dealt with. -/
def Request.shown (r : Request) (log : Array Log.Record) : List String :=
  (log.toList.filter (Log.Record.isShown r.verbose)).map Log.Record.line

end CommandLine
end ApiManifest
