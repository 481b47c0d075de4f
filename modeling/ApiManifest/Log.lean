/-!
# Log records

What a run tells about itself besides its result.
-/

namespace ApiManifest

/-- How much a record matters. -/
inductive Log.Level where
  | debug | info | warning
  deriving DecidableEq, Repr

/-- The part of the program that a record comes from. -/
inductive Log.Source where
  | assembly | definitions | examples | paths
  deriving DecidableEq, Repr

/-- A log record. -/
structure Log.Record where
  source : Log.Source
  level : Log.Level
  message : String
  deriving DecidableEq, Repr

namespace Log

/-- The name of a level. -/
def Level.name : Level → String
  | debug => "DEBUG"
  | info => "INFO"
  | warning => "WARNING"

/-- The name under which a part of the program writes. -/
def Source.name : Source → String
  | assembly => "swaggergen.assembler"
  | definitions => "swaggergen.definitions"
  | examples => "swaggergen.examples"
  | paths => "swaggergen.paths"

/-- The line of a record. -/
def Record.line (r : Record) : String := s!"{r.source.name} - {r.level.name} - {r.message}"

/-- Whether a record is written: the minor ones only if all are asked for. -/
def Record.isShown (verbose : Bool) (r : Record) : Bool := verbose || r.level != .debug

end Log
end ApiManifest
