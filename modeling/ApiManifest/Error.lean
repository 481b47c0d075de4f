/-!
# Errors

What can go wrong, by cause. The program words only the errors that are its own; files name the
path they were asked for.
-/

namespace ApiManifest

/-- What an example provider raises when it is asked. -/
inductive ProviderFault where
  | needsArguments
  | badValue
  | missingAttribute
  deriving DecidableEq, Repr

/-- What an operation on files runs into. -/
inductive FileFault where
  | notFound
  | isDirectory
  | notDirectory
  | alreadyExists
  deriving DecidableEq, Repr

/-- The cause of a failure. -/
inductive Error where
  /-- Entries of something that is no mapping are asked for. -/
  | notMapping
  /-- Items of something that has none are asked for. -/
  | notIterable
  /-- A list, a set or a mapping is to serve as a key. -/
  | unhashable
  /-- The output format has no form for the value. -/
  | unserializable
  /-- Keys of different kinds are to be sorted. -/
  | unsortable
  /-- Something other than a number or a numeral is to be a number. -/
  | notNumber
  /-- A length or an item is asked of something that has none. -/
  | notSequence
  /-- The fields of a template are not those that it needs. -/
  | badFields
  /-- A key is not there. -/
  | missingKey
  /-- An item is beyond the end. -/
  | missingItem
  /-- A text is no numeral. -/
  | badNumeral
  /-- A numeral, or the one to be written, has too many digits. -/
  | longNumeral
  /-- A number is beyond the range. -/
  | overflow
  /-- A text that is said to be a date is none. -/
  | notDate
  /-- The calendar or the clock lacks the date or time. -/
  | badDate
  /-- A character code is beyond the range of characters. -/
  | badCharacterCode
  /-- A pair of key and value is needed. -/
  | notPair
  /-- The host of a base URI is malformed. -/
  | badHost
  /-- A path holds a null character. -/
  | nullInPath
  /-- A file's bytes are not UTF-8. -/
  | notUtf8
  /-- A text is not a YAML document that can be read, or a value has no YAML form. -/
  | yaml
  /-- A mapping grows while its entries are gone through. -/
  | changedDuringIteration
  /-- A value contains itself. -/
  | selfContaining
  /-- A value contains itself and is to be written in a format that cannot say so. -/
  | circular
  /-- The provider of an example fails. -/
  | provider (fault : ProviderFault)
  /-- The operating system refuses a path. -/
  | file (fault : FileFault) (path : String)
  /-- A manifest file holds something other than a mapping. -/
  | manifestNotMapping (path : String) (kind : String)
  /-- Integrations are on and there is nothing to forward to. -/
  | noBackend
  /-- The output path's suffix, the path being quoted, names no format. -/
  | unsupportedPath (quoted : String)
  /-- There is no output format of this quoted name. -/
  | unsupportedFormat (quoted : String)
  /-- An output path is missing. -/
  | noOutput
  deriving DecidableEq, Repr

/-- The system's number and text for a fault. -/
def FileFault.description : FileFault → String
  | .notFound => "[Errno 2] No such file or directory"
  | .isDirectory => "[Errno 21] Is a directory"
  | .notDirectory => "[Errno 20] Not a directory"
  | .alreadyExists => "[Errno 17] File exists"

/-- The wording of the errors that are the program's own. -/
def Error.message? : Error → Option String
  | .manifestNotMapping path kind => some s!"{path}: manifest must be a mapping, got {kind}"
  | .noBackend => some "api_gateway is enabled but no backend was given"
  | .unsupportedPath quoted => some s!"Output path must end in .json or .yaml, got {quoted}"
  | .unsupportedFormat quoted => some s!"Unsupported output format {quoted}"
  | _ => none

end ApiManifest
