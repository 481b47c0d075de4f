import ApiManifest.Number.Numeral
import ApiManifest.Options
import ApiManifest.Text.Split

/-!
# The command line

`MANIFEST OUTPUT [options]`: the two paths in order, the options anywhere between them. The
beginning of a long option is enough if no other option begins so, and behind two dashes
everything is a path.
-/

namespace ApiManifest.CommandLine

/-- An option of the command line. -/
inductive Flag where
  | help | noExamples | noValidators | apiGateway | seed | verbose
  deriving DecidableEq, Repr

/-- The long and the short spellings of the options. -/
def spellings : List (String × Flag) := [
  ("-h", .help), ("--help", .help),
  ("--no-examples", .noExamples),
  ("--no-validators", .noValidators),
  ("--api-gateway", .apiGateway),
  ("--seed", .seed),
  ("-v", .verbose), ("--verbose", .verbose)]

/-- An argument by its form. -/
inductive Arg where
  /-- The two dashes behind which everything is a path. -/
  | dashes
  | word (text : String)
  /-- An option, and what stands behind its spelling: an equals sign and a text, or a text right
  behind a single letter. -/
  | flag (flag : Flag) (isShort : Bool) (attached : Option (List Char))
  /-- An option that there is not. -/
  | unknown
  deriving DecidableEq, Repr

/-- Digits of any script, at least one. -/
def areDigits (cs : List Char) : Bool := !cs.isEmpty && cs.all Text.isDigit

/-- Whether an argument is a negative number and so no option. A line feed may end it. -/
def isNegativeNumber (cs : List Char) : Bool :=
  match Text.dropLineFeed cs with
  | '-' :: rest =>
    areDigits rest ||
      match Text.cut '.' rest with
      | (whole, some fraction) => whole.all Text.isDigit && areDigits fraction
      | _ => false
  | _ => false

/-- The options that an argument can mean. Of a long option the beginning is enough; letters can
follow a short one. -/
def meanings (cs : List Char) : List Arg :=
  match cs with
  | '-' :: '-' :: _ =>
    let (name, value) := Text.cut '=' cs
    spellings.filterMap fun (spelling, flag) =>
      if name.isPrefixOf spelling.toList then some (.flag flag false value) else none
  | a :: b :: rest =>
    spellings.filterMap fun (spelling, flag) =>
      if spelling.toList = [a, b] then some (.flag flag true (some rest)) else none
  | _ => []

/-- The form of an argument in front of two dashes. An argument that could mean several options
has none. -/
def form? (arg : String) : Option Arg :=
  let cs := arg.toList
  let isShort (spelling : String) : Bool := spelling.length == 2
  if cs.head? ≠ some '-' ∨ cs.length = 1 then some (.word arg)
  else if arg = "--" then some .dashes
  else match spellings.lookup arg with
    | some flag => some (.flag flag (isShort arg) none)
    | none =>
      let (name, value) := Text.cut '=' cs
      let exact := if value.isSome then spellings.lookup (String.ofList name) else none
      match exact with
      | some flag =>
        some (.flag flag (isShort (String.ofList name)) value)
      | none => match meanings cs with
        | [meaning] => some meaning
        | _ :: _ :: _ => none
        | [] =>
          if isNegativeNumber cs || cs.contains ' ' then some (.word arg) else some .unknown

/-- The forms of all arguments. -/
def forms? : List String → Option (List Arg)
  | [] => some []
  | arg :: rest => do
    match ← form? arg with
    | .dashes => some (.dashes :: rest.map .word)
    | form => some (form :: (← forms? rest))

/-! ## Reading arguments -/

/-- What the arguments ask for. The second path is missing if only dashes stand in its place. -/
structure Request where
  manifest : String
  output : Option String
  options : Options
  verbose : Bool
  deriving DecidableEq, Repr

/-- What comes of the arguments. -/
inductive Invocation where
  | help
  | misuse
  | request (r : Request)
  deriving DecidableEq, Repr

/-- What the arguments read so far say. A path is given as nothing if only dashes stand in its
place. -/
structure Reading where
  paths : List (Option String) := []
  options : Options := {}
  verbose : Bool := false
  /-- There was something that is no path of the two and no option. -/
  surplus : Bool := false

/-- Takes one path off the front, together with the dashes before or behind it. -/
def takePath : List Arg → Option (Option String × List Arg)
  | .dashes :: .word w :: rest => some (some w, rest)
  | .word w :: .dashes :: rest => some (some w, rest)
  | .word w :: rest => some (if w = "--" then none else some w, rest)
  | _ => none

/-- Takes as many of `wanted` paths off the front as there are. -/
def takePaths : (wanted : Nat) → List Arg → List (Option String) × List Arg
  | 0, args => ([], args)
  | wanted + 1, args =>
    match takePath args with
    | some (path, rest) =>
      let (paths, rest) := takePaths wanted rest
      (path :: paths, rest)
    | none => ([], args)

/-- Whether an argument is a path or the dashes before paths. -/
def Arg.isPathLike : Arg → Bool
  | .dashes | .word _ => true
  | _ => false

/-- Sets what an option without a value says. -/
def Reading.set (r : Reading) : Flag → Reading
  | .noExamples => { r with options := { r.options with examples := false } }
  | .noValidators => { r with options := { r.options with validators := false } }
  | .apiGateway => { r with options := { r.options with apiGateway := true } }
  | .verbose => { r with verbose := true }
  | .help | .seed => r

/-- Sets the seed, if the text names an integer. -/
def Reading.setSeed? (r : Reading) (text : List Char) : Option Reading :=
  match Numeral.int 10 text with
  | .ok n => some { r with options := { r.options with seed := some n } }
  | .error _ => none

/-- Sets what options that are written together say, each of which is a letter. Tells if help was
asked for. -/
def Reading.setLetters? (r : Reading) : List Char → Option (Reading × Bool)
  | [] => some (r, false)
  | c :: rest => do
    let flag ← spellings.lookup (String.ofList ['-', c])
    let (r, help) ← (r.set flag).setLetters? rest
    return (r, help || flag == .help)

/-- Reads arguments one after the other. Everything takes an argument, so there are no more steps
than arguments. -/
def readFrom (r : Reading) : (steps : Nat) → List Arg → Invocation
  | _, [] =>
    match r.paths, r.surplus with
    | [some manifest, output], false =>
      .request { manifest, output, options := r.options, verbose := r.verbose }
    | _, _ => .misuse
  | 0, _ :: _ => .misuse
  | steps + 1, arg :: rest =>
    match arg with
    | .unknown => readFrom { r with surplus := true } steps rest
    | .flag .seed _ (some text) =>
      match r.setSeed? text with
      | some r => readFrom r steps rest
      | none => .misuse
    | .flag .seed _ none =>
      match rest with
      | .word w :: rest => match r.setSeed? w.toList with
        | some r => readFrom r steps rest
        | none => .misuse
      | _ => .misuse
    | .flag flag _ none => if flag = .help then .help else readFrom (r.set flag) steps rest
    | .flag flag true (some (c :: letters)) =>
      match (r.set flag).setLetters? (c :: letters) with
      | some (r, help) => if help || flag == .help then .help else readFrom r steps rest
      | none => .misuse
    | .flag .. => .misuse
    | _ =>
      let run := (arg :: rest).takeWhile Arg.isPathLike
      let rest := (arg :: rest).drop run.length
      let (paths, left) := takePaths (2 - r.paths.length) run
      readFrom { r with paths := r.paths ++ paths, surplus := r.surplus || !left.isEmpty }
        steps rest

/-- What the arguments of the command line come to. -/
def parse (args : List String) : Invocation :=
  match forms? args with
  | some forms => readFrom {} forms.length forms
  | none => .misuse

end ApiManifest.CommandLine
