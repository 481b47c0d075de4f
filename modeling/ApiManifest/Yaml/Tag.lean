import ApiManifest.Number.Numeral
import ApiManifest.Text.Split

/-!
# Tags

What a YAML node is, and how an unquoted scalar shows it: `yes` is a truth value, `1:30` a number
of base sixty, `2020-01-01` a date.
-/

namespace ApiManifest.Yaml

/-- The kind of a node. -/
inductive Tag where
  | null | bool | int | float | timestamp | binary | str
  | seq | map | set | omap | pairs
  /-- The key that merges another mapping in. -/
  | merge
  /-- The key of a mapping's value as a scalar. -/
  | value
  | other (uri : String)
  deriving DecidableEq, Repr, Inhabited

namespace Tag

/-- What the URIs of YAML's own tags begin with. -/
def base : String := "tag:yaml.org,2002:"

/-- The tag of the last part of one of YAML's own URIs. -/
def ofName? : String → Option Tag
  | "null" => some null
  | "bool" => some bool
  | "int" => some int
  | "float" => some float
  | "timestamp" => some timestamp
  | "binary" => some binary
  | "str" => some str
  | "seq" => some seq
  | "map" => some map
  | "set" => some set
  | "omap" => some omap
  | "pairs" => some pairs
  | "merge" => some merge
  | "value" => some value
  | _ => none

/-- The tag of a URI. -/
def ofUri (uri : String) : Tag :=
  if uri.startsWith base then
    (ofName? (String.ofList (uri.toList.drop base.length))).getD (other uri)
  else other uri

/-! ## How scalars show their tag -/

/-- One of three spellings of a word: small, capitalized, large. -/
def isSpelling (word : String) (cs : List Char) : Bool :=
  let small := word.toList
  let capitalized := match small with
    | c :: rest => c.toUpper :: rest
    | [] => []
  cs == small || cs == capitalized || cs == small.map Char.toUpper

/-- A word for a truth value. -/
def isBoolText (cs : List Char) : Bool :=
  ["yes", "no", "true", "false", "on", "off"].any (isSpelling · cs)

/-- Nothing, a tilde or the word null. -/
def isNullText (cs : List Char) : Bool := cs == [] || cs == ['~'] || isSpelling "null" cs

/-- A digit or an underscore. -/
def isDigitOrScore (c : Char) : Bool := c.isDigit || c == '_'

/-- The text without a sign in front. -/
def dropSign : List Char → List Char
  | '+' :: rest | '-' :: rest => rest
  | cs => cs

/-- A digit, and then digits and underscores. -/
def isCount (cs : List Char) : Bool :=
  match cs with
  | c :: rest => c.isDigit && rest.all isDigitOrScore
  | [] => false

/-- One or two digits below sixty. -/
def isSixtieth (cs : List Char) : Bool :=
  match cs with
  | [d] => d.isDigit
  | [t, d] => '0' ≤ t && t ≤ '5' && d.isDigit
  | _ => false

/-- The parts between colons. -/
def colonParts (cs : List Char) : List (List Char) := Text.splitAt ':' cs

/-- An integer of base two, eight, ten, sixteen or sixty. -/
def isIntText (cs : List Char) : Bool :=
  match dropSign cs with
  | '0' :: 'b' :: rest => !rest.isEmpty && rest.all fun c => c == '0' || c == '1' || c == '_'
  | '0' :: 'x' :: rest => !rest.isEmpty && rest.all fun c => (Text.hexValue? c).isSome || c == '_'
  | '0' :: rest => rest.all fun c => ('0' ≤ c && c ≤ '7') || c == '_'
  | cs =>
    match colonParts cs with
    | whole :: rest => isCount whole && rest.all isSixtieth
    | [] => false

/-- Nothing, or an exponent with its sign. -/
def isExponent (cs : List Char) : Bool :=
  match cs with
  | [] => true
  | e :: sign :: digits =>
    (e == 'e' || e == 'E') && (sign == '+' || sign == '-') && !digits.isEmpty
      && digits.all Char.isDigit
  | _ => false

/-- A number with a point, possibly of base sixty, an infinity, or what is not a number. -/
def isFloatText (cs : List Char) : Bool :=
  let unsigned := dropSign cs
  let whole := unsigned.takeWhile (· != '.')
  match unsigned.drop whole.length with
  | '.' :: fraction =>
    let digits := fraction.takeWhile isDigitOrScore
    let rest := fraction.drop digits.length
    if whole.isEmpty then
      isSpelling "inf" fraction
        || (unsigned == cs && ["nan", "NaN", "NAN"].any (·.toList == fraction))
        || (unsigned == cs && isCount digits && isExponent rest)
    else
      (isCount whole && isExponent rest)
        || (rest.isEmpty && match colonParts whole with
          | first :: second :: more => isCount first && (second :: more).all isSixtieth
          | _ => false)
  | _ => false

/-- The parts of a written date. -/
structure Written where
  year : List Char
  month : List Char
  day : List Char
  /-- Hour, minute, second, the digits of its fraction and the distance from universal time. -/
  time : Option (List Char × List Char × List Char × List Char × List Char) := none

/-- Digits off the front, at most `most` of them. -/
def digitsOff (most : Nat) (cs : List Char) : List Char × List Char :=
  let digits := (cs.take most).takeWhile Char.isDigit
  (digits, cs.drop digits.length)

/-- A distance from universal time: `Z`, or a sign with hours and perhaps minutes. -/
def isZone (cs : List Char) : Bool :=
  match cs with
  | [] => true
  | 'Z' :: rest => rest.isEmpty
  | sign :: rest =>
    (sign == '+' || sign == '-') &&
      let (hour, rest) := digitsOff 2 rest
      !hour.isEmpty && match rest with
        | [] => true
        | [':', a, b] => a.isDigit && b.isDigit
        | _ => false

/-- The parts of a time of day. -/
def timeParts? (cs : List Char) :
    Option (List Char × List Char × List Char × List Char × List Char) := do
  let (hour, rest) := digitsOff 2 cs
  guard !hour.isEmpty
  let rest ← match rest with | ':' :: rest => some rest | _ => none
  let (minute, rest) := digitsOff 2 rest
  guard (minute.length = 2)
  let rest ← match rest with | ':' :: rest => some rest | _ => none
  let (second, rest) := digitsOff 2 rest
  guard (second.length = 2)
  let (fraction, rest) := match rest with
    | '.' :: rest => (rest.takeWhile Char.isDigit, rest.dropWhile Char.isDigit)
    | _ => ([], rest)
  let zone := rest.dropWhile fun c => c == ' ' || c == '\t'
  guard (isZone zone && (zone != [] || rest == []))
  some (hour, minute, second, fraction, zone)

/-- The parts of a date, perhaps with a time behind a `T` or blanks. Months and days may have one
digit. -/
def dateParts? (cs : List Char) : Option Written := do
  let (year, rest) := digitsOff 4 cs
  guard (year.length = 4)
  let rest ← match rest with | '-' :: rest => some rest | _ => none
  let (month, rest) := digitsOff 2 rest
  guard !month.isEmpty
  let rest ← match rest with | '-' :: rest => some rest | _ => none
  let (day, rest) := digitsOff 2 rest
  guard !day.isEmpty
  match rest with
  | [] => some { year, month, day }
  | c :: more =>
    let time ←
      if c == 'T' || c == 't' then some more
      else if c == ' ' || c == '\t' then some (more.dropWhile fun c => c == ' ' || c == '\t')
      else none
    some { year, month, day, time := some (← timeParts? time) }

/-- A date of ten characters, or a date with a time. -/
def isTimestampText (cs : List Char) : Bool :=
  match dateParts? cs with
  | some w => w.time.isSome || (w.month.length == 2 && w.day.length == 2)
  | none => false

/-- The tag that a text shows when it stands without quotes. -/
def ofText (cs : List Char) : Tag :=
  if isBoolText cs then bool
  else if isFloatText cs then float
  else if isIntText cs then int
  else if cs == ['<', '<'] then merge
  else if isNullText cs then null
  else if isTimestampText cs then timestamp
  else if cs == ['='] then value
  else if cs == ['!'] || cs == ['&'] || cs == ['*'] then other (base ++ "yaml")
  else str

/-- The tag that a text shows. A line feed at its end does not count, but for a text that is only
one. -/
def shownBy (text : String) : Tag :=
  if text = "\n" then str else ofText (Text.dropLineFeed text.toList)

end Tag
end ApiManifest.Yaml
