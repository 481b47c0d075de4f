import ApiManifest.Data.Store
import ApiManifest.Text.Base64
import ApiManifest.Text.Case
import ApiManifest.Yaml.Tag

/-!
# Values of scalars

What the text of a scalar stands for under its tag. A tag can be given to any text, so each of
the readers here may refuse one.
-/

namespace ApiManifest.Yaml.ScalarValue

/-- A sign and what follows it. There has to be something. -/
def signed (cs : List Char) : Except Error (Bool × List Char) :=
  match cs with
  | [] => .error .missingItem
  | '-' :: rest => .ok (true, rest)
  | '+' :: rest => .ok (false, rest)
  | _ => .ok (false, cs)

/-- The number of parts of base sixty, the last one first. -/
def sixtyfold : List Int → Int
  | [] => 0
  | part :: rest => part + 60 * sixtyfold rest

/-- The integer that a text names: of base two, eight, ten, sixteen or sixty, underscores left
out. -/
def readInt (text : String) : Except Error Int := do
  let (negative, cs) ← signed (text.toList.filter (· != '_'))
  let n ← match cs with
    | [] => throw .missingItem
    | ['0'] => pure 0
    | '0' :: 'b' :: digits => Numeral.int 2 digits
    | '0' :: 'x' :: digits => Numeral.int 16 digits
    | '0' :: _ => Numeral.int 8 cs
    | _ =>
      if cs.contains ':' then do
        pure (sixtyfold (← (Tag.colonParts cs).mapM (Numeral.int 10)).reverse)
      else Numeral.int 10 cs
  return if negative then -n else n

/-- The sum of parts of base sixty, the last one first, each one rounded. -/
def sixtyfoldFloat (base : Nat) (sum : Binary64) : List Binary64 → Except Error Binary64
  | [] => .ok sum
  | part :: rest =>
    match Binary64.ofInt? base with
    | some b => sixtyfoldFloat (base * 60) (sum.add (part.mul b)) rest
    | none => .error .overflow

/-- The floating-point number that a text names, underscores left out. -/
def readFloat (text : String) : Except Error Binary64 := do
  let small := Text.lower (String.ofList (text.toList.filter (· != '_')))
  let (negative, cs) ← signed small.toList
  let x ← match String.ofList cs with
    | ".inf" => pure (.infinite false)
    | ".nan" => pure .nan
    | _ =>
      if cs.contains ':' then do
        let parts ← (Tag.colonParts cs).mapM Numeral.float
        sixtyfoldFloat 1 (.zero false) parts.reverse
      else Numeral.float cs
  return if negative then x.neg else x

/-- The truth value that a word names. -/
def readBool (text : String) : Except Error Bool :=
  match Text.lower text with
  | "yes" | "true" | "on" => .ok true
  | "no" | "false" | "off" => .ok false
  | _ => .error .missingKey

/-- The bytes that a text codes. -/
def readBinary (text : String) : Except Error (List UInt8) :=
  if text.toList.all (·.toNat < 128) then
    match Text.Base64.decode text.toList with
    | some bytes => .ok bytes
    | none => .error .yaml
  else .error .yaml

/-- The number of some digits. -/
def number (digits : List Char) : Nat := (Text.digitsValue? digits).getD 0

/-- The distance from universal time that a zone names. -/
def zoneOffset (zone : List Char) : Option Int :=
  match zone with
  | [] => none
  | 'Z' :: _ => some 0
  | sign :: rest =>
    let hour := rest.takeWhile Char.isDigit
    let minute := rest.drop (hour.length + 1)
    let seconds : Int := (number hour * 60 + number minute) * 60
    some (if sign = '-' then -seconds else seconds)

/-- The date or the time that a text names, as an object. A line feed at its end does not
count. -/
def readTimestamp (text : String) : Except Error Cell :=
  match Tag.dateParts? (Text.dropLineFeed text.toList) with
  | none => .error .notDate
  | some w =>
    match Date.of? (number w.year) (number w.month) (number w.day), w.time with
    | none, _ => .error .badDate
    | some date, none => .ok (.date date)
    | some date, some (hour, minute, second, fraction, zone) =>
      let digits := fraction.take 6
      let micro := number (digits ++ List.replicate (6 - digits.length) '0')
      match DateTime.of? date (number hour) (number minute) (number second) micro
          (zoneOffset zone) with
      | some t => .ok (.dateTime t)
      | none => .error .badDate

end ApiManifest.Yaml.ScalarValue
