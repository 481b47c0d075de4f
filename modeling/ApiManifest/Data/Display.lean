import ApiManifest.Data.Tree
import ApiManifest.Number.Numeral
import ApiManifest.Text.Printable

/-!
# Texts of values

The text that stands for a value where a text is needed: a title given as a number, a path given
as a list. A text is itself there; inside other values it is quoted, and dates are spelled out.
-/

namespace ApiManifest

/-- Numbers have an exponent from `1e+16` up and from `1e-05` down. -/
def Binary64.Layout.plain : Binary64.Layout := ⟨-3, 16, "nan", "inf"⟩

/-- An integer in base ten. -/
def decimalText (n : Int) : Except Error String :=
  let digits := Nat.toDigits 10 n.natAbs
  if digits.length > Numeral.maxDigits then .error .longNumeral
  else .ok (String.ofList (if n < 0 then '-' :: digits else digits))

namespace Scalar

/-- The text of a scalar inside another value. -/
def literal : Scalar → Except Error String
  | null => .ok "None"
  | bool b => .ok (if b then "True" else "False")
  | int n => decimalText n
  | float x => .ok (x.text .plain)
  | text s => .ok (Text.quoted s)
  | bytes b => .ok (Text.quotedBytes b)

/-- The text that stands for a scalar. -/
def display : Scalar → Except Error String
  | text s => .ok s
  | s => s.literal

end Scalar

/-- Seconds as days and seconds of a day, the latter not negative, those that are zero left out. -/
def durationLiteral (seconds : Int) : String :=
  let days := seconds.fdiv 86400
  let rest := seconds.fmod 86400
  let parts := (if days = 0 then [] else [s!"days={days}"])
    ++ (if rest = 0 then [] else [s!"seconds={rest}"])
  "datetime.timedelta(" ++ (if parts.isEmpty then "0" else ", ".intercalate parts) ++ ")"

/-- A distance from universal time, spelled out. -/
def offsetLiteral (seconds : Int) : String :=
  if seconds = 0 then "datetime.timezone.utc"
  else "datetime.timezone(" ++ durationLiteral seconds ++ ")"

/-- A date, spelled out. -/
def Date.literal (d : Date) : String := s!"datetime.date({d.year}, {d.month}, {d.day})"

/-- A time, spelled out. Seconds are left out when they and the parts of a second are zero. -/
def DateTime.literal (t : DateTime) : String :=
  let fields := [t.date.year, t.date.month, t.date.day, t.hour, t.minute]
    ++ (if t.microsecond != 0 then [t.second, t.microsecond]
        else if t.second != 0 then [t.second] else [])
  let zone := (t.offset.map fun o => ["tzinfo=" ++ offsetLiteral o]).getD []
  "datetime.datetime(" ++ ", ".intercalate (fields.map (toString ·) ++ zone) ++ ")"

namespace Tree

/-- The texts of a tuple's items in brackets; a single one is followed by a comma. -/
def tupleLiteral : List String → String
  | [item] => "(" ++ item ++ ",)"
  | items => "(" ++ ", ".intercalate items ++ ")"

mutual

/-- The text of a value inside another one. -/
def literal : Tree → Except Error String
  | scalar s => s.literal
  | date d => .ok d.literal
  | dateTime t => .ok t.literal
  | list items => do return "[" ++ ", ".intercalate (← literals items) ++ "]"
  | tuple items => do return tupleLiteral (← literals items)
  | set items => do
    let texts ← literals items
    return if texts.isEmpty then "set()" else "\x7b" ++ ", ".intercalate texts ++ "\x7d"
  | map entries => do return "\x7b" ++ ", ".intercalate (← entryLiterals entries) ++ "\x7d"

/-- The texts of the values in a list. -/
def literals : List Tree → Except Error (List String)
  | [] => .ok []
  | x :: rest => do return (← literal x) :: (← literals rest)

/-- The texts of the entries of a mapping. -/
def entryLiterals : List (Tree × Tree) → Except Error (List String)
  | [] => .ok []
  | (k, v) :: rest => do
    return ((← literal k) ++ ": " ++ (← literal v)) :: (← entryLiterals rest)

end

/-- The text that stands for a value. -/
def display : Tree → Except Error String
  | scalar s => s.display
  | date d => .ok (String.ofList d.text)
  | dateTime t => .ok (String.ofList (t.text ' '))
  | t => t.literal

end Tree
end ApiManifest
