import ApiManifest.Error
import ApiManifest.Number.Binary64
import ApiManifest.Text.Digit
import ApiManifest.Text.Split

/-!
# Numerals

How texts name numbers. Blanks may pad a numeral, a sign may come first, digits of every script
count, and single underscores may stand between digits.
-/

namespace ApiManifest.Numeral

/-- Numerals with more digits than this are neither read nor written in base ten. -/
def maxDigits : Nat := 4300

/-- A blank that may pad a numeral: every one but the information separators. -/
def isPadding (c : Char) : Bool := Text.isBlank c && !(0x1C ≤ c.toNat && c.toNat ≤ 0x1F)

/-- The text without its padding. -/
def trim (cs : List Char) : List Char :=
  ((cs.dropWhile isPadding).reverse.dropWhile isPadding).reverse

/-- The value of a digit in a base of at most thirty-six; letters count from ten. -/
def digit? (base : Nat) (c : Char) : Option Nat :=
  let value := match Text.digitValue? c with
    | some d => some d
    | none =>
      if 'a' ≤ c && c ≤ 'z' then some (c.toNat - 87)
      else if 'A' ≤ c && c ≤ 'Z' then some (c.toNat - 55)
      else none
  value.filter (· < base)

/-- The digits of a run in which single underscores may stand between digits. `afterDigit` tells
that the last character was a digit. -/
def digits? (base : Nat) (afterDigit : Bool) : List Char → Option (List Nat)
  | [] => if afterDigit then some [] else none
  | c :: rest =>
    if c = '_' then
      if afterDigit then digits? base false rest else none
    else do
      let d ← digit? base c
      return d :: (← digits? base true rest)

/-- The number of some digits. -/
def valueOf (base : Nat) (digits : List Nat) : Nat := digits.foldl (fun n d => n * base + d) 0

/-- The sign, and what follows it. -/
def sign : List Char → Bool × List Char
  | '-' :: rest => (true, rest)
  | '+' :: rest => (false, rest)
  | cs => (false, cs)

/-- The letter that may mark a base behind a zero. -/
def baseMark : Nat → Option Char
  | 2 => some 'b'
  | 8 => some 'o'
  | 16 => some 'x'
  | _ => none

/-- The text without the mark of its base. -/
def dropMark (base : Nat) : List Char → List Char
  | '0' :: c :: rest =>
    if (baseMark base).any (· == c.toLower) then
      match rest with
      | '_' :: digits => digits
      | _ => rest
    else '0' :: c :: rest
  | cs => cs

/-- The integer that a text names in a base. -/
def int (base : Nat) (cs : List Char) : Except Error Int :=
  let (negative, cs) := sign (trim cs)
  match digits? base false (dropMark base cs) with
  | none => .error .badNumeral
  | some digits =>
    if (baseMark base).isNone ∧ digits.length > maxDigits then .error .longNumeral
    else
      let n : Int := valueOf base digits
      .ok (if negative then -n else n)

/-- Digits before and after the point, and the power of ten behind them. The sides may be empty,
but not both. -/
def fraction? (cs : List Char) : Option (Nat × Int) := do
  let mantissa := cs.takeWhile fun c => c != 'e' && c != 'E'
  let exponent ← match cs.drop mantissa.length with
    | [] => some 0
    | _ :: power => do
      let (negative, power) := sign power
      let n := valueOf 10 (← digits? 10 false power)
      some (if negative then -(n : Int) else n)
  let whole := mantissa.takeWhile (· != '.')
  let part := mantissa.drop (whole.length + 1)
  if whole.isEmpty && part.isEmpty then none
  else
    let read (side : List Char) := if side.isEmpty then some [] else digits? 10 false side
    let whole ← read whole
    let part ← read part
    some (valueOf 10 (whole ++ part), exponent - part.length)

/-- The floating-point number that a text names. -/
def float (cs : List Char) : Except Error Binary64 :=
  let (negative, cs) := sign (trim cs)
  match String.ofList (cs.map Char.toLower) with
  | "nan" => .ok .nan
  | "inf" | "infinity" => .ok (.infinite negative)
  | _ => match fraction? cs with
    | some (digits, exponent) => .ok (.ofDecimal negative digits exponent)
    | none => .error .badNumeral

end ApiManifest.Numeral
