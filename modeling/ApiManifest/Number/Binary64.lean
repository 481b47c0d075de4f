/-!
# Binary floating-point numbers

The 64-bit numbers of a manifest, as exact fractions. A finite number is `m · 2^e` with
`m < 2^53` and `-1074 ≤ e ≤ 971`; the exponent is as small as the two bounds allow, so a value
has one representation. Every operation computes the exact result and rounds it once.
-/

namespace ApiManifest

/-- A 64-bit binary floating-point number. -/
inductive Binary64 where
  | nan
  | infinite (negative : Bool)
  | finite (negative : Bool) (mantissa : Nat) (exponent : Int)
  deriving DecidableEq, Repr, Inhabited

namespace Binary64

/-- The exponent of the numbers nearest to zero. -/
def minExponent : Int := -1074

/-- The exponent of the largest numbers. -/
def maxExponent : Int := 971

/-- Zero with a sign. -/
def zero (negative : Bool) : Binary64 := .finite negative 0 minExponent

/-- The mantissas of the numbers that have 53 bits begin with `2^52`. -/
def leastFull : Nat := 4503599627370496

/-- `base^e`, as a numerator over a denominator. -/
def power (base : Nat) (e : Int) : Nat × Nat := (Nat.pow base e.toNat, Nat.pow base (-e).toNat)

/-- `2^e`, as a numerator over a denominator. -/
def twoPow (e : Int) : Nat × Nat := power 2 e

/-- The quotient rounded to the nearest integer, a half to the even one. -/
def roundDiv (num den : Nat) : Nat :=
  let q := num / den
  let r := num % den
  if 2 * r < den then q
  else if den < 2 * r then q + 1
  else if q % 2 = 0 then q else q + 1

/-- The largest `k` with `2^k ≤ num / den`, for a positive fraction. -/
def log2Floor (num den : Nat) : Int :=
  let k : Int := (num.log2 : Int) - den.log2
  let (up, down) := twoPow k
  if den * up ≤ num * down then k else k - 1

/-- The number nearest to `num / den`, a tie going to the even mantissa. -/
def ofRatio (negative : Bool) (num den : Nat) : Binary64 :=
  if num = 0 then zero negative
  else
    let e := max (log2Floor num den - 52) minExponent
    let (up, down) := twoPow e
    let m := roundDiv (num * down) (den * up)
    let (m, e) := if m = 2 * leastFull then (leastFull, e + 1) else (m, e)
    if maxExponent < e then .infinite negative else .finite negative m e

/-- The number nearest to `digits · 10^exponent`. Far outside the range the power is not
computed. -/
def ofDecimal (negative : Bool) (digits : Nat) (exponent : Int) : Binary64 :=
  if digits = 0 then zero negative
  else
    let magnitude := (Nat.toDigits 10 digits).length + exponent
    if 310 < magnitude then .infinite negative
    else if magnitude < -330 then zero negative
    else
      let (up, down) := power 10 exponent
      ofRatio negative (digits * up) down

/-- The signed numerator and the denominator of a finite number. -/
def ratio (negative : Bool) (mantissa : Nat) (exponent : Int) : Int × Nat :=
  let (up, down) := twoPow exponent
  let n : Int := mantissa * up
  (if negative then -n else n, down)

/-- The number nearest to an integer, unless that lies beyond the largest one. -/
def ofInt? (n : Int) : Option Binary64 :=
  match ofRatio (n < 0) n.natAbs 1 with
  | .infinite _ => none
  | x => some x

/-- The opposite number. -/
def neg : Binary64 → Binary64
  | nan => nan
  | infinite s => infinite (!s)
  | finite s m e => finite (!s) m e

/-- The exact fraction `num / den`, rounded. -/
def ofSignedRatio (num : Int) (den : Nat) : Binary64 := ofRatio (num < 0) num.natAbs den

/-- The rounded sum. -/
def add : Binary64 → Binary64 → Binary64
  | nan, _ => nan
  | _, nan => nan
  | infinite s, infinite t => if s = t then infinite s else nan
  | infinite s, _ => infinite s
  | _, infinite t => infinite t
  | finite s m e, finite t n f =>
    if m = 0 ∧ n = 0 then zero (s && t)
    else
      let (a, b) := ratio s m e
      let (c, d) := ratio t n f
      ofSignedRatio (a * d + c * b) (b * d)

/-- The rounded product. -/
def mul : Binary64 → Binary64 → Binary64
  | nan, _ => nan
  | _, nan => nan
  | infinite s, infinite t => infinite (s != t)
  | infinite s, finite t n _ => if n = 0 then nan else infinite (s != t)
  | finite s m _, infinite t => if m = 0 then nan else infinite (s != t)
  | finite s m e, finite t n f =>
    let (up, down) := twoPow (e + f)
    ofRatio (s != t) (m * n * up) down

/-- The integer part, for a finite number. -/
def truncate? : Binary64 → Option Int
  | finite s m e => let (a, b) := ratio s m e; some (a.tdiv b)
  | _ => none

/-- Whether the number is neither `0` nor `-0`. -/
def isNonzero : Binary64 → Bool
  | finite _ m _ => m != 0
  | _ => true

/-- Numerical equality: the two zeros are equal, and nothing equals `nan`. -/
def sameValue : Binary64 → Binary64 → Bool
  | finite s m e, finite t n f => (m == 0 && n == 0) || (s == t && m == n && e == f)
  | infinite s, infinite t => s == t
  | _, _ => false

/-- Whether the number is the integer `n`. -/
def isInt (x : Binary64) (n : Int) : Bool :=
  match x with
  | finite s m e => let (a, b) := ratio s m e; a == n * b
  | _ => false

/-- How the number compares with an integer; `nan` does not. -/
def compareInt? (x : Binary64) (n : Int) : Option Ordering :=
  match x with
  | nan => none
  | infinite s => some (if s then .lt else .gt)
  | finite s m e => let (a, b) := ratio s m e; some (compare a (n * b))

/-- Numerical order; `nan` is below nothing and above nothing. -/
def less : Binary64 → Binary64 → Bool
  | nan, _ => false
  | _, nan => false
  | infinite s, infinite t => s && !t
  | infinite s, _ => s
  | _, infinite t => !t
  | finite s m e, finite t n f =>
    let (a, b) := ratio s m e
    let (c, d) := ratio t n f
    a * d < c * b

/-- The digits and the power of ten of the shortest decimal that reads back as `m · 2^e`, for
`m ≠ 0`. The numbers that round to `m · 2^e` lie between `low` and `high` quarters of `2^e`,
the ends included when `m` is even. Of the decimal grids with one digit, two digits, …, the
first one with a point in that interval is taken; the value's two neighbours on it decide, of two
hits the nearer and on a tie the even one. -/
def shortest (m : Nat) (e : Int) : Nat × Int :=
  let low := if m = leastFull ∧ minExponent < e then 4 * m - 1 else 4 * m - 2
  let high := 4 * m + 2
  let (up, down) := twoPow (e - 2)
  let log2 := (4 * m).log2 + (e - 2)
  -- one more than the decimal exponent, or that exponent itself
  let guess := (log2 * 315653).fdiv 1048576 + 1
  let (tens, tenths) := power 10 guess
  let top := if tens * down ≤ 4 * m * up * tenths then guess + 1 else guess
  let point (count : Nat) : Option (Nat × Int) :=
    let place := top - count
    let (tens, tenths) := power 10 place
    let p := tens * down
    let q := up * tenths
    let inside (c : Nat) : Bool :=
      if m % 2 = 0 then low * q ≤ c * p && c * p ≤ high * q
      else low * q < c * p && c * p < high * q
    let k := 4 * m * q / p
    let below := 4 * m * q - k * p
    let above := (k + 1) * p - 4 * m * q
    match inside k && k != 0, inside (k + 1) with
    | false, false => none
    | true, false => some (k, place)
    | false, true => some (k + 1, place)
    | true, true =>
      if below < above ∨ below = above ∧ k % 2 = 0 then some (k, place) else some (k + 1, place)
  ((List.range 17).findSome? fun i => point (i + 1)).getD (0, 0)

/-- The digits without trailing zeros, and the place of the point counted from their left. -/
def decimal (m : Nat) (e : Int) : List Char × Int :=
  let (digits, power) := shortest m e
  let text := Nat.toDigits 10 digits
  ((text.reverse.dropWhile (· == '0')).reverse, text.length + power)

/-- How a number is written. -/
structure Layout where
  /-- The least place of the point that is written without an exponent. -/
  minPoint : Int
  /-- The greatest place of the point that is written without an exponent. -/
  maxPoint : Int
  /-- The text of `nan`. -/
  nanText : String
  /-- The text of infinity, without its sign. -/
  infinityText : String

/-- Digits with a point at `place`, and at least one digit on each side of it. -/
def positional (digits : List Char) (place : Int) : List Char :=
  if place ≤ 0 then '0' :: '.' :: (List.replicate (-place).toNat '0' ++ digits)
  else
    let whole := digits.take place.toNat
    let whole := whole ++ List.replicate (place.toNat - whole.length) '0'
    let fraction := digits.drop place.toNat
    whole ++ '.' :: (if fraction.isEmpty then ['0'] else fraction)

/-- Digits with an exponent of at least two digits, and a point only between digits. -/
def scientific (digits : List Char) (place : Int) : List Char :=
  let exponent := place - 1
  let count := Nat.toDigits 10 exponent.natAbs
  let count := if count.length < 2 then '0' :: count else count
  let mantissa := match digits with
    | d :: rest => if rest.isEmpty then [d] else d :: '.' :: rest
    | [] => ['0']
  mantissa ++ 'e' :: (if exponent < 0 then '-' else '+') :: count

/-- The shortest text that reads back as the number. -/
def text (layout : Layout) : Binary64 → String
  | nan => layout.nanText
  | infinite s => (if s then "-" else "") ++ layout.infinityText
  | finite s m e =>
    let body :=
      if m = 0 then ['0', '.', '0']
      else
        let (digits, place) := decimal m e
        if layout.minPoint ≤ place ∧ place ≤ layout.maxPoint then positional digits place
        else scientific digits place
    String.ofList (if s then '-' :: body else body)

end Binary64
end ApiManifest
