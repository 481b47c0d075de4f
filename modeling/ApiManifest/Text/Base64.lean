/-!
# Base 64

Bytes as text, six bits to a character. Written texts are padded; reading passes over characters
that are no digits.
-/

namespace ApiManifest.Text.Base64

/-- The digits, by value. -/
def alphabet : List Char :=
  "ABCDEFGHIJKLMNOPQRSTUVWXYZabcdefghijklmnopqrstuvwxyz0123456789+/".toList

/-- The digit of a value below sixty-four. -/
def digit (n : Nat) : Char := alphabet.getD n 'A'

/-- The value of a digit. -/
def value? (c : Char) : Option Nat :=
  if 'A' ≤ c ∧ c ≤ 'Z' then some (c.toNat - 65)
  else if 'a' ≤ c ∧ c ≤ 'z' then some (c.toNat - 71)
  else if '0' ≤ c ∧ c ≤ '9' then some (c.toNat + 4)
  else if c = '+' then some 62
  else if c = '/' then some 63
  else none

/-- Three bytes as four digits; fewer bytes are padded with equals signs. -/
def encode : List UInt8 → List Char
  | a :: b :: c :: rest =>
    let n := a.toNat * 65536 + b.toNat * 256 + c.toNat
    digit (n / 262144) :: digit (n / 4096 % 64) :: digit (n / 64 % 64) :: digit (n % 64)
      :: encode rest
  | [a, b] =>
    let n := a.toNat * 65536 + b.toNat * 256
    [digit (n / 262144), digit (n / 4096 % 64), digit (n / 64 % 64), '=']
  | [a] =>
    let n := a.toNat * 65536
    [digit (n / 262144), digit (n / 4096 % 64), '=', '=']
  | [] => []

/-- How much of a group of four digits has been read. -/
structure Group where
  /-- The number of digits. -/
  size : Nat := 0
  /-- The bits of the last digit that are not part of a byte yet. -/
  left : Nat := 0
  /-- The number of equals signs behind the last digit. -/
  pads : Nat := 0

/-- Reads digits. The text ends when a group is filled up with equals signs, or behind a whole
group. -/
def decodeFrom (g : Group) : List Char → Option (List UInt8)
  | [] => if g.size = 0 then some [] else none
  | c :: rest =>
    if c = '=' then
      if 2 ≤ g.size then
        if 4 ≤ g.size + g.pads + 1 then some []
        else decodeFrom { g with pads := g.pads + 1 } rest
      else decodeFrom g rest
    else match value? c with
      | none => decodeFrom g rest
      | some v =>
        let byte (n : Nat) (next : Group) : Option (List UInt8) :=
          (decodeFrom next rest).map (n.toUInt8 :: ·)
        match g.size with
        | 0 => decodeFrom { size := 1, left := v } rest
        | 1 => byte (g.left * 4 + v / 16) { size := 2, left := v % 16 }
        | 2 => byte (g.left * 16 + v / 4) { size := 3, left := v % 4 }
        | _ => byte (g.left * 64 + v) {}

/-- The bytes that a text codes. -/
def decode (cs : List Char) : Option (List UInt8) := decodeFrom {} cs

end ApiManifest.Text.Base64
