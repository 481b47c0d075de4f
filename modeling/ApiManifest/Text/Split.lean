/-!
# Separators

A text as its pieces between separators, and the pieces put together again. Words are separated,
and numbers padded, by blank characters: besides the blanks of ASCII these are the four information
separators, next line, the no-break space and every space of Unicode.
-/

namespace ApiManifest.Text

/-- The blank characters, as ranges of code points. -/
def blankRanges : List (Nat × Nat) := [
  (0x9, 0xD), (0x1C, 0x20), (0x85, 0x85), (0xA0, 0xA0), (0x1680, 0x1680), (0x2000, 0x200A),
  (0x2028, 0x2029), (0x202F, 0x202F), (0x205F, 0x205F), (0x3000, 0x3000)]

/-- A character that separates words. -/
def isBlank (c : Char) : Bool :=
  blankRanges.any fun (first, last) => first ≤ c.toNat && c.toNat ≤ last

/-- The pieces between the separators; there is one more piece than there are separators. -/
def splitAt (separator : Char) : List Char → List (List Char)
  | [] => [[]]
  | c :: rest =>
    if c = separator then [] :: splitAt separator rest
    else match splitAt separator rest with
      | piece :: pieces => (c :: piece) :: pieces
      | [] => [[c]]

/-- The pieces that are not empty. -/
def pieces (separator : Char) (cs : List Char) : List (List Char) :=
  (splitAt separator cs).filter (!·.isEmpty)

/-- The text before the first separator, and the text after it if there is one. -/
def cut (separator : Char) (cs : List Char) : List Char × Option (List Char) :=
  match cs.dropWhile (· != separator) with
  | [] => (cs, none)
  | _ :: rest => (cs.takeWhile (· != separator), some rest)

/-- The text without the line feed at its end, if there is one. -/
def dropLineFeed (cs : List Char) : List Char :=
  match cs.reverse with
  | '\n' :: rest => rest.reverse
  | _ => cs

/-- The pieces with a separator between each two. -/
def joinWith (separator : Char) (pieces : List (List Char)) : List Char :=
  [separator].intercalate pieces

end ApiManifest.Text
