/-!
# Characters of YAML

The classes of characters that decide where the tokens of a YAML text begin and end. The end of
the text counts like a blank.
-/

namespace ApiManifest.Yaml

/-- A character that may occur in a text. -/
def isReadable (c : Char) : Bool :=
  let n := c.toNat
  n = 0x09 || n = 0x0A || n = 0x0D || (0x20 ≤ n && n ≤ 0x7E) || n = 0x85
    || (0xA0 ≤ n && n ≤ 0xD7FF) || (0xE000 ≤ n && n ≤ 0xFFFD) || 0x10000 ≤ n

/-- A character that ends a line. -/
def isBreak (c : Char) : Bool :=
  c == '\n' || c == '\r' || c == '\u0085' || c == '\u2028' || c == '\u2029'

/-- A character that parts words. -/
def isSpace (c : Char) : Bool := c == ' ' || c == '\t' || isBreak c

/-- The next character is a blank, or there is none. -/
def spaceAhead : List Char → Bool
  | [] => true
  | c :: _ => isSpace c

/-- The line or the text ends here. -/
def breakAhead : List Char → Bool
  | [] => true
  | c :: _ => isBreak c

/-- The next character is a space or ends the line, or there is none. -/
def gapAhead : List Char → Bool
  | [] => true
  | c :: _ => c == ' ' || isBreak c

/-- What a break stands for in a scalar: the line separators of Unicode for themselves, every
other one for a line feed. -/
def breakValue (c : Char) : Char := if c == '\u2028' || c == '\u2029' then c else '\n'

/-- A carriage return that belongs to the line feed behind it. -/
def joinsNext (c : Char) (rest : List Char) : Bool := c == '\r' && rest.head? == some '\n'

/-- A character of an anchor or of the handle of a tag. -/
def isWordChar (c : Char) : Bool := c.isAlphanum || c == '-' || c == '_'

/-- A character that parts the items of collections in braces and brackets. -/
def isFlowIndicator (c : Char) : Bool :=
  c == ',' || c == '[' || c == ']' || c == '\x7b' || c == '\x7d'

/-- Three characters that part documents, at the beginning of a line. -/
def documentMark (cs : List Char) : Bool :=
  match cs with
  | '-' :: '-' :: '-' :: rest => spaceAhead rest
  | '.' :: '.' :: '.' :: rest => spaceAhead rest
  | _ => false

/-- A place in a text. -/
structure Place where
  index : Nat := 0
  line : Nat := 0
  column : Nat := 0
  deriving DecidableEq, Repr, Inhabited

/-- The place behind a character that `rest` follows. A byte order mark takes no column. -/
def Place.after (p : Place) (c : Char) (rest : List Char) : Place :=
  if isBreak c && !joinsNext c rest then ⟨p.index + 1, p.line + 1, 0⟩
  else if c == '\uFEFF' then { p with index := p.index + 1 }
  else ⟨p.index + 1, p.line, p.column + 1⟩

/-- What is left of a text, and where that begins. -/
structure Cursor where
  place : Place
  rest : List Char
  deriving Repr, Inhabited

namespace Cursor

/-- The beginning of a text. -/
def start (text : List Char) : Cursor := ⟨{}, text⟩

/-- Passes a number of characters. -/
def skipFrom (p : Place) : (count : Nat) → List Char → Cursor
  | 0, rest => ⟨p, rest⟩
  | _ + 1, [] => ⟨p, []⟩
  | count + 1, c :: rest => skipFrom (p.after c rest) count rest

/-- Passes a number of characters. -/
def skip (count : Nat) (c : Cursor) : Cursor := skipFrom c.place count c.rest

/-- Passes all characters of a class. -/
def skipClass (accepts : Char → Bool) (p : Place) : List Char → Cursor
  | [] => ⟨p, []⟩
  | c :: rest => if accepts c then skipClass accepts (p.after c rest) rest else ⟨p, c :: rest⟩

/-- Passes all characters of a class. -/
def skipWhile (accepts : Char → Bool) (c : Cursor) : Cursor := skipClass accepts c.place c.rest

/-- Passes a line break, if one is next. -/
def skipBreak (c : Cursor) : Cursor :=
  match c.rest with
  | x :: rest => if isBreak x then c.skip (if joinsNext x rest then 2 else 1) else c
  | [] => c

/-- Passes spaces and a comment up to the end of the line. Nothing else may stand there. -/
def skipLine? (c : Cursor) : Option Cursor :=
  let c := c.skipWhile (· == ' ')
  let c := if c.rest.head? == some '#' then c.skipWhile (!isBreak ·) else c
  if breakAhead c.rest then some c.skipBreak else none

end Cursor
end ApiManifest.Yaml
