import ApiManifest.Data.Tree
import ApiManifest.Text.Digit

/-!
# Texts of JSON

The grammar of JSON as data. A text of JSON is given with all that is written in it: the blanks
between its tokens, the escapes of its strings, the spelling of its numbers. From that follow its
characters, and the value that it stands for.

The codes of surrogates are left out, which stand for a character only two by two.
-/

namespace ApiManifest.JsonText

/-! ## Blanks -/

/-- A character that may stand between two tokens. -/
def isBlank (c : Char) : Bool := c == ' ' || c == '\t' || c == '\n' || c == '\r'

/-- What stands between two tokens. -/
structure Gap where
  chars : List Char
  isBlank : chars.all isBlank

/-! ## Strings -/

/-- A character that needs no escape. -/
def isUnescaped (c : Char) : Bool := 0x20 ≤ c.toNat && c != '"' && c != '\\'

/-- What a letter behind a backslash stands for. -/
def escaped? : Char → Option Char
  | '"' => some '"'
  | '\\' => some '\\'
  | '/' => some '/'
  | 'b' => some '\x08'
  | 'f' => some '\x0c'
  | 'n' => some '\n'
  | 'r' => some '\r'
  | 't' => some '\t'
  | _ => none

/-- The number of four hexadecimal digits. -/
def code? : List Char → Option Nat
  | [a, b, c, d] =>
    match Text.hexValue? a, Text.hexValue? b, Text.hexValue? c, Text.hexValue? d with
    | some w, some x, some y, some z => some (((w * 16 + x) * 16 + y) * 16 + z)
    | _, _, _, _ => none
  | _ => none

/-- A character of a string, as it is written. -/
inductive Piece where
  /-- As itself. -/
  | plain (c : Char) (hc : isUnescaped c)
  /-- As a letter behind a backslash. -/
  | escape (letter value : Char) (hvalue : escaped? letter = some value)
  /-- As a code behind a backslash and the letter `u`. -/
  | code (digits : List Char) (value : Nat) (hvalue : code? digits = some value)
    (hvalid : value.isValidChar)

namespace Piece

def chars : Piece → List Char
  | plain c _ => [c]
  | escape letter _ _ => ['\\', letter]
  | code digits _ _ _ => '\\' :: 'u' :: digits

/-- The character that is written. -/
def value : Piece → Char
  | plain c _ => c
  | escape _ value _ => value
  | code _ value _ _ => Char.ofNat value

end Piece

/-- The characters of a string between its quotes. -/
def charsOf (s : List Piece) : List Char := s.flatMap Piece.chars

/-- A string with its quotes. -/
def quoted (s : List Piece) : List Char := '"' :: charsOf s ++ ['"']

/-- The text that a string stands for. -/
def textOf (s : List Piece) : String := String.ofList (s.map Piece.value)

/-! ## Numbers -/

/-- Digits, of which there is one at least. -/
structure Digits where
  chars : List Char
  ne_nil : chars ≠ []
  isDigit : chars.all Char.isDigit

/-- The number of some digits. -/
def decimal (digits : List Char) : Nat := digits.foldl (fun n c => n * 10 + (c.toNat - 48)) 0

/-- The sign of an exponent, which may be missing. -/
inductive Sign where
  | none | plus | minus
  deriving DecidableEq

def Sign.chars : Sign → List Char
  | none => []
  | plus => ['+']
  | minus => ['-']

/-- The exponent of a number. -/
structure Exponent where
  isLarge : Bool
  sign : Sign
  digits : Digits

namespace Exponent

def chars (e : Exponent) : List Char :=
  (if e.isLarge then 'E' else 'e') :: e.sign.chars ++ e.digits.chars

def value (e : Exponent) : Int :=
  if e.sign = .minus then -(decimal e.digits.chars : Int) else decimal e.digits.chars

end Exponent

/-- A number. No zero stands in front of other digits. -/
structure Number where
  isNegative : Bool
  whole : Digits
  unpadded : whole.chars.head? = some '0' → whole.chars = ['0']
  fraction : Option Digits
  exponent : Option Exponent

namespace Number

/-- The digits behind the point. -/
def fractionDigits (n : Number) : List Char := n.fraction.elim [] Digits.chars

/-- The digits of a number, and a point between them if there is a fraction. -/
def mantissa (n : Number) : List Char :=
  n.whole.chars ++ n.fraction.elim [] ('.' :: ·.chars)

/-- A number without its sign. -/
def unsigned (n : Number) : List Char := n.mantissa ++ n.exponent.elim [] Exponent.chars

def chars (n : Number) : List Char :=
  if n.isNegative then '-' :: n.unsigned else n.unsigned

/-- There is neither a fraction nor an exponent. -/
def isInteger (n : Number) : Bool := n.fraction.isNone && n.exponent.isNone

/-- The value of a number: an integer, or else the floating-point number that is next to it. -/
def value (n : Number) : Scalar :=
  if n.isInteger then
    .int (if n.isNegative then -(decimal n.whole.chars : Int) else decimal n.whole.chars)
  else
    .float (.ofDecimal n.isNegative (decimal (n.whole.chars ++ n.fractionDigits))
      (n.exponent.elim 0 Exponent.value - n.fractionDigits.length))

end Number

/-! ## Values -/

mutual

/-- A value, as it is written. -/
inductive Text where
  | null
  | bool (b : Bool)
  | number (n : Number)
  | string (s : List Piece)
  | emptyArray (gap : Gap)
  | array (items : Items)
  | emptyObject (gap : Gap)
  | object (members : Members)

/-- The items of an array, with the blanks on both sides of each. -/
inductive Items where
  | last (before : Gap) (value : Text) (behind : Gap)
  | more (before : Gap) (value : Text) (behind : Gap) (rest : Items)

/-- The members of an object, with the blanks on both sides of their names and values. -/
inductive Members where
  | last (before : Gap) (name : List Piece) (colon : Gap) (middle : Gap) (value : Text)
    (behind : Gap)
  | more (before : Gap) (name : List Piece) (colon : Gap) (middle : Gap) (value : Text)
    (behind : Gap) (rest : Members)

end

mutual

/-- The characters of a value, with gaps that are written in some way. -/
def Text.written (gap : Gap → List Char) : Text → List Char
  | .null => "null".toList
  | .bool b => if b then "true".toList else "false".toList
  | .number n => n.chars
  | .string s => quoted s
  | .emptyArray inner => '[' :: gap inner ++ [']']
  | .array items => '[' :: items.written gap ++ [']']
  | .emptyObject inner => '\x7b' :: gap inner ++ ['\x7d']
  | .object members => '\x7b' :: members.written gap ++ ['\x7d']

/-- The characters between the brackets of an array. -/
def Items.written (gap : Gap → List Char) : Items → List Char
  | .last before value behind => gap before ++ value.written gap ++ gap behind
  | .more before value behind rest =>
    gap before ++ value.written gap ++ gap behind ++ ',' :: rest.written gap

/-- The characters between the braces of an object. -/
def Members.written (gap : Gap → List Char) : Members → List Char
  | .last before name colon middle value behind =>
    gap before ++ quoted name ++ gap colon ++ ':' :: gap middle ++ value.written gap ++ gap behind
  | .more before name colon middle value behind rest =>
    gap before ++ quoted name ++ gap colon ++ ':' :: gap middle ++ value.written gap ++ gap behind
      ++ ',' :: rest.written gap

end

/-- The names in an object. -/
def Members.names : Members → List String
  | .last _ name _ _ _ _ => [textOf name]
  | .more _ name _ _ _ _ rest => textOf name :: rest.names

mutual

/-- The tree that a value stands for. -/
def Text.tree : Text → Tree
  | .null => .null
  | .bool b => .bool b
  | .number n => .scalar n.value
  | .string s => .text (textOf s)
  | .emptyArray _ => .list []
  | .array items => .list items.trees
  | .emptyObject _ => .map []
  | .object members => .map members.entries

/-- The trees that items stand for. -/
def Items.trees : Items → List Tree
  | .last _ value _ => [value.tree]
  | .more _ value _ rest => value.tree :: rest.trees

/-- The entries that members stand for. -/
def Members.entries : Members → Entries
  | .last _ name _ _ value _ => [(.text (textOf name), value.tree)]
  | .more _ name _ _ value _ rest => (.text (textOf name), value.tree) :: rest.entries

end

theorem Members.keys_entries : ∀ members : Members,
    members.entries.map Prod.fst = members.names.map Tree.text
  | .last .. => rfl
  | .more _ _ _ _ _ _ rest => congrArg _ rest.keys_entries

mutual

/-- No object has a name twice. -/
def Text.Distinct : Text → Prop
  | .array items => items.Distinct
  | .object members => members.names.Nodup ∧ members.Distinct
  | _ => True

/-- No object in some items has a name twice. -/
def Items.Distinct : Items → Prop
  | .last _ value _ => value.Distinct
  | .more _ value _ rest => value.Distinct ∧ rest.Distinct

/-- No object among the values of some members has a name twice. -/
def Members.Distinct : Members → Prop
  | .last _ _ _ _ value _ => value.Distinct
  | .more _ _ _ _ value _ rest => value.Distinct ∧ rest.Distinct

end

/-! ## Files -/

/-- The text of a file of JSON: an object, and blanks around it. -/
structure File where
  before : Gap
  value : Text
  behind : Gap
  isObject : (value matches .emptyObject _ | .object _) = true

namespace File

variable (f : File)

/-- The characters of a file, with gaps that are written in some way. -/
def written (gap : Gap → List Char) : List Char :=
  gap f.before ++ f.value.written gap ++ gap f.behind

/-- The text of a file. -/
def text : String := String.ofList (f.written Gap.chars)

/-- What decoding a file gives. -/
def tree : Tree := f.value.tree

end File

/-! ## Parts -/

/-- A part of a text: what stands between two tokens, a string, the name of a member with what
stands between it and its colon, or a number. -/
inductive Part where
  | gap (gap : Gap)
  | string (s : List Piece)
  | name (s : List Piece) (colon : Gap)
  | number (n : Number)

mutual

/-- The parts of a value. -/
def Text.parts : Text → List Part
  | .null | .bool _ => []
  | .number n => [.number n]
  | .string s => [.string s]
  | .emptyArray inner | .emptyObject inner => [.gap inner]
  | .array items => items.parts
  | .object members => members.parts

/-- The parts of some items. -/
def Items.parts : Items → List Part
  | .last before value behind => .gap before :: value.parts ++ [.gap behind]
  | .more before value behind rest => .gap before :: value.parts ++ .gap behind :: rest.parts

/-- The parts of some members. A name is a string as well. -/
def Members.parts : Members → List Part
  | .last before name colon middle value behind =>
    .gap before :: .string name :: .name name colon :: .gap colon :: .gap middle :: value.parts
      ++ [.gap behind]
  | .more before name colon middle value behind rest =>
    .gap before :: .string name :: .name name colon :: .gap colon :: .gap middle :: value.parts
      ++ .gap behind :: rest.parts

end

section

variable {P : Part → Prop} {before colon middle behind : Gap} {name : List Piece} {value : Text}

theorem Items.forall_parts_last : (∀ part ∈ (Items.last before value behind).parts, P part) ↔
    P (.gap before) ∧ (∀ part ∈ value.parts, P part) ∧ P (.gap behind) := by
  simp [parts, or_imp, forall_and]

theorem Items.forall_parts_more {rest : Items} :
    (∀ part ∈ (Items.more before value behind rest).parts, P part) ↔
      P (.gap before) ∧ (∀ part ∈ value.parts, P part) ∧ P (.gap behind) ∧
        ∀ part ∈ rest.parts, P part := by
  simp [parts, or_imp, forall_and]

theorem Members.forall_parts_last :
    (∀ part ∈ (Members.last before name colon middle value behind).parts, P part) ↔
      P (.gap before) ∧ P (.string name) ∧ P (.name name colon) ∧ P (.gap colon) ∧
        P (.gap middle) ∧ (∀ part ∈ value.parts, P part) ∧ P (.gap behind) := by
  simp [parts, or_imp, forall_and]

theorem Members.forall_parts_more {rest : Members} :
    (∀ part ∈ (Members.more before name colon middle value behind rest).parts, P part) ↔
      P (.gap before) ∧ P (.string name) ∧ P (.name name colon) ∧ P (.gap colon) ∧
        P (.gap middle) ∧ (∀ part ∈ value.parts, P part) ∧ P (.gap behind) ∧
          ∀ part ∈ rest.parts, P part := by
  simp [parts, or_imp, forall_and]

end

/-- The parts of a file. -/
def File.parts (f : File) : List Part := .gap f.before :: f.value.parts ++ [.gap f.behind]

end ApiManifest.JsonText
