import ApiManifest.Text.Digit
import ApiManifest.Yaml.Character
import ApiManifest.Yaml.Outline

/-!
# YAML texts

Outlines as text: collections as indented blocks, scalars without quotes where they read back as
what they are, long ones broken between words.
-/

namespace ApiManifest.Yaml

/-! ## Ways to write a text -/

/-- A break in a text that is written. A carriage return is none, it is written by its code. -/
def isWrittenBreak (c : Char) : Bool := isBreak c && c != '\r'

/-- A character that can be written as it is. -/
def isWritable (c : Char) : Bool :=
  let n := c.toNat
  c == '\n' || (0x20 ≤ n && n ≤ 0x7E) || n = 0x85 || (0xA0 ≤ n && n ≤ 0xD7FF)
    || (0xE000 ≤ n && n ≤ 0xFFFD && n != 0xFEFF) || (0x10000 ≤ n && n < 0x10FFFF)

/-- Blank for the writer: a null character counts too. -/
def isWrittenSpace (c : Char) : Bool := isSpace c || c == '\x00'

/-- A character that means something else at the beginning of an unquoted scalar. -/
def isIndicator (c : Char) : Bool := "#,[]\x7b\x7d&*!|>'\"%@`".toList.contains c

/-- Whether an unquoted scalar cannot begin like this. -/
def beginsBadly (cs : List Char) : Bool :=
  match cs with
  | '-' :: '-' :: '-' :: _ | '.' :: '.' :: '.' :: _ => true
  | c :: rest =>
    let alone := match rest with
      | [] => true
      | d :: _ => isWrittenSpace d
    isIndicator c || ((c == '?' || c == ':' || c == '-') && alone)
  | [] => false

/-- Whether an unquoted scalar cannot go on like this: a colon before a blank begins a value, a
number sign behind one a comment. -/
def goesOnBadly (afterSpace : Bool) : List Char → Bool
  | [] => false
  | c :: rest =>
    let alone := match rest with
      | [] => true
      | d :: _ => isWrittenSpace d
    (c == ':' && alone) || (c == '#' && afterSpace) || goesOnBadly (isWrittenSpace c) rest

/-- Whether a character of one class is directly behind one of another class. -/
def hasPair (first second : Char → Bool) : List Char → Bool
  | a :: b :: rest => (first a && second b) || hasPair first second (b :: rest)
  | _ => false

/-- What a text is like, as far as it decides how it can be written. -/
structure Traits where
  isEmpty : Bool
  multiline : Bool
  /-- It can stand without quotes. -/
  plain : Bool
  /-- It can stand between single quotes. -/
  single : Bool
  /-- It can be written as an indented block. -/
  block : Bool

/-- The traits of a text. -/
def Traits.of (cs : List Char) : Traits :=
  match cs with
  | [] => { isEmpty := true, multiline := false, plain := true, single := true, block := false }
  | first :: rest =>
    let last := rest.getLast?.getD first
    let isBlank (c : Char) : Bool := c == ' '
    let edgeBlank := isBlank first || isBlank last
    let edgeBreak := isWrittenBreak first || isWrittenBreak last
    let breakThenBlank := hasPair isWrittenBreak isBlank cs
    let onlyEscaped := hasPair isBlank isWrittenBreak cs || !cs.all isWritable
    let multiline := cs.any isWrittenBreak
    let indicators := beginsBadly cs || goesOnBadly (isWrittenSpace first) rest
    { isEmpty := false
      multiline
      plain := !(edgeBlank || edgeBreak || breakThenBlank || onlyEscaped || multiline
        || indicators)
      single := !(breakThenBlank || onlyEscaped)
      block := !(isBlank last || onlyEscaped) }

/-- A way to write a scalar. -/
inductive Style where
  | plain | single | double | literal
  deriving DecidableEq, Repr

/-- The way to write a scalar. `shown` tells that the text shows the tag without quotes. A key on
one line with its value is no block and has no line breaks. -/
def styleOf (tag : Tag) (shown isKey : Bool) (t : Traits) : Style :=
  let asBlock := tag == .binary
  if !asBlock && shown && t.plain && !(isKey && (t.isEmpty || t.multiline)) then .plain
  else if asBlock && t.block && !isKey then .literal
  else if !asBlock && t.single && !(isKey && t.multiline) then .single
  else .double

/-- The shorthand of a tag. -/
def tagText : Tag → String
  | .null => "!!null"
  | .bool => "!!bool"
  | .int => "!!int"
  | .float => "!!float"
  | .timestamp => "!!timestamp"
  | .binary => "!!binary"
  | .str => "!!str"
  | .seq => "!!seq"
  | .map => "!!map"
  | .set => "!!set"
  | .omap => "!!omap"
  | .pairs => "!!pairs"
  | .merge => "!!merge"
  | .value => "!!value"
  | .other uri => "!<" ++ uri ++ ">"

/-- The name of an anchor: its number with at least three digits. -/
def anchorName (number : Nat) : String :=
  let digits := Nat.toDigits 10 number
  String.ofList ("id".toList ++ List.replicate (3 - digits.length) '0' ++ digits)

/-! ## Pages -/

/-- What has been written. -/
structure Page where
  text : String := ""
  column : Nat := 0
  /-- A blank or nothing comes before. -/
  spaced : Bool := true
  /-- Only indentation and the indicators of items stand on the line. -/
  fresh : Bool := true

namespace Page

/-- Lines end at a space behind this column. -/
def width : Nat := 80

/-- Columns of a level. -/
def step : Nat := 2

/-- Writes characters of one line. -/
def put (p : Page) (cs : List Char) : Page :=
  { p with text := p.text ++ String.ofList cs, column := p.column + cs.length }

/-- Ends a line by a break. -/
def breakLine (p : Page) (c : Char) : Page :=
  { text := p.text.push c, column := 0, spaced := true, fresh := true }

/-- Goes to a column on a new line, or on this one if nothing stands there yet. -/
def indentTo (p : Page) (column : Nat) : Page :=
  let p := if !p.fresh || column < p.column || (p.column == column && !p.spaced)
    then p.breakLine '\n' else p
  if p.column < column then
    { p.put (List.replicate (column - p.column) ' ') with spaced := true }
  else p

/-- Writes an indicator, behind a blank if it needs one. `keepsFresh` tells that what follows can
be indented on the same line. -/
def indicator (p : Page) (mark : String) (needsSpace : Bool) (spaced : Bool := false)
    (keepsFresh : Bool := false) : Page :=
  let data := if p.spaced || !needsSpace then mark.toList else ' ' :: mark.toList
  { p.put data with spaced, fresh := p.fresh && keepsFresh }

/-- Marks that text stands on the line. -/
def inText (p : Page) : Page := { p with spaced := false, fresh := false }

/-! ### Scalars -/

/-- Writes the characters of an unquoted scalar. A single space behind the last column becomes a
line break. `spaces` counts those not written yet. -/
def plainFrom (indent : Nat) (fold : Bool) (spaces : Nat) (p : Page) : List Char → Page
  | [] => p.put (List.replicate spaces ' ')
  | c :: rest =>
    if c = ' ' then plainFrom indent fold (spaces + 1) p rest
    else
      let p := if spaces = 1 ∧ width < p.column ∧ fold then (p.indentTo indent).inText
        else p.put (List.replicate spaces ' ')
      plainFrom indent fold 0 (p.put [c]) rest

/-- Writes an unquoted scalar. -/
def plain (p : Page) (indent : Nat) (fold : Bool) (cs : List Char) : Page :=
  if cs.isEmpty then p
  else plainFrom indent fold 0 (if p.spaced then p else p.put [' ']).inText cs

/-- Writes line breaks between single quotes, which have to be one more than they stand for when
the first is a line feed. -/
def breaks (p : Page) (indent : Nat) (bs : List Char) : Page :=
  let p := if bs.head? = some '\n' then p.breakLine '\n' else p
  (bs.foldl breakLine p).indentTo indent

/-- What has not been written yet of a scalar between single quotes. -/
inductive Held where
  | nothing
  | spaces (count : Nat) (leading : Bool)
  | breaks (bs : List Char)

/-- Writes what has not been written yet. -/
def release (p : Page) (indent : Nat) (fold atEnd : Bool) : Held → Page
  | .nothing => p
  | .spaces count leading =>
    if count = 1 ∧ width < p.column ∧ fold ∧ !leading ∧ !atEnd then p.indentTo indent
    else p.put (List.replicate count ' ')
  | .breaks bs => p.breaks indent bs

/-- Writes the characters of a scalar between single quotes. -/
def singleFrom (indent : Nat) (fold : Bool) (held : Held) (first : Bool) (p : Page) :
    List Char → Page
  | [] => p.release indent fold true held
  | c :: rest =>
    if c = ' ' then
      match held with
      | .spaces n leading => singleFrom indent fold (.spaces (n + 1) leading) false p rest
      | held => singleFrom indent fold (.spaces 1 first) false
          (p.release indent fold false held) rest
    else if isWrittenBreak c then
      match held with
      | .breaks bs => singleFrom indent fold (.breaks (bs ++ [c])) false p rest
      | held => singleFrom indent fold (.breaks [c]) false (p.release indent fold false held) rest
    else
      let p := p.release indent fold false held
      singleFrom indent fold .nothing false (p.put (if c = '\'' then ['\'', '\''] else [c])) rest

/-- Writes a scalar between single quotes. -/
def single (p : Page) (indent : Nat) (fold : Bool) (cs : List Char) : Page :=
  (singleFrom indent fold .nothing true (p.indicator "'" true) cs).indicator "'" false

/-- The letter that stands for a character behind a backslash. -/
def escapeLetter? (c : Char) : Option Char :=
  match c with
  | '\x00' => some '0'
  | '\x07' => some 'a'
  | '\x08' => some 'b'
  | '\t' => some 't'
  | '\n' => some 'n'
  | '\x0b' => some 'v'
  | '\x0c' => some 'f'
  | '\r' => some 'r'
  | '\x1b' => some 'e'
  | '"' => some '"'
  | '\\' => some '\\'
  | '\u0085' => some 'N'
  | '\u00a0' => some '_'
  | '\u2028' => some 'L'
  | '\u2029' => some 'P'
  | _ => none

/-- The escape of a character between double quotes, if it needs one. -/
def escape? (c : Char) : Option (List Char) :=
  let n := c.toNat
  let stands := (0x20 ≤ n && n ≤ 0x7E) || (0xA0 ≤ n && n ≤ 0xD7FF) || (0xE000 ≤ n && n ≤ 0xFFFD)
  if stands && !(c == '"' || c == '\\' || c == '\u2028' || c == '\u2029' || c == '\uFEFF') then none
  else
    let code (letter : Char) (width : Nat) : List Char :=
      '\\' :: letter :: (Text.hexPadded n width).map Char.toUpper
    some (match escapeLetter? c with
      | some letter => ['\\', letter]
      | none => if n ≤ 0xFF then code 'x' 2 else if n ≤ 0xFFFF then code 'u' 4 else code 'U' 8)

/-- Writes the characters of a scalar between double quotes. Behind the last column a backslash
ends the line at a space or next to an escape; a second one keeps a space at the beginning of the
next line. -/
def doubleFrom (indent : Nat) (fold first afterEscape : Bool) (p : Page) : List Char → Page
  | [] => p
  | c :: rest =>
    let escape := escape? c
    let p := match escape with
      | some e => p.put e
      | none => p
    let isOver := match escape with
      | some _ => width + 1 < p.column
      | none => (c == ' ' || afterEscape) && width < p.column
    let p :=
      if !first && !rest.isEmpty && isOver && fold then
        let p := ((p.put ['\\']).indentTo indent).inText
        let following := if escape.isSome then rest.head? else some c
        if following = some ' ' then p.put ['\\'] else p
      else p
    match escape with
    | some _ => doubleFrom indent fold false true p rest
    | none => doubleFrom indent fold false false (p.put [c]) rest

/-- Writes a scalar between double quotes. -/
def double (p : Page) (indent : Nat) (fold : Bool) (cs : List Char) : Page :=
  (doubleFrom indent fold true false (p.indicator "\"" true) cs).indicator "\"" false

/-- Writes the lines of a block scalar. -/
def literalFrom (indent : Nat) (p : Page) : List Char → Page
  | [] => if p.fresh then p else p.breakLine '\n'
  | c :: rest =>
    if isWrittenBreak c then literalFrom indent (p.breakLine c) rest
    else
      let p := if p.column = 0 then (p.indentTo indent) else p
      literalFrom indent { p with text := p.text.push c, column := p.column + 1, fresh := false }
        rest

/-- Writes a scalar as an indented block. The text does not begin with a blank and ends with one
line break. -/
def literal (p : Page) (indent : Nat) (cs : List Char) : Page :=
  literalFrom indent ((p.indicator "|" true).breakLine '\n') cs

/-! ### Nodes -/

/-- The column of the contents of a scalar or a collection that stands in something at a
column. -/
def deeper (indent : Option Nat) : Nat :=
  match indent with
  | none => 0
  | some n => n + step

/-- Writes an anchor. -/
def anchor (p : Page) (number : Option Nat) : Page :=
  match number with
  | some n => p.indicator ("&" ++ anchorName n) true
  | none => p

/-- Writes a scalar, with its tag if the text does not show it. -/
def scalar (p : Page) (indent : Option Nat) (isKey : Bool) (tag : Tag) (text : String) : Page :=
  let cs := text.toList
  let shown := Tag.shownBy text == tag
  let style := styleOf tag shown isKey (Traits.of cs)
  let p := if (style == .plain && shown) || (style != .plain && tag == .str) then p
    else p.indicator (tagText tag) true
  let column := (indent.getD 0) + step
  match style with
  | .plain => p.plain column (!isKey) cs
  | .single => p.single column (!isKey) cs
  | .double => p.double column (!isKey) cs
  | .literal => p.literal column cs

/-- Whether a key is short enough to stand on one line with its value. -/
def isSimpleKey : Outline → Bool
  | .alias n => (anchorName n).length < 128
  | .scalar anchor tag text =>
    let t := Traits.of text.toList
    let length := ((anchor.map fun n => (anchorName n).length).getD 0) + (tagText tag).length
      + text.length
    length < 128 && !t.isEmpty && !t.multiline
  | .sequence anchor items =>
    items.isEmpty && ((anchor.map fun n => (anchorName n).length).getD 0) + 5 < 128
  | .mapping anchor _ entries =>
    entries.isEmpty && ((anchor.map fun n => (anchorName n).length).getD 0) + 5 < 128

mutual

/-- Writes a node in something at a column. A sequence that is the value of a key is not indented
further. -/
def node (indent : Option Nat) (inMapping isKey : Bool) (p : Page) : Outline → Page
  | .alias n => p.indicator ("*" ++ anchorName n) true
  | .scalar number tag text => (p.anchor number).scalar indent isKey tag text
  | .sequence number items =>
    let p := p.anchor number
    if items.isEmpty then (p.indicator "[" true true).indicator "]" false
    else
      let column := match indent with
        | none => 0
        | some n => if inMapping && !p.fresh then n else n + step
      nodes column p items
  | .mapping number isSet parts =>
    let p := p.anchor number
    let p := if isSet then p.indicator (tagText .set) true else p
    if parts.isEmpty then (p.indicator "\x7b" true true).indicator "\x7d" false
    else entries (deeper indent) p parts

/-- Writes the items of a sequence. -/
def nodes (column : Nat) (p : Page) : List Outline → Page
  | [] => p
  | item :: rest =>
    let p := (p.indentTo column).indicator "-" true false true
    nodes column (node (some column) false false p item) rest

/-- Writes the entries of a mapping. A long key is marked by a question mark. -/
def entries (column : Nat) (p : Page) : List (Outline × Outline) → Page
  | [] => p
  | (key, value) :: rest =>
    let p := p.indentTo column
    let p :=
      if isSimpleKey key then (node (some column) true true p key).indicator ":" false
      else
        let p := node (some column) true false (p.indicator "?" true false true) key
        (p.indentTo column).indicator ":" true false true
    entries column (node (some column) true false p value) rest

end

end Page

/-- The text of a document. -/
def render (root : Outline) : String := ((Page.node none false false {} root).indentTo 0).text

end ApiManifest.Yaml
