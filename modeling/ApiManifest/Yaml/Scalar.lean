import ApiManifest.Error
import ApiManifest.Text.Digit
import ApiManifest.Yaml.Character

/-!
# Written scalars

A scalar can be written without quotes, between single or double quotes, or as an indented block.
Each form has its own way with line breaks; each reader here takes what it reads off the front of
a text and says where it stopped.
-/

namespace ApiManifest.Yaml

/-- A scalar that was read, and what follows it. -/
structure Lexeme where
  text : String
  cursor : Cursor
  /-- The reader stopped behind a line break, where a new key may begin. -/
  brokeLine : Bool := false

/-- The text of the characters that were read, the last one first. -/
def textOf (reversed : List Char) : String := String.ofList reversed.reverse

/-! ## Line breaks inside scalars

The first break between two words stands for a space. Every further one stands for itself, and so
does a line separator of Unicode, even as the first. -/

/-- What some breaks stand for, the last one first. -/
def folded (first : Char) (more : List Char) : List Char :=
  if first != '\n' then more ++ [first]
  else if more.isEmpty then [' ']
  else more

/-! ## Scalars between double quotes -/

/-- The character that a letter behind a backslash stands for. -/
def escaped? : Char → Option Char
  | '0' => some '\x00'
  | 'a' => some '\x07'
  | 'b' => some '\x08'
  | 't' => some '\t'
  | '\t' => some '\t'
  | 'n' => some '\n'
  | 'v' => some '\x0b'
  | 'f' => some '\x0c'
  | 'r' => some '\r'
  | 'e' => some '\x1b'
  | ' ' => some ' '
  | '"' => some '"'
  | '\\' => some '\\'
  | '/' => some '/'
  | 'N' => some '\u0085'
  | '_' => some '\u00a0'
  | 'L' => some '\u2028'
  | 'P' => some '\u2029'
  | _ => none

/-- How many hexadecimal digits follow a letter behind a backslash. -/
def codeLength? : Char → Option Nat
  | 'x' => some 2
  | 'u' => some 4
  | 'U' => some 8
  | _ => none

/-- The character of a code. -/
def ofCode (code : Nat) : Except Error Char :=
  if code ≤ 0x10FFFF then .ok (Char.ofNat code)
  else if code < 0x80000000 then .error .badCharacterCode
  else .error .overflow

/-- Where a reader of a quoted scalar is. -/
inductive QuotedMode where
  /-- Among the characters of a line. -/
  | words
  /-- Behind blanks that count only if the line goes on, the last one first. -/
  | blanks (seen : List Char)
  /-- Behind line breaks: the first, and the further ones, the last one first. -/
  | breaks (first : Char) (more : List Char)
  /-- Behind line breaks of which the first was cancelled by a backslash. -/
  | joined (more : List Char)
  /-- Behind a backslash. -/
  | escape
  /-- In a code of which digits are missing. -/
  | code (missing : Nat) (value : Nat)

/-- Reads a scalar up to its quote. `read` holds what was read, the last character first. -/
def quotedFrom (double : Bool) (mode : QuotedMode) (read : List Char) (p : Place) :
    List Char → Except Error Lexeme
  | [] => .error .yaml
  | c :: rest =>
    let next := p.after c rest
    let lineStart (mode : QuotedMode) (read : List Char) : Except Error Lexeme :=
      if documentMark rest then .error .yaml else quotedFrom double mode read next rest
    -- a character that is neither blank nor part of an escape
    let word (read : List Char) : Except Error Lexeme :=
      if c = '"' ∧ double then .ok { text := textOf read, cursor := ⟨next, rest⟩ }
      else if c = '\\' ∧ double then quotedFrom double .escape read next rest
      else if c = '\'' ∧ !double then
        match rest with
        | '\'' :: more => quotedFrom double .words ('\'' :: read) (next.after '\'' more) more
        | _ => .ok { text := textOf read, cursor := ⟨next, rest⟩ }
      else quotedFrom double .words (c :: read) next rest
    match mode with
    | .words =>
      if c = ' ' ∨ c = '\t' then quotedFrom double (.blanks [c]) read next rest
      else if joinsNext c rest then quotedFrom double (.blanks []) read next rest
      else if isBreak c then lineStart (.breaks (breakValue c) []) read
      else word read
    | .blanks seen =>
      if c = ' ' ∨ c = '\t' then quotedFrom double (.blanks (c :: seen)) read next rest
      else if joinsNext c rest then quotedFrom double (.blanks seen) read next rest
      else if isBreak c then lineStart (.breaks (breakValue c) []) read
      else word (seen ++ read)
    | .breaks first more =>
      if c = ' ' ∨ c = '\t' ∨ joinsNext c rest then
        quotedFrom double (.breaks first more) read next rest
      else if isBreak c then lineStart (.breaks first (breakValue c :: more)) read
      else word (folded first more ++ read)
    | .joined more =>
      if c = ' ' ∨ c = '\t' ∨ joinsNext c rest then
        quotedFrom double (.joined more) read next rest
      else if isBreak c then lineStart (.joined (breakValue c :: more)) read
      else word (more ++ read)
    | .escape =>
      if joinsNext c rest then quotedFrom double .escape read next rest
      else if isBreak c then lineStart (.joined []) read
      else match escaped? c, codeLength? c with
        | some x, _ => quotedFrom double .words (x :: read) next rest
        | none, some n => quotedFrom double (.code n 0) read next rest
        | none, none => .error .yaml
    | .code missing value =>
      match Text.hexValue? c with
      | none => .error .yaml
      | some d =>
        let value := value * 16 + d
        if missing ≤ 1 then do
          let x ← ofCode value
          quotedFrom double .words (x :: read) next rest
        else quotedFrom double (.code (missing - 1) value) read next rest

/-- Reads a quoted scalar whose first quote is next. -/
def Lexeme.quoted (double : Bool) (c : Cursor) : Except Error Lexeme :=
  let c := c.skip 1
  quotedFrom double .words [] c.place c.rest

/-! ## Scalars without quotes -/

/-- Where a reader of an unquoted scalar is. -/
inductive PlainMode where
  | words
  /-- Behind spaces that count only if the line goes on. -/
  | blanks (count : Nat)
  /-- Behind line breaks: the first, and the further ones, the last one first. -/
  | breaks (first : Char) (more : List Char)

/-- Whether an unquoted word ends before this character. -/
def endsPlain (flow : Bool) (c : Char) (rest : List Char) : Bool :=
  isSpace c
    || (c == ':' && (spaceAhead rest || (flow && rest.head?.any isFlowIndicator)))
    || (flow && (c == '?' || isFlowIndicator c))

/-- Reads an unquoted scalar. Inside braces or brackets it ends at their indicators; outside of
them it goes on only on lines that are indented by `indent` or more. -/
def plainFrom (flow : Bool) (indent : Int) (mode : PlainMode) (read : List Char) (p : Place) :
    List Char → Lexeme
  | [] => { text := textOf read, cursor := ⟨p, []⟩, brokeLine := mode matches .breaks .. }
  | c :: rest =>
    let next := p.after c rest
    let stop : Lexeme :=
      { text := textOf read, cursor := ⟨p, c :: rest⟩, brokeLine := mode matches .breaks .. }
    let lineStart (mode : PlainMode) : Lexeme :=
      if documentMark rest then
        { text := textOf read, cursor := ⟨next, rest⟩, brokeLine := true }
      else plainFrom flow indent mode read next rest
    let word (blanks : List Char) : Lexeme :=
      if c = '#' ∨ (!flow ∧ (p.column : Int) < indent) ∨ endsPlain flow c rest then stop
      else plainFrom flow indent .words (c :: blanks ++ read) next rest
    match mode with
    | .words =>
      if c = ' ' then plainFrom flow indent (.blanks 1) read next rest
      else if joinsNext c rest then plainFrom flow indent (.blanks 0) read next rest
      else if isBreak c then lineStart (.breaks (breakValue c) [])
      else if endsPlain flow c rest then stop
      else plainFrom flow indent .words (c :: read) next rest
    | .blanks count =>
      if c = ' ' then plainFrom flow indent (.blanks (count + 1)) read next rest
      else if joinsNext c rest then plainFrom flow indent (.blanks count) read next rest
      else if isBreak c then lineStart (.breaks (breakValue c) [])
      else word (List.replicate count ' ')
    | .breaks first more =>
      if c = ' ' ∨ joinsNext c rest then plainFrom flow indent (.breaks first more) read next rest
      else if isBreak c then lineStart (.breaks first (breakValue c :: more))
      else word (folded first more)

/-- Reads an unquoted scalar whose first character is next. -/
def Lexeme.plain (flow : Bool) (indent : Int) (c : Cursor) : Lexeme :=
  plainFrom flow indent .words [] c.place c.rest

/-! ## Block scalars -/

/-- What becomes of the line breaks at the end of a block. -/
inductive Chomping where
  | strip | clip | keep
  deriving DecidableEq

/-- What the line of the indicator says about a block. -/
structure BlockHeader where
  chomping : Chomping := .clip
  /-- The indentation of the block beyond that of what it is part of. -/
  increment : Option Nat := none

/-- The sign of a chomping. -/
def chomping? : Char → Option Chomping
  | '+' => some .keep
  | '-' => some .strip
  | _ => none

/-- Reads the signs behind the indicator of a block, in either order. -/
def blockHeader (c : Cursor) : Except Error (BlockHeader × Cursor) := do
  let increment (d : Char) : Except Error (Option Nat) :=
    if d = '0' then .error .yaml else .ok (some (d.toNat - 48))
  let (header, c) ← match c.rest with
    | a :: b :: _ => match chomping? a with
      | some chomping =>
        if b.isDigit then pure ({ chomping, increment := ← increment b }, c.skip 2)
        else pure ({ chomping }, c.skip 1)
      | none =>
        if a.isDigit then
          match chomping? b with
          | some chomping => pure ({ chomping, increment := ← increment a }, c.skip 2)
          | none => pure ({ increment := ← increment a }, c.skip 1)
        else pure ({}, c)
    | [a] => match chomping? a with
      | some chomping => pure ({ chomping }, c.skip 1)
      | none => if a.isDigit then pure ({ increment := ← increment a }, c.skip 1) else pure ({}, c)
    | [] => pure ({}, c)
  if gapAhead c.rest then
    match c.skipLine? with
    | some c => return (header, c)
    | none => throw .yaml
  else throw .yaml

/-- Passes the empty lines before a block. Gives the greatest number of spaces on one of them or
before the first text, and what the breaks stand for, the last one first. -/
def blockIndentFrom (most : Nat) (breaks : List Char) (p : Place) :
    List Char → Nat × List Char × Cursor
  | [] => (most, breaks, ⟨p, []⟩)
  | c :: rest =>
    let next := p.after c rest
    if c = ' ' then blockIndentFrom (max most next.column) breaks next rest
    else if joinsNext c rest then blockIndentFrom most breaks next rest
    else if isBreak c then blockIndentFrom most (breakValue c :: breaks) next rest
    else (most, breaks, ⟨p, c :: rest⟩)

/-- Where a reader of a block is. -/
inductive BlockMode where
  /-- On a line, whose first character is no blank. -/
  | line (flush : Bool)
  /-- Behind a line: the break at its end, if there was a line, and the further ones, the last one
  first. -/
  | gap (first : Option Char) (flush : Bool) (more : List Char)

/-- The text of a block whose end is reached. -/
def blockText (chomping : Chomping) (read : List Char) (first : Option Char)
    (more : List Char) : String :=
  let clipped := if chomping = .strip then read else first.toList ++ read
  textOf (if chomping = .keep then more ++ clipped else clipped)

/-- Reads the lines of a block that are indented by `indent`. In a folded block, a break between
two lines that begin with no blank stands for a space, or for nothing before empty lines. -/
def blockFrom (fold : Bool) (chomping : Chomping) (indent : Nat) (mode : BlockMode)
    (read : List Char) (p : Place) : List Char → Lexeme
  | [] => match mode with
    | .line _ => { text := textOf read, cursor := ⟨p, []⟩ }
    | .gap first _ more => { text := blockText chomping read first more, cursor := ⟨p, []⟩ }
  | c :: rest =>
    let next := p.after c rest
    match mode with
    | .line flush =>
      if joinsNext c rest then blockFrom fold chomping indent (.line flush) read next rest
      else if isBreak c then
        blockFrom fold chomping indent (.gap (some (breakValue c)) flush []) read next rest
      else blockFrom fold chomping indent (.line flush) (c :: read) next rest
    | .gap first flush more =>
      if joinsNext c rest then blockFrom fold chomping indent mode read next rest
      else if isBreak c then
        blockFrom fold chomping indent (.gap first flush (breakValue c :: more)) read next rest
      else if c = ' ' ∧ p.column < indent then
        blockFrom fold chomping indent mode read next rest
      else if p.column = indent then
        let blank := c = ' ' ∨ c = '\t'
        let before := match first with
          | none => []
          | some b =>
            if fold ∧ b = '\n' ∧ flush ∧ ¬ blank then (if more.isEmpty then [' '] else [])
            else [b]
        blockFrom fold chomping indent (.line (!blank)) (c :: more ++ before ++ read) next rest
      else { text := blockText chomping read first more, cursor := ⟨p, c :: rest⟩ }

/-- Reads a block whose indicator is next, as part of something that is indented by `indent`.
Without a word about its indentation, a block is indented like its first line. -/
def Lexeme.block (fold : Bool) (indent : Int) (c : Cursor) : Except Error Lexeme := do
  let (header, c) ← blockHeader (c.skip 1)
  let least := max 1 (indent + 1).toNat
  match header.increment with
  | some n =>
    return blockFrom fold header.chomping (least + n - 1) (.gap none true []) [] c.place c.rest
  | none =>
    let (most, breaks, c) := blockIndentFrom 0 [] c.place c.rest
    return blockFrom fold header.chomping (max least most) (.gap none true breaks) []
      c.place c.rest

end ApiManifest.Yaml
