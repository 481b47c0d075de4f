import ApiManifest.Number.Numeral
import ApiManifest.Yaml.Scalar

/-!
# Tokens of YAML

A YAML text as the sequence of its tokens. Indentation is made explicit: a collection that its
indentation shows begins and ends with a token of its own, as one in brackets does. That
something was a key is known only once its colon is met, so a place is kept for the token that
announces a key.
-/

namespace ApiManifest.Yaml

/-- A tag as it is written: the handle of a shorthand, if there is one, and the rest. -/
structure TagText where
  handle : Option String
  suffix : String
  deriving DecidableEq, Repr

/-- A token. -/
inductive Token where
  | versionDirective (major : Int)
  | tagDirective (handle : String) (expansion : String)
  | otherDirective
  | documentStart
  | documentEnd
  | blockSequenceStart
  | blockMappingStart
  | blockEnd
  | flowSequenceStart
  | flowSequenceEnd
  | flowMappingStart
  | flowMappingEnd
  | blockEntry
  | flowEntry
  | key
  | value
  | alias (name : String)
  | anchor (name : String)
  | tag (text : TagText)
  | scalar (text : String) (isPlain : Bool)
  | streamEnd
  deriving DecidableEq, Repr

namespace Token

/-! ## Words -/

/-- Reads the characters of a class off the front. -/
def readWhile (accepts : Char → Bool) (c : Cursor) : List Char × Cursor :=
  (c.rest.takeWhile accepts, c.skipWhile accepts)

/-- Reads characters of words; there has to be one. -/
def readWord (c : Cursor) : Except Error (String × Cursor) :=
  let (word, c) := readWhile isWordChar c
  if word.isEmpty then .error .yaml else .ok (String.ofList word, c)

/-- Whether the name of an anchor may end here. -/
def endsAnchor (rest : List Char) : Bool :=
  spaceAhead rest || rest.head?.any fun c => "?:,]\x7d%@`".toList.contains c

/-- Reads the name of an anchor or an alias behind its sign. -/
def readAnchor (c : Cursor) : Except Error (String × Cursor) := do
  let (name, c) ← readWord (c.skip 1)
  if endsAnchor c.rest then return (name, c) else throw .yaml

/-! ## Tags -/

/-- A character of a tag's URI that stands for itself. -/
def isUriChar (c : Char) : Bool := c.isAlphanum || "-;/?:@&=+$,_.!~*'()[]".toList.contains c

/-- The characters that some bytes code in UTF-8. -/
def decodeBytes (bytes : List Nat) : Option (List Char) :=
  (String.fromUTF8? ⟨(bytes.map Nat.toUInt8).toArray⟩).map String.toList

/-- Reads the URI of a tag. Behind percent signs stand the codes of bytes; a run of them codes
characters in UTF-8. `bytes` holds a run of them, the last one first. -/
def uriFrom (read : List Char) (bytes : List Nat) (p : Place) :
    List Char → Except Error (List Char × Cursor)
  | '%' :: a :: b :: rest =>
    match Text.hexValue? a, Text.hexValue? b with
    | some x, some y =>
      uriFrom read ((x * 16 + y) :: bytes) ⟨p.index + 3, p.line, p.column + 3⟩ rest
    | _, _ => .error .yaml
  | rest =>
    match decodeBytes bytes.reverse with
    | none => .error .yaml
    | some decoded =>
      let read := decoded.reverse ++ read
      match rest with
      | [] => .ok (read.reverse, ⟨p, []⟩)
      | c :: rest =>
        if isUriChar c then uriFrom (c :: read) [] (p.after c rest) rest
        else if c = '%' then .error .yaml
        else .ok (read.reverse, ⟨p, c :: rest⟩)

/-- Reads the URI of a tag, which is not empty. -/
def readUri (c : Cursor) : Except Error (String × Cursor) := do
  let first := c.rest.head?
  if first.any isUriChar || first == some '%' then
    let (uri, c) ← uriFrom [] [] c.place c.rest
    return (String.ofList uri, c)
  else throw .yaml

/-- Reads the handle of a shorthand: an exclamation mark, or two around a word. -/
def readHandle (c : Cursor) : Except Error (String × Cursor) :=
  match c.rest with
  | '!' :: rest =>
    if rest.head? = some ' ' then .ok ("!", c.skip 1)
    else
      let word := rest.takeWhile isWordChar
      match rest.drop word.length with
      | '!' :: _ => .ok (String.ofList ('!' :: word ++ ['!']), c.skip (word.length + 2))
      | _ => .error .yaml
  | _ => .error .yaml

/-- Whether a second exclamation mark stands before the next gap. -/
def hasHandle (rest : List Char) : Bool :=
  (rest.takeWhile fun c => c != ' ' && !isBreak c).contains '!'

/-- Reads a tag whose exclamation mark is next. -/
def readTag (c : Cursor) : Except Error (TagText × Cursor) := do
  let (text, c) ← match c.rest.drop 1 with
    | '<' :: _ => do
      let (uri, c) ← readUri (c.skip 2)
      if c.rest.head? != some '>' then throw .yaml
      pure ((⟨none, uri⟩ : TagText), c.skip 1)
    | rest => do
      if spaceAhead rest then pure (⟨none, "!"⟩, c.skip 1)
      else if hasHandle rest then
        let (handle, c) ← readHandle c
        let (uri, c) ← readUri c
        pure (⟨some handle, uri⟩, c)
      else
        let (uri, c) ← readUri (c.skip 1)
        pure (⟨some "!", uri⟩, c)
  if gapAhead c.rest then return (text, c) else throw .yaml

/-! ## Directives -/

/-- Reads a number of a version. -/
def readNumber (c : Cursor) : Except Error (Int × Cursor) := do
  let (digits, c) := readWhile Char.isDigit c
  if digits.isEmpty then throw .yaml
  return (← Numeral.int 10 digits, c)

/-- Reads a directive whose percent sign is next. -/
def readDirective (c : Cursor) : Except Error (Token × Cursor) := do
  let (name, c) ← readWord (c.skip 1)
  if !gapAhead c.rest then throw .yaml
  let spaces (c : Cursor) := c.skipWhile (· == ' ')
  let (token, c) ← match name with
    | "YAML" => do
      let (major, c) ← readNumber (spaces c)
      if c.rest.head? != some '.' then throw .yaml
      let (_, c) ← readNumber (c.skip 1)
      if !gapAhead c.rest then throw .yaml
      pure (.versionDirective major, c)
    | "TAG" => do
      let (handle, c) ← readHandle (spaces c)
      if c.rest.head? != some ' ' then throw .yaml
      let (uri, c) ← readUri (spaces c)
      if !gapAhead c.rest then throw .yaml
      pure (.tagDirective handle uri, c)
    | _ => pure (.otherDirective, c.skipWhile (!isBreak ·))
  match c.skipLine? with
  | some c => return (token, c)
  | none => throw .yaml

end Token

/-! ## Keys -/

/-- Something that may turn out to be a key, with the number of the tokens before it. -/
structure PossibleKey where
  number : Nat
  place : Place
  /-- Nothing but a key can stand there. -/
  required : Bool
  deriving Repr

namespace PossibleKey

/-- A key without a question mark stands on one line and is not longer than this. -/
def maxLength : Nat := 1024

/-- Whether a colon at a place can still make it a key. -/
def isCurrent (key : PossibleKey) (p : Place) : Bool :=
  key.place.line == p.line && p.index - key.place.index ≤ maxLength

end PossibleKey

/-! ## Reading tokens -/

/-- How far a text has been read. -/
structure Lexer where
  cursor : Cursor
  /-- The tokens that were read, the last one first. -/
  tokens : List Token := []
  /-- The number of those tokens. -/
  count : Nat := 0
  /-- The column of the innermost collection that its indentation shows, -1 outside of all. -/
  indent : Int := -1
  /-- The columns of the collections around it. -/
  outer : List Int := []
  /-- A key without a question mark may begin here. -/
  keyAllowed : Bool := true
  /-- For each open brace or bracket, the innermost first, and for the text around them: what may
  turn out to be a key. -/
  keys : List (Option PossibleKey) := [none]
  deriving Repr

namespace Lexer

/-- Whether a brace or a bracket is open. -/
def inFlow (l : Lexer) : Bool := 1 < l.keys.length

/-- Adds a token. -/
def push (l : Lexer) (t : Token) : Lexer :=
  { l with tokens := t :: l.tokens, count := l.count + 1 }

/-- Adds a token before those from a number on. -/
def insertAt (l : Lexer) (number : Nat) (t : Token) : Lexer :=
  let later := l.count - number
  { l with
    tokens := l.tokens.take later ++ t :: l.tokens.drop later
    count := l.count + 1 }

/-- Passes a number of characters. -/
def skip (l : Lexer) (count : Nat) : Lexer := { l with cursor := l.cursor.skip count }

/-- Sets whether a key may begin here. -/
def allowKey (l : Lexer) (allowed : Bool) : Lexer := { l with keyAllowed := allowed }

/-- Ends the collections that are indented by more than a column. -/
def unwindFrom (column : Int) (l : Lexer) : List Int → Lexer
  | [] => l
  | previous :: outer =>
    if column < l.indent then
      unwindFrom column { l.push .blockEnd with indent := previous, outer } outer
    else l

/-- Ends the collections that are indented by more than a column. In braces and brackets
indentation does not matter. -/
def unwind (l : Lexer) (column : Int) : Lexer :=
  if l.inFlow then l else unwindFrom column l l.outer

/-- Begins a collection at a column, if that lies within the innermost one. Tells if it does. -/
def nest (l : Lexer) (column : Nat) : Bool × Lexer :=
  if l.indent < column then (true, { l with indent := column, outer := l.indent :: l.outer })
  else (false, l)

/-- What may turn out to be a key where the lexer is. -/
def possibleKey (l : Lexer) : Option PossibleKey := (l.keys.head?).join

/-- Sets what may turn out to be a key. -/
def setKey (l : Lexer) (key : Option PossibleKey) : Lexer := { l with keys := key :: l.keys.drop 1 }

/-- Gives up a possible key, unless nothing else can stand there. -/
def dropKey (l : Lexer) : Except Error Lexer :=
  if l.possibleKey.any (·.required) then .error .yaml else .ok (l.setKey none)

/-- Notes that what comes next may turn out to be a key. -/
def noteKey (l : Lexer) : Except Error Lexer := do
  if l.keyAllowed then
    let required := !l.inFlow && l.indent == l.cursor.place.column
    return (← l.dropKey).setKey (some ⟨l.count, l.cursor.place, required⟩)
  else return l

/-- Gives up the possible keys that are too far behind, unless nothing else can stand there. -/
def dropStaleKeys (l : Lexer) : Except Error Lexer :=
  let isStale (key : PossibleKey) := !key.isCurrent l.cursor.place
  if l.keys.any (·.any fun key => isStale key && key.required) then .error .yaml
  else .ok { l with keys := l.keys.map (·.filter (!isStale ·)) }

/-- Passes blanks and comments up to the next token. Tells if a line was ended. -/
def gapFrom (comment ended : Bool) (p : Place) : List Char → Bool × Cursor
  | [] => (ended, ⟨p, []⟩)
  | c :: rest =>
    let next := p.after c rest
    if joinsNext c rest then gapFrom comment ended next rest
    else if isBreak c then gapFrom false true next rest
    else if comment || c == ' ' then gapFrom comment ended next rest
    else if c == '#' then gapFrom true ended next rest
    else (ended, ⟨p, c :: rest⟩)

/-- Passes blanks and comments up to the next token. Outside of braces and brackets a key may
begin on a new line. A byte order mark may begin the text. -/
def skipGap (l : Lexer) : Lexer :=
  let c := l.cursor
  let c := if c.place.index == 0 && c.rest.head? == some '\uFEFF' then c.skip 1 else c
  let (ended, c) := gapFrom false false c.place c.rest
  { l with cursor := c, keyAllowed := l.keyAllowed || (ended && !l.inFlow) }

/-- Reads something that may turn out to be a key, but in which no key begins. -/
def readNode (l : Lexer) (read : Cursor → Except Error (Token × Cursor)) : Except Error Lexer := do
  let l ← l.noteKey
  let (token, cursor) ← read l.cursor
  return { l.push token with cursor, keyAllowed := false }

/-- Reads a mark between documents or a directive. -/
def readBetween (l : Lexer) (read : Cursor → Except Error (Token × Cursor)) :
    Except Error Lexer := do
  let l ← (l.unwind (-1)).dropKey
  let (token, cursor) ← read l.cursor
  return { l.push token with cursor, keyAllowed := false }

/-- Opens a brace or a bracket. -/
def openFlow (l : Lexer) (token : Token) : Except Error Lexer := do
  let l ← l.noteKey
  return ({ l with keys := none :: l.keys, keyAllowed := true }.push token).skip 1

/-- Closes a brace or a bracket. -/
def closeFlow (l : Lexer) (token : Token) : Except Error Lexer := do
  if l.inFlow then
    let l ← l.dropKey
    return ({ l with keys := l.keys.drop 1, keyAllowed := false }.push token).skip 1
  else throw .yaml

/-- Outside of braces and brackets, begins the collection that an indicator is part of. -/
def beginBlock (l : Lexer) (token : Token) : Except Error Lexer :=
  if l.inFlow then .ok l
  else if l.keyAllowed then
    let (deeper, l) := l.nest l.cursor.place.column
    .ok (if deeper then l.push token else l)
  else .error .yaml

/-- Reads a comma between items. -/
def readFlowEntry (l : Lexer) : Except Error Lexer := do
  return ((← (l.allowKey true).dropKey).push .flowEntry).skip 1

/-- Reads the indicator of an item. -/
def readBlockEntry (l : Lexer) : Except Error Lexer := do
  let l ← l.beginBlock .blockSequenceStart
  return ((← (l.allowKey true).dropKey).push .blockEntry).skip 1

/-- Reads the indicator of a key. -/
def readKey (l : Lexer) : Except Error Lexer := do
  let l ← l.beginBlock .blockMappingStart
  return ((← (l.allowKey (!l.inFlow)).dropKey).push .key).skip 1

/-- Reads the colon of a value. What stood before it was the key, if it can have been one. -/
def readValue (l : Lexer) : Except Error Lexer := do
  match l.possibleKey with
  | some key =>
    let l := (l.setKey none).insertAt key.number .key
    let (deeper, l) := if l.inFlow then (false, l) else l.nest key.place.column
    let l := if deeper then l.insertAt key.number .blockMappingStart else l
    return ((l.allowKey false).push .value).skip 1
  | none =>
    let l ← l.beginBlock .blockMappingStart
    return ((← (l.allowKey (!l.inFlow)).dropKey).push .value).skip 1

/-- Reads a block scalar. -/
def readBlock (l : Lexer) (fold : Bool) : Except Error Lexer := do
  let l ← (l.allowKey true).dropKey
  let lexeme ← Lexeme.block fold l.indent l.cursor
  return { l.push (.scalar lexeme.text false) with cursor := lexeme.cursor }

/-- Reads a scalar without quotes. -/
def readPlain (l : Lexer) : Except Error Lexer := do
  let l ← l.noteKey
  let lexeme := Lexeme.plain l.inFlow (l.indent + 1) l.cursor
  return { l.push (.scalar lexeme.text true) with
    cursor := lexeme.cursor, keyAllowed := lexeme.brokeLine }

/-- Whether a scalar without quotes may begin with these characters. -/
def beginsPlain (flow : Bool) (c : Char) (rest : List Char) : Bool :=
  !(isSpace c || "-?:,[]\x7b\x7d#&*!|>'\"%@`".toList.contains c)
    || (!spaceAhead rest && (c == '-' || (!flow && (c == '?' || c == ':'))))

/-- Reads the token that begins with these characters, outside of blanks and comments. -/
def readToken (l : Lexer) (c : Char) (rest : List Char) : Except Error Lexer :=
  let atLineStart := l.cursor.place.column == 0
  let quoted (double : Bool) (cursor : Cursor) : Except Error (Token × Cursor) := do
    let lexeme ← Lexeme.quoted double cursor
    return (.scalar lexeme.text false, lexeme.cursor)
  if c = '%' ∧ atLineStart then l.readBetween Token.readDirective
  else if atLineStart ∧ documentMark (c :: rest) then
    l.readBetween fun cursor =>
      .ok (if c = '-' then .documentStart else .documentEnd, cursor.skip 3)
  else if c = '[' then l.openFlow .flowSequenceStart
  else if c = '\x7b' then l.openFlow .flowMappingStart
  else if c = ']' then l.closeFlow .flowSequenceEnd
  else if c = '\x7d' then l.closeFlow .flowMappingEnd
  else if c = ',' then l.readFlowEntry
  else if c = '-' ∧ spaceAhead rest then l.readBlockEntry
  else if c = '?' ∧ (l.inFlow ∨ spaceAhead rest) then l.readKey
  else if c = ':' ∧ (l.inFlow ∨ spaceAhead rest) then l.readValue
  else if c = '*' then
    l.readNode fun cursor => do
      let (name, cursor) ← Token.readAnchor cursor
      return (.alias name, cursor)
  else if c = '&' then
    l.readNode fun cursor => do
      let (name, cursor) ← Token.readAnchor cursor
      return (.anchor name, cursor)
  else if c = '!' then
    l.readNode fun cursor => do
      let (text, cursor) ← Token.readTag cursor
      return (.tag text, cursor)
  else if c = '|' ∧ !l.inFlow then l.readBlock false
  else if c = '>' ∧ !l.inFlow then l.readBlock true
  else if c = '\'' then l.readNode (quoted false)
  else if c = '"' then l.readNode (quoted true)
  else if beginsPlain l.inFlow c rest then l.readPlain
  else .error .yaml

/-- Ends the text. -/
def finish (l : Lexer) : Except Error Lexer := do
  return (← (l.unwind (-1)).dropKey).push .streamEnd

/-- The tokens that stand in front of all that may still turn out to be a key, the last one
first. -/
def settled (l : Lexer) : List Token :=
  let current := (l.keys.filterMap id).filter (·.isCurrent l.cursor.place)
  l.tokens.drop (l.count - current.foldl (fun n key => min n key.number) l.count)

/-- Reads the rest of a text. Every token takes a character, so as many steps as there are
characters are enough. Gives the tokens, the last one first, and the error that reading ended
with. What may turn out to be a key is no token before that is known, so an error that comes
first hides it. -/
def readFrom : (steps : Nat) → Lexer → List Token × Option Error
  | 0, l => (l.settled, some .yaml)
  | steps + 1, l =>
    match l.skipGap.dropStaleKeys with
    | .error e => (l.settled, some e)
    | .ok next =>
      let next := next.unwind next.cursor.place.column
      match next.cursor.rest with
      | [] => match next.finish with
        | .ok next => (next.tokens, none)
        | .error e => (l.settled, some e)
      | c :: rest => match next.readToken c rest with
        | .ok next => readFrom steps next
        | .error e => (l.settled, some e)

end Lexer

/-- The tokens of a text, and the error that ends them if they do not end with the stream. -/
def tokensOf (text : List Char) : List Token × Option Error :=
  let (tokens, error) :=
    Lexer.readFrom (text.length + 1) { cursor := Cursor.start text }
  (tokens.reverse, error)

end ApiManifest.Yaml
