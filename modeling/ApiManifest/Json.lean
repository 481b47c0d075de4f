import ApiManifest.Data.Display
import ApiManifest.Data.Store
import ApiManifest.Text.Digit

/-!
# JSON texts

Values as JSON: a document over several lines, or a value on one line with sorted keys. Only
texts, numbers, truth values, null, lists and mappings have a form, and of keys only the first
four, which become texts.
-/

namespace ApiManifest.Json

/-- Floating-point numbers as they are written. -/
def floatLayout : Binary64.Layout := ⟨-3, 16, "NaN", "Infinity"⟩

/-- A character between quotes. -/
def quotedChar (c : Char) : List Char :=
  if c = '"' then ['\\', '"']
  else if c = '\\' then ['\\', '\\']
  else if c = '\n' then ['\\', 'n']
  else if c = '\r' then ['\\', 'r']
  else if c = '\t' then ['\\', 't']
  else if c = '\x08' then ['\\', 'b']
  else if c = '\x0c' then ['\\', 'f']
  else if c.toNat < 0x20 then '\\' :: 'u' :: Text.hexPadded c.toNat 4
  else [c]

/-- A text between quotes. -/
def quoted (s : String) : String := String.ofList ('"' :: s.toList.flatMap quotedChar ++ ['"'])

/-- A scalar that has a form, without quotes. -/
def bare : Scalar → Except Error String
  | .null => .ok "null"
  | .bool b => .ok (if b then "true" else "false")
  | .int n => decimalText n
  | .float x => .ok (x.text floatLayout)
  | .text s => .ok s
  | .bytes _ => .error .unserializable

/-- A scalar. -/
def scalar (s : Scalar) : Except Error String :=
  match s with
  | .text s => .ok (quoted s)
  | s => bare s

/-- A key. -/
def key : Tree → Except Error String
  | .scalar s => return quoted (← bare s)
  | _ => .error .unserializable

/-! ## Documents -/

/-- Columns of a level. -/
def step : Nat := 4

/-- A new line at a level. -/
def newline (level : Nat) : String := String.ofList ('\n' :: List.replicate (step * level) ' ')

/-- Items inside brackets or braces, each on a line of its own. -/
def enclosed (opening closing : String) (level : Nat) (items : List String) : String :=
  if items.isEmpty then opening ++ closing
  else
    opening ++ newline (level + 1) ++ ("," ++ newline (level + 1)).intercalate items
      ++ newline level ++ closing

/-- A key of an object's mapping. -/
def objectKey : Value → Except Error String
  | .scalar s => return quoted (← bare s)
  | .ref _ => .error .unserializable

/-- A value at a level, down to a depth. Lists and mappings are gone through in order, and the first
part without a form is the one that counts. -/
def pretty (st : Store) : (depth : Nat) → (level : Nat) → Value → Except Error String
  | _, _, .scalar s => scalar s
  | 0, _, .ref _ => .error .circular
  | depth + 1, level, .ref id => match st.cells[id]? with
    | none => scalar .null
    | some (.list items) | some (.tuple items) => do
      return enclosed "[" "]" level (← items.mapM (pretty st depth (level + 1)))
    | some (.map entries) => do
      let parts ← entries.mapM fun (k, v) => do
        let name ← objectKey k
        let value ← pretty st depth (level + 1) v
        return name ++ ": " ++ value
      return enclosed "\x7b" "\x7d" level parts
    | some (.date _) | some (.dateTime _) | some (.set _) => .error .unserializable

/-- The text of a document. No chain of objects that ends is longer than the store. -/
def document (st : Store) (v : Value) : Except Error String := do
  return (← pretty st (st.cells.size + 1) 0 v) ++ "\n"

/-! ## Values on one line -/

/-- Whether a key comes before another one. Texts are ordered by their characters, numbers by
value. -/
def keyLess : Tree → Tree → Bool
  | .scalar (.text a), .scalar (.text b) => a < b
  | .scalar (.float a), .scalar (.float b) => a.less b
  | .scalar (.float a), .scalar b => b.int?.any fun n => a.compareInt? n == some .lt
  | .scalar a, .scalar (.float b) => a.int?.any fun n => b.compareInt? n == some .gt
  | .scalar a, .scalar b => match a.int?, b.int? with
    | some m, some n => m < n
    | _, _ => false
  | _, _ => false

/-- Whether a key is a text. -/
def isTextKey : Tree → Bool
  | .scalar (.text _) => true
  | _ => false

/-- Whether a key is a number or a truth value. -/
def isNumberKey : Tree → Bool
  | .scalar (.bool _) | .scalar (.int _) | .scalar (.float _) => true
  | _ => false

/-- Puts an entry before the first one with a greater key. -/
def insertSorted (entry : Tree × String) : List (Tree × String) → List (Tree × String)
  | [] => [entry]
  | other :: rest =>
    if keyLess entry.1 other.1 then entry :: other :: rest else other :: insertSorted entry rest

/-- Whether keys can be sorted: they are all texts or all numbers, or there is at most one. -/
def sortable (keys : List Tree) : Bool :=
  keys.length ≤ 1 || keys.all isTextKey || keys.all isNumberKey

mutual

/-- A value on one line. -/
def inline : Tree → Except Error String
  | .scalar s => scalar s
  | .list items | .tuple items => return "[" ++ ", ".intercalate (← inlineItems items) ++ "]"
  | .map entries => do
    if !sortable (entries.map Prod.fst) then throw .unsortable
    let parts ← inlineEntries entries
    let sorted := parts.foldl (fun sorted part => insertSorted part sorted) []
    return "\x7b" ++ ", ".intercalate (sorted.map Prod.snd) ++ "\x7d"
  | .date _ | .dateTime _ | .set _ => .error .unserializable

/-- The items of a list. -/
def inlineItems : List Tree → Except Error (List String)
  | [] => .ok []
  | x :: rest => do
    let item ← inline x
    return item :: (← inlineItems rest)

/-- The entries of a mapping by key. -/
def inlineEntries : List (Tree × Tree) → Except Error (List (Tree × String))
  | [] => .ok []
  | (k, x) :: rest => do
    let name ← key k
    let value ← inline x
    return (k, name ++ ": " ++ value) :: (← inlineEntries rest)

end

end ApiManifest.Json
