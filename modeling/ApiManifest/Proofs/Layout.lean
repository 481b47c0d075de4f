import ApiManifest.Yaml.Load

/-!
# Layouts of YAML texts

What a text is meant to say, and how it is laid out. Two forms are told apart, since only the one
depends on indentation. A flow is a scalar, a list in brackets or a mapping in braces. A layout is a
flow behind a colon, or fields on lines of their own, each of which has a layout again.

A layout has its text, its tokens and the tree that it stands for. Lexing takes the text to the
tokens, parsing and construction take the tokens to the tree.
-/

namespace ApiManifest.Yaml

/-- What a scalar with a tag stands for. -/
def scalarOf (tag : Tag) (text : String) : Except Error Scalar :=
  match tag with
  | .null => .ok .null
  | .bool => .bool <$> ScalarValue.readBool text
  | .int => .int <$> ScalarValue.readInt text
  | .float => .float <$> ScalarValue.readFloat text
  | .str => .ok (.text text)
  | .binary => .bytes <$> ScalarValue.readBinary text
  | _ => .error .yaml

/-- A scalar as it is written, and what it stands for. -/
structure Literal where
  text : String
  isPlain : Bool
  value : Scalar
  stands : scalarOf (Parse.scalarTag none isPlain text) text = .ok value

/-- A text between quotes. -/
def Literal.quoted (s : String) : Literal := ⟨s, false, .text s, rfl⟩

/-! ## Flows -/

/-- What can stand on one line. -/
inductive Flow where
  | scalar (literal : Literal)
  | items (items : List Flow)
  | braces (entries : List (String × Flow))

namespace Flow

mutual

/-- The tokens of a flow. -/
def tokens : Flow → List Token
  | scalar literal => [.scalar literal.text literal.isPlain]
  | items xs => .flowSequenceStart :: itemTokens true xs
  | braces entries => .flowMappingStart :: entryTokens true entries

/-- The tokens of items, up to the closing bracket. A comma parts an item from the one before. -/
def itemTokens (first : Bool) : List Flow → List Token
  | [] => [.flowSequenceEnd]
  | x :: rest => (if first then [] else [.flowEntry]) ++ x.tokens ++ itemTokens false rest

/-- The tokens of entries with quoted keys, up to the closing brace. -/
def entryTokens (first : Bool) : List (String × Flow) → List Token
  | [] => [.flowMappingEnd]
  | (key, x) :: rest =>
    (if first then [] else [.flowEntry]) ++ .key :: .scalar key false :: .value :: x.tokens
      ++ entryTokens false rest

end

mutual

/-- The tree that a flow stands for. -/
def tree : Flow → Tree
  | scalar literal => .scalar literal.value
  | items xs => .list (trees xs)
  | braces entries => .map (entryTrees entries)

/-- The trees of items. -/
def trees : List Flow → List Tree
  | [] => []
  | x :: rest => x.tree :: trees rest

/-- The trees of entries. -/
def entryTrees : List (String × Flow) → Entries
  | [] => []
  | (key, x) :: rest => (.text key, x.tree) :: entryTrees rest

end

mutual

/-- No mapping has a key twice. -/
def Distinct : Flow → Prop
  | scalar _ => True
  | items xs => AllDistinct xs
  | braces entries => (entries.map Prod.fst).Nodup ∧ EntriesDistinct entries

/-- No mapping in some items has a key twice. -/
def AllDistinct : List Flow → Prop
  | [] => True
  | x :: rest => x.Distinct ∧ AllDistinct rest

/-- No mapping in some entries has a key twice. -/
def EntriesDistinct : List (String × Flow) → Prop
  | [] => True
  | (_, x) :: rest => x.Distinct ∧ EntriesDistinct rest

end

end Flow

/-! ## Layouts -/

/-- A word without quotes that can name a field: it shows no value of another type, and its colon is
not too far from where it begins. -/
def isFieldName (text : String) : Bool :=
  text != "" && text.toList.all Char.isAlpha && text.toList.length ≤ PossibleKey.maxLength
    && Tag.shownBy text == .str

/-- The name of a field. -/
structure FieldName where
  text : String
  isName : isFieldName text

namespace FieldName

variable (name : FieldName)

theorem ne_nil : name.text.toList ≠ [] := by
  have := name.isName
  simp only [isFieldName, Bool.and_eq_true, bne_iff_ne, ne_eq, ← String.toList_eq_nil_iff] at this
  exact this.1.1.1

theorem isAlpha : name.text.toList.all Char.isAlpha := by
  have := name.isName
  simp only [isFieldName, Bool.and_eq_true] at this
  exact this.1.1.2

theorem length_le : name.text.toList.length ≤ PossibleKey.maxLength := by
  have := name.isName
  simp only [isFieldName, Bool.and_eq_true, decide_eq_true_eq] at this
  exact this.1.2

theorem shownBy : Tag.shownBy name.text = .str := by
  have := name.isName
  simp only [isFieldName, Bool.and_eq_true, beq_iff_eq] at this
  exact this.2

end FieldName

mutual

/-- What stands behind a colon: a flow with its characters, or fields that are indented. -/
inductive Layout where
  | flow (chars : List Char) (value : Flow)
  | block (fields : Block)

/-- Fields, of which there is at least one. -/
inductive Block where
  | last (name : FieldName) (value : Layout)
  | field (name : FieldName) (value : Layout) (rest : Block)

end

/-- The names of fields. -/
def Block.names : Block → List String
  | last name _ => [name.text]
  | field name _ rest => name.text :: rest.names

/-- The columns by which fields are indented. -/
def Layout.step : Nat := 2

mutual

/-- What stands behind the colon of a field at a column. -/
def Layout.text (column : Nat) : Layout → List Char
  | .flow chars _ => ' ' :: chars
  | .block fields =>
    '\n' :: List.replicate (column + Layout.step) ' ' ++ fields.text (column + Layout.step)

/-- Fields from the name of the first one on, which begins at a column. -/
def Block.text (column : Nat) : Block → List Char
  | .last name value => name.text.toList ++ ':' :: value.text column
  | .field name value rest =>
    name.text.toList ++ ':' :: value.text column
      ++ '\n' :: List.replicate column ' ' ++ rest.text column

end

mutual

/-- The tokens of a layout. -/
def Layout.tokens : Layout → List Token
  | .flow _ value => value.tokens
  | .block fields => .blockMappingStart :: fields.tokens ++ [.blockEnd]

/-- The tokens of fields. -/
def Block.tokens : Block → List Token
  | .last name value => .key :: .scalar name.text true :: .value :: value.tokens
  | .field name value rest =>
    .key :: .scalar name.text true :: .value :: value.tokens ++ rest.tokens

end

mutual

/-- The tree that a layout stands for. -/
def Layout.tree : Layout → Tree
  | .flow _ value => value.tree
  | .block fields => .map fields.trees

/-- The entries that fields stand for. -/
def Block.trees : Block → Entries
  | .last name value => [(.text name.text, value.tree)]
  | .field name value rest => (.text name.text, value.tree) :: rest.trees

end

mutual

/-- No mapping has a key twice. -/
def Layout.Distinct : Layout → Prop
  | .flow _ value => value.Distinct
  | .block fields => fields.names.Nodup ∧ fields.Distinct

/-- No mapping among the values of fields has a key twice. -/
def Block.Distinct : Block → Prop
  | .last _ value => value.Distinct
  | .field _ value rest => value.Distinct ∧ rest.Distinct

end

end ApiManifest.Yaml
