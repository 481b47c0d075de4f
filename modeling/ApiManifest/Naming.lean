import ApiManifest.Text.Case
import ApiManifest.Text.Digit
import ApiManifest.Text.Split

/-!
# Names

Resources and fields are named as their author likes: `roaming_device`, `roamingDevice`,
`roaming-device`. The words of a name are the same in every spelling, and what is written about a
resource is built from its words.
-/

namespace ApiManifest.Naming

/-- A capital letter of ASCII. -/
def isCapital (c : Char) : Bool := 'A' ≤ c && c ≤ 'Z'

/-- A small letter of ASCII. -/
def isSmall (c : Char) : Bool := 'a' ≤ c && c ≤ 'z'

/-- Parts an acronym from the word behind it: the last of several capitals begins a word if a
small letter follows. -/
def partAcronyms : List Char → List Char
  | a :: b :: c :: rest =>
    if isCapital a && isCapital b && isSmall c then a :: '_' :: partAcronyms (b :: c :: rest)
    else a :: partAcronyms (b :: c :: rest)
  | cs => cs

/-- Parts words where a capital follows a small letter or a digit. -/
def partCapitals : List Char → List Char
  | a :: b :: rest =>
    if (isSmall a || Text.isDigit a) && isCapital b then a :: '_' :: partCapitals (b :: rest)
    else a :: partCapitals (b :: rest)
  | cs => cs

/-- A character that separates words by itself. -/
def isSeparator (c : Char) : Bool := c == '-' || Text.isBlank c

/-- Writes each run of separators as one underscore. `inside` tells that a run has begun. -/
def joinSeparators (inside : Bool) : List Char → List Char
  | [] => []
  | c :: rest =>
    if isSeparator c then
      if inside then joinSeparators true rest else '_' :: joinSeparators true rest
    else c :: joinSeparators false rest

/-- The name in lower case with underscores between its words. -/
def snakeCase (name : String) : String :=
  Text.lower (String.ofList (joinSeparators false (partCapitals (partAcronyms name.toList))))

/-- The words of a name, in lower case. -/
def words (name : String) : List (List Char) := Text.pieces '_' (snakeCase name).toList

/-- The words with spaces between them: `project id`. -/
def phrase (name : String) : String := String.ofList (Text.joinWith ' ' (words name))

/-- The words with spaces between them, each with a capital: `Roaming Device`. -/
def title (name : String) : String :=
  String.ofList (Text.joinWith ' ' ((words name).map Text.capitalize))

/-- The words run together, each with a capital: `RoamingDevice`. -/
def pascalCase (name : String) : String := String.ofList ((words name).flatMap Text.capitalize)

end ApiManifest.Naming
