import EnumBinding.Text.Match
import EnumBinding.Text.Upper

/-!
# Words of a name

A C identifier of the library is `heif_` followed by words joined with underscores. Consecutive or
trailing underscores give empty words, and the empty name has one empty word.
-/

namespace EnumBinding.Name

abbrev Word := List Char

def libraryPrefix : String := "heif_"

/-- The name without its library prefix, which is removed once only. -/
def stripLibrary (name : List Char) : List Char :=
  (Text.after? libraryPrefix.toList name).getD name

def words (name : List Char) : List Word := name.splitOn '_'

/-- A word with more than one ASCII capital: `AV1`, `RGB`, `YCbCr`. -/
def Word.isAcronym (word : Word) : Bool := 1 < word.countP Char.isUpper

def spellCodec : Word → Word
  | 'A' :: 'v' :: '1' :: rest => 'A' :: 'V' :: '1' :: spellCodec rest
  | c :: rest => c :: spellCodec rest
  | [] => []

/-- Puts the first character in upper case and leaves the rest alone, but for the spelling of `AV1`. -/
def Word.capitalize : Word → Word
  | [] => []
  | c :: rest => spellCodec (Text.upper c ++ rest)

@[simp] theorem Word.capitalize_nil : Word.capitalize [] = [] := rfl

theorem intercalate_words (name : List Char) : ['_'].intercalate (words name) = name :=
  List.intercalate_splitOn '_'

end EnumBinding.Name
