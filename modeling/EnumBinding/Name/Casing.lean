import EnumBinding.Name.Word

/-!
# Go names

A Go name runs the words of a C name together, each capitalized. A closing acronym keeps its spelling,
and when a name of at least three words closes with two acronyms, both keep their spelling and stay apart:
`heif_chroma_interleaved_RRGGBB_BE` becomes `ChromaInterleavedRRGGBB_BE`. The names of constants lose a
last word that repeats the first, and then write a last `Ok` as `OK`; the names of types do neither.
-/

namespace EnumBinding.Name

def Word.close (word : Word) : Word := if word.isAcronym then word else word.capitalize

/-- Capitalizes the words of a name, given last word first. -/
def casedReversed : List Word → List Word
  | last :: second :: first :: rest =>
    if last.isAcronym && second.isAcronym then
      (second ++ '_' :: last) :: (first :: rest).map Word.capitalize
    else
      last.close :: (second :: first :: rest).map Word.capitalize
  | last :: init => last.close :: init.map Word.capitalize
  | [] => []

def cased (words : List Word) : List Word := (casedReversed words.reverse).reverse

/-- Drops a last word that equals the first of at least two. -/
def dropRepeat (words : List Word) : List Word :=
  if 2 ≤ words.length ∧ words.head? = words.getLast? then words.dropLast else words

def closeOk (words : List Word) : List Word :=
  if words.getLast? = some "Ok".toList then words.dropLast ++ ["OK".toList] else words

def goWords (name : List Char) : List Word := cased (words (stripLibrary name))

def ofType (name : String) : String := String.ofList (goWords name.toList).flatten

def ofConstant (name : String) : String :=
  String.ofList (closeOk (dropRepeat (goWords name.toList))).flatten

end EnumBinding.Name
