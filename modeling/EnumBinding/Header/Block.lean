import EnumBinding.Text.Blank
import EnumBinding.Text.Bytes
import EnumBinding.Text.Match

/-!
# The block of an enum

A definition of an enum begins a line with `enum NAME`, opens a brace after any blanks, and runs to the
first closing brace, which a semicolon and the end of the line must follow at once. Braces do not nest.
A name may be of any length: that a search engine refuses a pattern past some size of its own is left aside.
-/

namespace EnumBinding.Header

/-- The offsets of one definition. `first` to `last` covers it together with the line ends before and
after it; the members begin at the first character after the opening brace that is not blank. -/
structure Block where
  first : Nat
  last : Nat
  openBrace : Nat
  closeBrace : Nat
  membersStart : Nat
deriving DecidableEq, Repr

namespace Block

/-- The parts of a definition between its keyword and the end of its line. -/
structure Parts where
  beforeBrace : List Char
  afterBrace : List Char
  /-- From the first character that is not blank up to the closing brace. -/
  body : List Char
deriving DecidableEq, Repr

def opening (name : List Char) : List Char := "\nenum ".toList ++ name

def closing : List Char := "\x7d;\n".toList

def parts? (name : List Char) (cs : List Char) : Option Parts :=
  match Text.after? (opening name) cs with
  | none => none
  | some named =>
    match named.dropWhile Text.isBlank with
    | '{' :: inside =>
      let members := inside.dropWhile Text.isBlank
      -- Only the first closing brace counts: if no semicolon follows it, this is no definition.
      match Text.after? closing (members.dropWhile (· != '\x7d')) with
      | some _ =>
        some {
          beforeBrace := named.takeWhile Text.isBlank
          afterBrace := inside.takeWhile Text.isBlank
          body := members.takeWhile (· != '\x7d') }
      | none => none
    | _ => none

def ofParts (name : List Char) (first : Nat) (parts : Parts) : Block :=
  let openBrace := first + Text.width (opening name) + Text.width parts.beforeBrace
  let membersStart := openBrace + 1 + Text.width parts.afterBrace
  let closeBrace := membersStart + Text.width parts.body
  { first, openBrace, membersStart, closeBrace, last := closeBrace + Text.width closing }

/-- The first definition of `name` in a text that begins at byte `offset`. -/
def find? (name : List Char) (offset : Nat) : List Char → Option Block
  | [] => none
  | c :: cs =>
    match parts? name (c :: cs) with
    | some parts => some (ofParts name offset parts)
    | none => find? name (offset + c.utf8Size) cs

def text? (block : Block) (header : List Char) : Option (List Char) :=
  Text.slice? block.first block.last header

def braced? (block : Block) (header : List Char) : Option (List Char) :=
  Text.slice? block.openBrace (block.closeBrace + 1) header

end Block

def locate? (header : String) (name : String) : Option Block :=
  Block.find? name.toList 0 header.toList

end EnumBinding.Header
