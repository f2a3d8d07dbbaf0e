/-!
# Places in a YAML text

The characters that YAML tells apart, and the place up to which a text has been read. The column decides
the nesting of blocks, and the line and the index how far a key may reach, so all three are kept.
-/

namespace EnumBinding.Yaml

def isAllowed (c : Char) : Bool :=
  c == '\t' || c == '\n' || c == '\r' || ('\x20' ≤ c && c ≤ '\x7e') || c == '\u0085' ||
    ('\u00a0' ≤ c && c ≤ '\ufffd') || 0x10000 ≤ c.toNat

def isBreak (c : Char) : Bool :=
  c == '\n' || c == '\r' || c == '\u0085' || c == '\u2028' || c == '\u2029'

def isWhite (c : Char) : Bool := c == ' ' || c == '\t'

def isWordChar (c : Char) : Bool := c.isAlphanum || c == '_' || c == '-'

/-- A line break as it counts in a scalar: the two Unicode separators stay, all others are line feeds. -/
def normalBreak (c : Char) : Char := if c == '\u2028' || c == '\u2029' then c else '\n'

def standsAlone : List Char → Bool
  | [] => true
  | c :: _ => isWhite c || isBreak c

structure Cursor where
  rest : List Char
  index : Nat := 0
  line : Nat := 0
  column : Nat := 0
deriving Repr

namespace Cursor

def advance (cursor : Cursor) (count : Nat) (rest : List Char) : Cursor :=
  { cursor with rest, index := cursor.index + count, column := cursor.column + count }

def skip (cursor : Cursor) (count : Nat) : Cursor := cursor.advance count (cursor.rest.drop count)

/-- Moves over the longest run of characters of one kind, none of which breaks the line. -/
def skipWhile (cursor : Cursor) (kind : Char → Bool) : Cursor :=
  cursor.advance (cursor.rest.takeWhile kind).length (cursor.rest.dropWhile kind)

def nextLine (cursor : Cursor) (count : Nat) (rest : List Char) : Cursor where
  rest := rest
  index := cursor.index + count
  line := cursor.line + 1
  column := 0

/-- Moves over a line break, if there is one; a carriage return and a line feed are one break. -/
def readBreak? (cursor : Cursor) : Option (Char × Cursor) :=
  match cursor.rest with
  | '\r' :: '\n' :: rest => some ('\n', cursor.nextLine 2 rest)
  | c :: rest => if isBreak c then some (normalBreak c, cursor.nextLine 1 rest) else none
  | [] => none

def atEnd (cursor : Cursor) : Bool := cursor.rest.isEmpty

def atMark (cursor : Cursor) (mark : List Char) : Bool :=
  cursor.column == 0 && mark.isPrefixOf cursor.rest && standsAlone (cursor.rest.drop mark.length)

def atDocumentMark (cursor : Cursor) : Bool := cursor.atMark "---".toList || cursor.atMark "...".toList

def restOfLine? (cursor : Cursor) : Option Cursor :=
  let cursor := cursor.skipWhile isWhite
  let cursor := if cursor.rest.head? = some '#' then cursor.skipWhile (!isBreak ·) else cursor
  match cursor.readBreak? with
  | some (_, cursor) => some cursor
  | none => if cursor.atEnd then some cursor else none

end Cursor
end EnumBinding.Yaml
