import EnumBinding.Yaml.Cursor
import EnumBinding.Yaml.Quoted
import EnumBinding.Yaml.Token

/-!
# Tags and directives

A tag is spelled out between angle brackets, or shortened to a handle and a suffix. Directives give the
version of a document and its handles. Tags are kept as bytes: an escape of two hexadecimal digits gives
one byte, and the escapes of one character must follow each other.
-/

namespace EnumBinding.Yaml

def isTagChar (c : Char) : Bool := isWordChar c || ";/?:@&=+$.!~*'()".toList.contains c

/-- The flow indicators that only a tag that is spelled out may hold. -/
def isSpelledTagChar (c : Char) : Bool := isTagChar c || c == ',' || c == '[' || c == ']'

namespace Tag

def length? (byte : Nat) : Option Nat :=
  if byte < 0x80 then some 1
  else if byte < 0xc0 then none
  else if byte < 0xe0 then some 2
  else if byte < 0xf0 then some 3
  else if byte < 0xf8 then some 4
  else none

def byte? : List Char → Option (Nat × List Char)
  | '%' :: high :: low :: cs => do return ((← Quoted.hexValue? high) * 16 + (← Quoted.hexValue? low), cs)
  | _ => none

def trailing? : Nat → List Char → Option (List Char × List Char)
  | 0, cs => some ([], cs)
  | count + 1, cs => do
    let (byte, cs) ← byte? cs
    if byte / 64 ≠ 2 then none
    let (bytes, cs) ← trailing? count cs
    return (Char.ofNat byte :: bytes, cs)

def escaped? (cs : List Char) : Option (List Char × List Char) := do
  let (byte, cs) ← byte? cs
  let (bytes, cs) ← trailing? ((← length? byte) - 1) cs
  return (Char.ofNat byte :: bytes, cs)

def text? (isChar : Char → Bool) : Nat → List Char → Option (List Char × List Char)
  | 0, cs => some ([], cs)
  | fuel + 1, cs =>
    match cs with
    | [] => some ([], [])
    | c :: rest =>
      if c = '%' then do
        let (bytes, rest) ← escaped? cs
        let (text, rest) ← text? isChar fuel rest
        return (bytes ++ text, rest)
      else if isChar c then do
        let (text, rest) ← text? isChar fuel rest
        return (c :: text, rest)
      else
        some ([], cs)

def nonempty? (isChar : Char → Bool) (cs : List Char) : Option (List Char × List Char) := do
  let (text, rest) ← text? isChar cs.length cs
  if text.isEmpty then none
  return (text, rest)

def handle? : List Char → Option (List Char × List Char)
  | '!' :: cs =>
    let word := cs.takeWhile isWordChar
    match cs.dropWhile isWordChar with
    | '!' :: rest => some ('!' :: word ++ ['!'], rest)
    | rest => some ('!' :: word, rest)
  | _ => none

/-- Whether a handle may stand before a suffix of its own; otherwise its word belongs to the suffix. -/
def isNamedHandle (handle : List Char) : Bool := 2 ≤ handle.length && handle.getLast? == some '!'

def name? : List Char → Option (TagName × List Char)
  | '!' :: '<' :: cs => do
    let (text, rest) ← nonempty? isSpelledTagChar cs
    match rest with
    | '>' :: rest => return (⟨[], text⟩, rest)
    | _ => none
  | cs => do
    let (handle, rest) ← handle? cs
    if isNamedHandle handle then
      let (suffix, rest) ← nonempty? isTagChar rest
      return (⟨handle, suffix⟩, rest)
    else
      let (text, rest) ← text? isTagChar rest.length rest
      match handle.drop 1 ++ text with
      | [] => return (⟨[], ['!']⟩, rest)
      | suffix => return (⟨['!'], suffix⟩, rest)

end Tag

def versionNumber? (cs : List Char) : Option (Nat × List Char) :=
  let digits := cs.takeWhile Char.isDigit
  if digits.isEmpty ∨ 9 < digits.length then
    none
  else
    some (digits.foldl (fun n c => n * 10 + (c.toNat - '0'.toNat)) 0, cs.dropWhile Char.isDigit)

def directiveValue? (name : List Char) (cs : List Char) : Option (Token × List Char) :=
  if name = "YAML".toList then do
    let (major, rest) ← versionNumber? (cs.dropWhile isWhite)
    match rest with
    | '.' :: rest =>
      let (minor, rest) ← versionNumber? rest
      return (.versionDirective major minor, rest)
    | _ => none
  else if name = "TAG".toList then do
    let (handle, rest) ← Tag.handle? (cs.dropWhile isWhite)
    if handle ≠ ['!'] ∧ !Tag.isNamedHandle handle then none
    if !(rest.head?.any isWhite) then none
    let (stem, rest) ← Tag.nonempty? isSpelledTagChar (rest.dropWhile isWhite)
    if !standsAlone rest then none
    return (.tagDirective handle stem, rest)
  else
    none

def Cursor.readDirective? (cursor : Cursor) : Option (Token × Cursor) := do
  let cs := cursor.rest.drop 1
  let name := cs.takeWhile isWordChar
  let behind := cs.dropWhile isWordChar
  if name.isEmpty ∨ !standsAlone behind then none
  let (token, rest) ← directiveValue? name behind
  let cursor ← (cursor.advance (cursor.rest.length - rest.length) rest).restOfLine?
  return (token, cursor)

/-- Reads a tag; in a flow collection a comma may follow it at once. -/
def Cursor.readTag? (cursor : Cursor) (inFlow : Bool) : Option (Token × Cursor) := do
  let (name, rest) ← Tag.name? cursor.rest
  if !standsAlone rest && !(inFlow && rest.head? == some ',') then none
  return (.tag name, cursor.advance (cursor.rest.length - rest.length) rest)

def mayFollowAnchor (cs : List Char) : Bool :=
  standsAlone cs || cs.head?.any fun c => "?:,]\x7d%@\x60".toList.contains c

def Cursor.readAnchor? (cursor : Cursor) : Option (List Char × Cursor) :=
  let cs := cursor.rest.drop 1
  let name := cs.takeWhile isWordChar
  let rest := cs.dropWhile isWordChar
  if name.isEmpty || !mayFollowAnchor rest then none
  else some (name, cursor.advance (name.length + 1) rest)

end EnumBinding.Yaml
