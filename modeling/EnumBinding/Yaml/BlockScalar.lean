import EnumBinding.Yaml.Cursor

/-!
# Block scalars

A block scalar is the indented lines below its indicator. A literal one keeps its line breaks; a folded
one joins two lines of text by a space. What stands behind the indicator sets the indentation, or leaves
it to the first line of text, and says which of the last line breaks stay.
-/

namespace EnumBinding.Yaml

inductive BlockStyle where
  | literal
  | folded
deriving DecidableEq, Repr

/-- Which line breaks at the end of a block scalar stay: none, the first, or all. -/
inductive Chomp where
  | strip
  | clip
  | keep
deriving DecidableEq, Repr

namespace BlockScalar

def chomp? : Char → Option Chomp
  | '+' => some .keep
  | '-' => some .strip
  | _ => none

def increment? (c : Char) : Option Nat :=
  if '1' ≤ c && c ≤ '9' then some (c.toNat - '0'.toNat) else none

/-- What stands behind the indicator, in either order, and how many characters it takes. A zero is left
over and ends the line wrongly. -/
def header : List Char → Chomp × Option Nat × Nat
  | [] => (.clip, none, 0)
  | c :: cs =>
    match chomp? c, increment? c with
    | some chomp, _ =>
      match cs.head?.bind increment? with
      | some increment => (chomp, some increment, 2)
      | none => (chomp, none, 1)
    | none, some increment =>
      match cs.head?.bind chomp? with
      | some chomp => (chomp, some increment, 2)
      | none => (.clip, some increment, 1)
    | none, none => (.clip, none, 0)

structure Blank where
  breaks : List Char
  widest : Nat
  cursor : Cursor

/-- Reads indentation and empty lines. The indentation is `indent` columns, or as wide as it comes; no tab
may stand in the place of its spaces. -/
def blank? (indent : Option Nat) : Nat → List Char → Nat → Cursor → Option Blank
  | 0, breaks, widest, cursor => some { breaks, widest, cursor }
  | fuel + 1, breaks, widest, cursor =>
    let spaces := (cursor.rest.takeWhile (· == ' ')).length
    let taken := match indent with
      | some indent => min spaces (indent - cursor.column)
      | none => spaces
    let cursor := cursor.skip taken
    let widest := max widest cursor.column
    if indent.all (cursor.column < ·) && cursor.rest.head? = some '\t' then
      none
    else
      match cursor.readBreak? with
      | some (c, cursor) => blank? indent fuel (breaks ++ [c]) widest cursor
      | none => some { breaks, widest, cursor }

def Blank.read? (indent : Option Nat) (cursor : Cursor) : Option Blank :=
  blank? indent (cursor.rest.length + 1) [] 0 cursor

/-- What has been read of a block scalar: its text, the break of its last line and the breaks of the empty
lines below that. -/
structure Body where
  text : List Char := []
  lastBreak : List Char := []
  trailing : List Char
  /-- Whether the last line began with white space. -/
  lastWhite : Bool := false
  cursor : Cursor

def Body.joint (body : Body) (style : BlockStyle) (nextWhite : Bool) : List Char :=
  if style = .folded && body.lastBreak == ['\n'] && !body.lastWhite && !nextWhite then
    if body.trailing.isEmpty then [' '] else []
  else
    body.lastBreak

def Body.read? (style : BlockStyle) (indent : Nat) : Nat → Body → Option Body
  | 0, body => some body
  | fuel + 1, body =>
    if body.cursor.column ≠ indent ∨ body.cursor.atEnd then
      some body
    else
      let white := body.cursor.rest.head?.any isWhite
      let line := body.cursor.rest.takeWhile (!isBreak ·)
      let text := body.text ++ body.joint style white ++ body.trailing ++ line
      let cursor := body.cursor.skip line.length
      let (lastBreak, cursor) := match cursor.readBreak? with
        | some (c, cursor) => ([c], cursor)
        | none => ([], cursor)
      match Blank.read? (some indent) cursor with
      | none => none
      | some blank =>
        Body.read? style indent fuel
          { text, lastBreak, trailing := blank.breaks, lastWhite := white, cursor := blank.cursor }

def Body.chomped (body : Body) : Chomp → List Char
  | .strip => body.text
  | .clip => body.text ++ body.lastBreak
  | .keep => body.text ++ body.lastBreak ++ body.trailing

end BlockScalar

/-- Reads a block scalar from its indicator on. `least` is the least column of its lines. -/
def Cursor.readBlockScalar? (cursor : Cursor) (style : BlockStyle) (least : Nat) :
    Option (List Char × Cursor) := do
  let (chomp, increment, count) := BlockScalar.header (cursor.rest.drop 1)
  let start ← (cursor.skip (count + 1)).restOfLine?
  let set := increment.map (least - 1 + ·)
  let blank ← BlockScalar.Blank.read? set start
  let indent := set.getD (max (max blank.widest least) 1)
  let body ← BlockScalar.Body.read? style indent (start.rest.length + 1)
    { trailing := blank.breaks, cursor := blank.cursor }
  return (body.chomped chomp, body.cursor)

end EnumBinding.Yaml
