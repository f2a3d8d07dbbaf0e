import EnumBinding.Yaml.BlockScalar
import EnumBinding.Yaml.Plain
import EnumBinding.Yaml.Quoted
import EnumBinding.Yaml.Tag

/-!
# From text to tokens

Most tokens are read where they begin. A key is known only by the colon behind it, so each place where a
key might begin is remembered until the colon comes or cannot come any more: a key without a question mark
is on one line, and its colon within 1024 characters. Then the key's token, and the start of its mapping
if the key is indented more than the block around it, are put in before what was read since.
-/

namespace EnumBinding.Yaml

structure KeyStart where
  number : Nat
  cursor : Cursor
  /-- Whether nothing but a key may stand there: at the indentation of a block. -/
  required : Bool

structure Lexer where
  cursor : Cursor
  /-- The tokens read, last one first. -/
  tokens : List Token := []
  /-- The columns of the open blocks, innermost first. -/
  indents : List Nat := []
  /-- Where the key of the innermost flow collection, or of the block outside all of them, may begin. -/
  keyStart : Option KeyStart := none
  /-- The same for the collections around it; there are as many as there are open flow collections. -/
  outerKeys : List (Option KeyStart) := []
  keyAllowed : Bool := true

namespace Lexer

def inFlow (lexer : Lexer) : Bool := !lexer.outerKeys.isEmpty

def leastColumn (lexer : Lexer) : Nat :=
  match lexer.indents with
  | [] => 0
  | indent :: _ => indent + 1

def emit (lexer : Lexer) (token : Token) : Lexer := { lexer with tokens := token :: lexer.tokens }

def insert (lexer : Lexer) (number : Nat) (token : Token) : Lexer :=
  let since := lexer.tokens.length - number
  { lexer with tokens := lexer.tokens.take since ++ token :: lexer.tokens.drop since }

def moveTo (lexer : Lexer) (cursor : Cursor) : Lexer := { lexer with cursor }

def indicator (lexer : Lexer) (count : Nat) (token : Token) : Lexer :=
  (lexer.emit token).moveTo (lexer.cursor.skip count)

def allowKey (lexer : Lexer) (keyAllowed : Bool) : Lexer := { lexer with keyAllowed }

def dropKey? (lexer : Lexer) : Option Lexer :=
  if lexer.keyStart.any (·.required) then none else some { lexer with keyStart := none }

def saveKey? (lexer : Lexer) : Option Lexer :=
  if lexer.keyAllowed then do
    let lexer ← lexer.dropKey?
    return { lexer with
      keyStart := some {
        number := lexer.tokens.length
        cursor := lexer.cursor
        required := !lexer.inFlow && lexer.indents.head? == some lexer.cursor.column } }
  else
    some lexer

def KeyStart.isStale (start : KeyStart) (cursor : Cursor) : Bool :=
  start.cursor.line < cursor.line || start.cursor.index + 1024 < cursor.index

def refresh? (cursor : Cursor) : Option KeyStart → Option (Option KeyStart)
  | none => some none
  | some start =>
    if KeyStart.isStale start cursor then if start.required then none else some none
    else some (some start)

def dropStale? (lexer : Lexer) : Option Lexer := do
  let keyStart ← refresh? lexer.cursor lexer.keyStart
  let outerKeys ← lexer.outerKeys.mapM (refresh? lexer.cursor)
  return { lexer with keyStart, outerKeys }

/-- Opens a block at a column that lies inside the innermost one; its start goes behind the first `number`
tokens. Flow collections know no blocks. -/
def openBlock (lexer : Lexer) (column number : Nat) (token : Token) : Lexer :=
  if !lexer.inFlow && lexer.leastColumn ≤ column then
    { lexer.insert number token with indents := column :: lexer.indents }
  else
    lexer

/-- Closes blocks, innermost first, as long as `inside` says so of their columns. -/
def closeBlocks (inside : Nat → Bool) : List Nat → List Token → List Nat × List Token
  | [], tokens => ([], tokens)
  | indent :: indents, tokens =>
    if inside indent then closeBlocks inside indents (.blockEnd :: tokens)
    else (indent :: indents, tokens)

def closeWhile (lexer : Lexer) (inside : Nat → Bool) : Lexer :=
  if lexer.inFlow then
    lexer
  else
    let (indents, tokens) := closeBlocks inside lexer.indents lexer.tokens
    { lexer with indents, tokens }

def dedent (lexer : Lexer) : Lexer := lexer.closeWhile (lexer.cursor.column < ·)

def closeAll? (lexer : Lexer) : Option Lexer := do
  let lexer ← (lexer.closeWhile fun _ => true).dropKey?
  return lexer.allowKey false

/-- Passes white space, comments and line breaks. A tab is white space only where no key may begin; in a
block a new line allows a key. -/
def passBlanks : Nat → Lexer → Lexer
  | 0, lexer => lexer
  | fuel + 1, lexer =>
    let tabs := lexer.inFlow || !lexer.keyAllowed
    let cursor := lexer.cursor.skipWhile fun c => c == ' ' || (tabs && c == '\t')
    let cursor := if cursor.rest.head? = some '#' then cursor.skipWhile (!isBreak ·) else cursor
    match cursor.readBreak? with
    | some (_, cursor) =>
      passBlanks fuel ((lexer.moveTo cursor).allowKey (lexer.keyAllowed || !lexer.inFlow))
    | none => lexer.moveTo cursor

/-! ## One token -/

def document? (lexer : Lexer) (token : Token) : Option Lexer := do
  return (← lexer.closeAll?).indicator 3 token

def directive? (lexer : Lexer) : Option Lexer := do
  let lexer ← lexer.closeAll?
  let (token, cursor) ← lexer.cursor.readDirective?
  return (lexer.emit token).moveTo cursor

def openFlow? (lexer : Lexer) (token : Token) : Option Lexer := do
  let lexer ← lexer.saveKey?
  let lexer := { lexer with keyStart := none, outerKeys := lexer.keyStart :: lexer.outerKeys }
  return (lexer.allowKey true).indicator 1 token

def closeFlow? (lexer : Lexer) (token : Token) : Option Lexer := do
  let lexer ← lexer.dropKey?
  let lexer := match lexer.outerKeys with
    -- Nothing is open; the token is refused where the nodes are read.
    | [] => lexer
    | keyStart :: outerKeys => { lexer with keyStart, outerKeys }
  return (lexer.allowKey false).indicator 1 token

def flowEntry? (lexer : Lexer) : Option Lexer := do
  return ((← lexer.dropKey?).allowKey true).indicator 1 .flowEntry

def openHere? (lexer : Lexer) (token : Token) : Option Lexer :=
  if !lexer.inFlow && !lexer.keyAllowed then none
  else some (lexer.openBlock lexer.cursor.column lexer.tokens.length token)

def blockEntry? (lexer : Lexer) : Option Lexer := do
  let lexer ← (← lexer.openHere? .blockSequenceStart).dropKey?
  return (lexer.allowKey true).indicator 1 .blockEntry

def key? (lexer : Lexer) : Option Lexer := do
  let lexer ← (← lexer.openHere? .blockMappingStart).dropKey?
  return (lexer.allowKey !lexer.inFlow).indicator 1 .key

def value? (lexer : Lexer) : Option Lexer :=
  match lexer.keyStart with
  | some start =>
    -- The start of the mapping goes in at the same place and so comes to stand before the key.
    let lexer := lexer.insert start.number .key
    let lexer := lexer.openBlock start.cursor.column start.number .blockMappingStart
    some (({ lexer with keyStart := none }.allowKey false).indicator 1 .value)
  | none => do
    let lexer ← lexer.openHere? .blockMappingStart
    return (lexer.allowKey !lexer.inFlow).indicator 1 .value

def read? (lexer : Lexer) (read : Cursor → Option (Token × Cursor)) : Option Lexer := do
  let lexer := (← lexer.saveKey?).allowKey false
  let (token, cursor) ← read lexer.cursor
  return (lexer.emit token).moveTo cursor

def quoted? (lexer : Lexer) (style : QuoteStyle) : Option Lexer :=
  lexer.read? fun cursor => do
    let (text, cursor) ← cursor.readQuoted? style
    return (.scalar text false, cursor)

def anchor? (lexer : Lexer) (token : List Char → Token) : Option Lexer :=
  lexer.read? fun cursor => do
    let (name, cursor) ← cursor.readAnchor?
    return (token name, cursor)

def blockScalar? (lexer : Lexer) (style : BlockStyle) : Option Lexer := do
  let lexer := (← lexer.dropKey?).allowKey true
  let (text, cursor) ← lexer.cursor.readBlockScalar? style lexer.leastColumn
  return (lexer.emit (.scalar text false)).moveTo cursor

/-- Reads a scalar without quotes. A key may follow it if it went on to a new line. -/
def plain? (lexer : Lexer) : Option Lexer := do
  let lexer := (← lexer.saveKey?).allowKey false
  let plain ← lexer.cursor.readPlain? lexer.inFlow lexer.leastColumn
  return ((lexer.emit (.scalar plain.text true)).moveTo plain.cursor).allowKey plain.broken

def isIndicator (c : Char) : Bool := "-?:,[]\x7b\x7d#&*!|>'\"%@\x60".toList.contains c

def beginsPlain (inFlow : Bool) (c : Char) (cs : List Char) : Bool :=
  !(isIndicator c || isWhite c || isBreak c) ||
    (c == '-' && !(cs.head?.any isWhite)) ||
    (!inFlow && (c == '?' || c == ':') && !standsAlone cs)

def token? (lexer : Lexer) (c : Char) (cs : List Char) : Option Lexer :=
  let alone := standsAlone cs
  if c == '%' && lexer.cursor.column == 0 then lexer.directive?
  else if lexer.cursor.atMark "---".toList then lexer.document? .documentStart
  else if lexer.cursor.atMark "...".toList then lexer.document? .documentEnd
  else if c == '[' then lexer.openFlow? .flowSequenceStart
  else if c == '\x7b' then lexer.openFlow? .flowMappingStart
  else if c == ']' then lexer.closeFlow? .flowSequenceEnd
  else if c == '\x7d' then lexer.closeFlow? .flowMappingEnd
  else if c == ',' then lexer.flowEntry?
  else if c == '-' && alone then lexer.blockEntry?
  else if c == '?' && (lexer.inFlow || alone) then lexer.key?
  else if c == ':' && (lexer.inFlow || alone) then lexer.value?
  else if c == '*' then lexer.anchor? .alias
  else if c == '&' then lexer.anchor? .anchor
  else if c == '!' then lexer.read? (·.readTag? lexer.inFlow)
  else if c == '|' && !lexer.inFlow then lexer.blockScalar? .literal
  else if c == '>' && !lexer.inFlow then lexer.blockScalar? .folded
  else if c == '\'' then lexer.quoted? .single
  else if c == '"' then lexer.quoted? .double
  else if beginsPlain lexer.inFlow c cs then lexer.plain?
  else none

def run? : Nat → Lexer → Option (List Token)
  | 0, _ => none
  | fuel + 1, lexer => do
    let lexer ← (passBlanks (lexer.cursor.rest.length + 1) lexer).dropStale?
    let lexer := lexer.dedent
    match lexer.cursor.rest with
    | [] => return (← lexer.closeAll?).tokens.reverse
    | c :: cs => run? fuel (← lexer.token? c cs)

end Lexer

/-- A byte order mark at the very start of a text takes up a column and is passed over. -/
def Cursor.ofText (text : List Char) : Cursor :=
  match text with
  | '\ufeff' :: rest => { rest, index := 1, column := 1 }
  | rest => { rest }

def tokens? (text : List Char) : Option (List Token) :=
  if text.all isAllowed then Lexer.run? (text.length + 1) { cursor := Cursor.ofText text } else none

end EnumBinding.Yaml
