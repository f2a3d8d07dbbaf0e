import EnumBinding.Yaml.Folding

/-!
# Quoted scalars

In single quotes a quote is written twice and nothing else is special. In double quotes a backslash
begins an escape, and one before a line break joins the two lines. A mark of a document may not begin a
line of either.
-/

namespace EnumBinding.Yaml

inductive QuoteStyle where
  | single
  | double
deriving DecidableEq, Repr

def QuoteStyle.mark : QuoteStyle → Char
  | .single => '\''
  | .double => '"'

namespace Quoted

def hexValue? (c : Char) : Option Nat :=
  if '0' ≤ c && c ≤ '9' then some (c.toNat - '0'.toNat)
  else if 'a' ≤ c && c ≤ 'f' then some (c.toNat - 'a'.toNat + 10)
  else if 'A' ≤ c && c ≤ 'F' then some (c.toNat - 'A'.toNat + 10)
  else none

/-- The character with the code that `count` hexadecimal digits give; surrogates are no characters. -/
def hexChar? (count : Nat) (cs : List Char) : Option Char := do
  let digits ← (cs.take count).mapM hexValue?
  let code := digits.foldl (fun code digit => code * 16 + digit) 0
  if digits.length = count ∧ code.isValidChar then some (Char.ofNat code) else none

def shortEscapes : List (Char × Char) :=
  [('0', '\x00'), ('a', '\x07'), ('b', '\x08'), ('t', '\t'), ('\t', '\t'), ('n', '\n'), ('v', '\x0b'),
   ('f', '\x0c'), ('r', '\r'), ('e', '\x1b'), (' ', ' '), ('"', '"'), ('/', '/'), ('\\', '\\'),
   ('N', '\u0085'), ('_', '\u00a0'), ('L', '\u2028'), ('P', '\u2029')]

def codeEscapes : List (Char × Nat) := [('x', 2), ('u', 4), ('U', 8)]

def escape? : List Char → Option (Char × Nat)
  | [] => none
  | c :: cs =>
    match shortEscapes.lookup c with
    | some meant => some (meant, 1)
    | none => do
      let count ← codeEscapes.lookup c
      let meant ← hexChar? count cs
      return (meant, count + 1)

def read? (style : QuoteStyle) : Nat → Cursor → Option (List Char × Cursor)
  | 0, _ => none
  | fuel + 1, cursor =>
    match cursor.rest with
    | [] => none
    | c :: cs =>
      if isWhite c || isBreak c then do
        let (gap, after) ← cursor.readGap? 0
        if after.atDocumentMark then none
        let (text, last) ← read? style fuel after
        return (gap.fold ++ text, last)
      else if c = style.mark then
        if style = .single && cs.head? = some '\'' then do
          let (text, last) ← read? style fuel (cursor.skip 2)
          return ('\'' :: text, last)
        else
          some ([], cursor.skip 1)
      else if c = '\\' && style = .double then
        match (cursor.skip 1).readBreak? with
        | some (_, behind) => do
          let (breaks, after) ← behind.readEscapedGap?
          if after.atDocumentMark then none
          let (text, last) ← read? style fuel after
          return (breaks ++ text, last)
        | none => do
          let (meant, count) ← escape? cs
          let (text, last) ← read? style fuel (cursor.skip (count + 1))
          return (meant :: text, last)
      else do
        let (text, last) ← read? style fuel (cursor.skip 1)
        return (c :: text, last)

end Quoted

def Cursor.readQuoted? (cursor : Cursor) (style : QuoteStyle) : Option (List Char × Cursor) :=
  Quoted.read? style (cursor.rest.length + 1) (cursor.skip 1)

end EnumBinding.Yaml
