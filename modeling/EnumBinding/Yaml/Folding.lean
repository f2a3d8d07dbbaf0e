import EnumBinding.Yaml.Cursor

/-!
# Folding

Between two words of a scalar that runs over several lines lies a gap of white space and line breaks. A
gap within a line is kept; a gap with breaks loses its white space and its first line feed, or turns into
one space if that leaves nothing.
-/

namespace EnumBinding.Yaml

structure Gap where
  /-- White space before the first break. -/
  white : List Char := []
  breaks : List Char := []
  broken : Bool := false
deriving Repr

namespace Gap

def fold (gap : Gap) : List Char :=
  match gap.breaks with
  | [] => gap.white
  | '\n' :: [] => [' ']
  | '\n' :: breaks => breaks
  | breaks => breaks

/-- Reads on in a gap. No tab may indent a line before column `least`. -/
def read? (least : Nat) : Nat → Gap → Cursor → Option (Gap × Cursor)
  | 0, gap, cursor => some (gap, cursor)
  | fuel + 1, gap, cursor =>
    match cursor.readBreak? with
    | some (c, cursor) =>
      read? least fuel { gap with breaks := gap.breaks ++ [c], broken := true } cursor
    | none =>
      match cursor.rest with
      | c :: rest =>
        if !isWhite c then
          some (gap, cursor)
        else if !gap.broken then
          read? least fuel { gap with white := gap.white ++ [c] } (cursor.advance 1 rest)
        else if c == '\t' && cursor.column < least then
          none
        else
          read? least fuel gap (cursor.advance 1 rest)
      | [] => some (gap, cursor)

end Gap

def Cursor.readGap? (cursor : Cursor) (least : Nat) : Option (Gap × Cursor) :=
  Gap.read? least (cursor.rest.length + 1) {} cursor

/-- Reads the gap behind a line break that was escaped: its white space counts for nothing, and none of
its breaks is folded. -/
def Cursor.readEscapedGap? (cursor : Cursor) : Option (List Char × Cursor) :=
  (Gap.read? 0 (cursor.rest.length + 1) { broken := true } cursor).map fun (gap, cursor) =>
    (gap.breaks, cursor)

end EnumBinding.Yaml
