import EnumBinding.Yaml.Folding

/-!
# Plain scalars

A scalar without quotes runs on until an indicator, a comment, a mark of a document, or a line that is
not indented deeply enough. In a flow collection the flow indicators end it as well.
-/

namespace EnumBinding.Yaml

def isFlowIndicator (c : Char) : Bool := c == ',' || c == '[' || c == ']' || c == '\x7b' || c == '\x7d'

structure Plain where
  text : List Char
  /-- Whether a line break was read after the last word. -/
  broken : Bool
  cursor : Cursor

namespace Plain

/-- Reads up to the next white space, break or indicator. In a flow collection no colon may be followed
by a flow indicator or a question mark. -/
def word? (inFlow : Bool) : List Char → Option (List Char)
  | [] => some []
  | c :: cs =>
    if isWhite c || isBreak c || (c == ':' && standsAlone cs) then
      some []
    else if inFlow && c == ':' && cs.head?.any (fun d => isFlowIndicator d || d == '?') then
      none
    else if inFlow && isFlowIndicator c then
      some []
    else
      (word? inFlow cs).map (c :: ·)

/-- Reads on behind `text` and `gap`; `least` is the column that continuing lines must reach. -/
def read? (inFlow : Bool) (least : Nat) : Nat → List Char → Gap → Cursor → Option Plain
  | 0, _, _, _ => none
  | fuel + 1, text, gap, cursor =>
    if cursor.atDocumentMark || cursor.rest.head? = some '#' then
      some { text, broken := gap.broken, cursor }
    else
      match word? inFlow cursor.rest with
      | none => none
      | some [] => some { text, broken := gap.broken, cursor }
      | some word =>
        let text := text ++ gap.fold ++ word
        let cursor := cursor.skip word.length
        match cursor.readGap? least with
        | none => none
        | some (gap, after) =>
          -- No gap lies behind the word, so an indicator ended it and ends the scalar.
          if after.index = cursor.index then
            some { text, broken := false, cursor }
          else if !inFlow && after.column < least then
            some { text, broken := gap.broken, cursor := after }
          else
            read? inFlow least fuel text gap after

end Plain

def Cursor.readPlain? (cursor : Cursor) (inFlow : Bool) (least : Nat) : Option Plain :=
  Plain.read? inFlow least (cursor.rest.length + 1) [] {} cursor

end EnumBinding.Yaml
