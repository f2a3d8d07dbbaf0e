import EnumBinding.Header.Block
import EnumBinding.Header.Comment
import EnumBinding.Header.Entry

/-!
# Members

The members of a block with their documentation: the note on a member's own line or else the run of `//`
lines above it, down to the end of the member before. No line documents two members. A prefix may be of any
length, whatever limit an engine sets to the size of its patterns.
-/

namespace EnumBinding.Header

structure Member where
  rawName : String
  /-- The lines of its documentation without their `//`, trimmed. -/
  comment : List String
deriving DecidableEq, Repr

/-- The member that an entry stands for; `above` is the text between it and the member before. -/
def Entry.toMember (above : List Char) (entry : Entry) : Member where
  rawName := String.ofList entry.name
  comment :=
    match entry.note with
    | some note => [String.ofList (Text.trim note)]
    | none => (commentAbove above).map String.ofList

/-- An offset that lies past the end of a text or inside a character. -/
structure BadOffset where
deriving DecidableEq, Repr

/-- The text above the first member, from the start of the members: nothing if the member begins before
them. -/
def aboveFirst (header : List Char) (membersStart start : Nat) : Except BadOffset (List Char) :=
  if start ≤ membersStart then
    .ok []
  else
    match Text.slice? membersStart start header with
    | some above => .ok above
    | none => .error {}

/-- The members of a block whose names begin with `stem`. The block may be any offsets: its end must be
usable, and the start of its members too if the documentation of its first member is looked up there. -/
def Block.members (block : Block) (stem header : List Char) : Except BadOffset (List Member) :=
  match Text.splitAt? block.last header with
  | none => .error {}
  | some (text, _) =>
    let (passed, inside) := Text.seek [] block.first text
    match Entry.all stem (passed.head?.all (· == '\n')) inside with
    | [] => .ok []
    | (gap, entry) :: others => do
      -- Only the first member looks for its comment from an offset of the block; the others look from
      -- where the scan itself has been.
      let first ← match entry.note with
        | some _ => pure (entry.toMember [])
        | none => do
          let above ← aboveFirst header block.membersStart (Text.width passed + Text.width gap)
          pure (entry.toMember above)
      return first :: others.map fun (above, entry) => entry.toMember above

def members (header : String) (block : Block) (memberPrefix : String) :
    Except BadOffset (List Member) :=
  block.members (memberPrefix.toList ++ ['_']) header.toList

end EnumBinding.Header
