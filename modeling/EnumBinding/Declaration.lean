import EnumBinding.Header.Member
import EnumBinding.Name.Casing
import EnumBinding.Text.Lines

/-!
# Declarations

A C enum becomes a Go type and a block of constants, one aligned line for each member:

```text
type Channel C.enum_heif_channel

const (
	// luma
	ChannelY  Channel = C.heif_channel_Y
	ChannelCb Channel = C.heif_channel_Cb
)
```
-/

namespace EnumBinding

structure Constant where
  name : String
  rawName : String
  comment : List String
deriving DecidableEq, Repr

structure Declaration where
  enumName : String
  typeName : String
  constants : List Constant
deriving DecidableEq, Repr

def commentLines (comment : List String) : List String := comment.map ("\t// " ++ ·)

def commentBlock? (comment : List String) : Option String :=
  if comment.isEmpty then none else some ("\n".intercalate (commentLines comment))

namespace Constant

def ofMember (member : Header.Member) : Constant where
  name := Name.ofConstant member.rawName
  rawName := member.rawName
  comment := member.comment

def line (width : Nat) (typeName : String) (constant : Constant) : String :=
  "\t" ++ Text.padTo width constant.name ++ " " ++ typeName ++ " = C." ++ constant.rawName

end Constant

namespace Declaration

def ofMembers (enumName : String) (members : List Header.Member) : Declaration where
  enumName := enumName
  typeName := Name.ofType enumName
  constants := members.map Constant.ofMember

/-- The width of the names' column, counted in characters. -/
def nameWidth (declaration : Declaration) : Nat :=
  declaration.constants.foldl (fun widest constant => max widest constant.name.length) 0

def constantLines (declaration : Declaration) : List String :=
  if declaration.constants.isEmpty then
    []
  else
    "const (" ::
      declaration.constants.flatMap (fun constant =>
        commentLines constant.comment ++ [constant.line declaration.nameWidth declaration.typeName]) ++
      [")", ""]

def lines (declaration : Declaration) : List String :=
  ("type " ++ declaration.typeName ++ " C.enum_" ++ declaration.enumName) :: "" ::
    declaration.constantLines

def source (declaration : Declaration) : String := Text.unlines declaration.lines

end Declaration
end EnumBinding
