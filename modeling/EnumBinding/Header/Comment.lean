import EnumBinding.Text.Blank
import EnumBinding.Text.Match

/-!
# Comment lines

The unbroken run of `//` lines that ends a text. A blank line, or any other line, breaks the run.
-/

namespace EnumBinding.Header

def commentText? (line : List Char) : Option (List Char) :=
  (Text.after? ['/', '/'] (Text.trim line)).map Text.trim

def commentRun : List (List Char) → List (List Char)
  | [] => []
  | line :: lines =>
    match commentText? line with
    | some text => text :: commentRun lines
    | none => []

/-- A text without one last space, tab or line end. -/
def dropLineEnd (cs : List Char) : List Char :=
  match cs.getLast? with
  | some c => if c == ' ' || c == '\n' || c == '\r' || c == '\t' then cs.dropLast else cs
  | none => []

def commentAbove (cs : List Char) : List (List Char) :=
  (commentRun ((dropLineEnd cs).splitOn '\n').reverse).reverse

end EnumBinding.Header
