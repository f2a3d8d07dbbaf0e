/-!
# Paths

A path is taken step by step; empty steps, as between two slashes, count for nothing. The steps `.` and
`..` stay, since they are taken on the file tree itself.
-/

namespace EnumBinding

structure Path where
  rooted : Bool
  steps : List String
  /-- Whether the path ends with a slash, which only a directory may bear. -/
  closed : Bool
deriving DecidableEq, Repr

namespace Path

def ofString (text : String) : Path where
  rooted := text.toList.head? = some '/'
  steps := ((text.toList.splitOn '/').filter (· != [])).map String.ofList
  closed := text.toList.getLast? = some '/'

def here : String := "."

def up : String := ".."

/-- The steps without those that stay, but for one at the very front of a path without a root. -/
def components (path : Path) : List String :=
  match path.rooted, path.steps with
  | false, step :: steps => step :: steps.filter (· != here)
  | _, steps => steps.filter (· != here)

/-- The steps to the directory that holds a path, unless that is the one in which the path begins. -/
def parent (path : Path) : List String := path.components.dropLast

end Path
end EnumBinding
