import EnumBinding.Files.Error
import EnumBinding.Files.Path

/-!
# File trees

The files and directories below a top directory, where every run begins. The top is its own parent, and
a rooted path begins at the top as well. Operations fail as those of a POSIX system do; an operation that
fails changes no file, though it may leave directories that it made on the way.
-/

namespace EnumBinding

inductive FileNode where
  | file (content : ByteArray)
  | directory

/-- The names from the top directory down to a file or directory. -/
abbrev Location := List String

inductive FileAction where
  | read
  | write
  | make
deriving DecidableEq, Repr

structure FileTree where
  entries : List (Location × FileNode) := []
  /-- Why the system would refuse something that the entries allow, as for want of permission or space. -/
  refusal? : FileAction → Location → Option FileError := fun _ _ => none

namespace FileTree

def find? (tree : FileTree) (location : Location) : Option FileNode :=
  if location.isEmpty then some .directory else tree.entries.lookup location

def put (tree : FileTree) (location : Location) (node : FileNode) : FileTree :=
  { tree with entries := (location, node) :: tree.entries.filter (·.1 != location) }

def allow (tree : FileTree) (action : FileAction) (location : Location) : Except FileError Unit :=
  match tree.refusal? action location with
  | some cause => .error cause
  | none => .ok ()

theorem find?_put (tree : FileTree) {location : Location} (h : location ≠ []) (node : FileNode)
    (other : Location) :
    (tree.put location node).find? other = if other = location then some node else tree.find? other := by
  have lookup_filter : ∀ entries : List (Location × FileNode), other ≠ location →
      (entries.filter (·.1 != location)).lookup other = entries.lookup other := by
    intro entries hne
    induction entries with
    | nil => rfl
    | cons entry entries ih =>
      obtain ⟨place, found⟩ := entry
      by_cases hplace : place = location
      · have hb : (other == place) = false := by simpa [hplace] using hne
        simp [List.lookup_cons, ih, hplace, hplace ▸ hb]
      · simp [List.lookup_cons, ih, hplace]
  by_cases hother : other = location
  · subst hother
    simp [find?, put, h]
  · by_cases htop : other = []
    · simp [find?, htop, Ne.symm h]
    · have hb : (other == location) = false := by simpa using hother
      simp [find?, put, hother, htop, List.lookup_cons, lookup_filter, hb]

def enter (tree : FileTree) (location : Location) (step : String) : Except FileError Location :=
  if step = Path.here then
    .ok location
  else if step = Path.up then
    .ok location.dropLast
  else
    match tree.find? (location ++ [step]) with
    | some .directory => .ok (location ++ [step])
    | some (.file _) => .error .notDirectory
    | none => .error .missing

def walk (tree : FileTree) (steps : List String) : Except FileError Location :=
  steps.foldlM tree.enter []

inductive Target where
  /-- To a directory, for a path without steps or one that ends in `.` or `..`. -/
  | directory
  /-- To a name in a directory, whether or not there is something of that name. -/
  | name (location : Location)

def target (tree : FileTree) (steps : List String) : Except FileError Target :=
  match steps.getLast? with
  | none => .ok .directory
  | some last => do
    let location ← tree.walk steps.dropLast
    if last = Path.here ∨ last = Path.up then return .directory
    return .name (location ++ [last])

/-- The path that a text names; the empty text names nothing, and no path holds U+0000. -/
def parse (text : String) : Except FileError Path :=
  if text.toList.contains '\x00' then .error .invalidPath
  else if text.isEmpty then .error .missing
  else .ok (Path.ofString text)

def readBytes (tree : FileTree) (text : String) : Except FileError ByteArray := do
  let path ← parse text
  match ← tree.target path.steps with
  | .directory => .error .isDirectory
  | .name location =>
    match tree.find? location with
    | none => .error .missing
    | some .directory => .error .isDirectory
    | some (.file content) =>
      if path.closed then
        .error .notDirectory
      else do
        tree.allow .read location
        return content

def readText (tree : FileTree) (text : String) : Except FileError String := do
  match String.fromUTF8? (← tree.readBytes text) with
  | some content => .ok content
  | none => .error .invalidText

def writeBytes (tree : FileTree) (text : String) (content : ByteArray) : Except FileError FileTree := do
  let path ← parse text
  match ← tree.target path.steps with
  | .directory => .error .isDirectory
  | .name location =>
    if path.closed then
      .error .isDirectory
    else
      match tree.find? location with
      | some .directory => .error .isDirectory
      | _ => do
        tree.allow .write location
        return tree.put location (.file content)

def makeDirectory (tree : FileTree) (steps : List String) : Except FileError FileTree := do
  match ← tree.target steps with
  | .directory => .error .alreadyExists
  | .name location =>
    match tree.find? location with
    | some _ => .error .alreadyExists
    | none => do
      tree.allow .make location
      return tree.put location .directory

def isDirectory (tree : FileTree) (steps : List String) : Bool :=
  match tree.walk steps with
  | .ok _ => true
  | .error _ => false

def ensureDirectory (tree : FileTree) (steps : List String) : Except FileError FileTree :=
  match tree.makeDirectory steps with
  | .ok tree => .ok tree
  | .error cause => if tree.isDirectory steps then .ok tree else .error cause

/-- Makes a directory; if a step to it is missing, `makeAround` must make the directories around it first.
The tree comes back even if this fails. -/
def makeWith (makeAround : FileTree → Except FileError Unit × FileTree) (steps : List String)
    (tree : FileTree) : Except FileError Unit × FileTree :=
  match tree.ensureDirectory steps with
  | .ok tree => (.ok (), tree)
  | .error .missing =>
    -- What was made on the way stays, whatever comes after.
    match makeAround tree with
    | (.error cause, tree) => (.error cause, tree)
    | (.ok (), tree) =>
      match tree.ensureDirectory steps with
      | .ok tree => (.ok (), tree)
      | .error cause => (.error cause, tree)
  | .error cause => (.error cause, tree)

/-- Makes a directory and those around it, the steps to it given last first. -/
def makeReversed : List String → FileTree → Except FileError Unit × FileTree
  | [], tree => (.ok (), tree)
  | step :: around, tree => makeWith (makeReversed around) (around.reverse ++ [step]) tree

def makeParents (path : Path) (tree : FileTree) : Except FileError Unit × FileTree :=
  if path.parent.any (·.toList.contains '\x00') then
    (.error .invalidPath, tree)
  else
    makeReversed path.parent.reverse tree

def writeFile (text : String) (content : ByteArray) (tree : FileTree) :
    Except FileError Unit × FileTree :=
  match makeParents (Path.ofString text) tree with
  | (.error cause, tree) => (.error cause, tree)
  | (.ok (), tree) =>
    match tree.writeBytes text content with
    | .ok tree => (.ok (), tree)
    | .error cause => (.error cause, tree)

end FileTree
end EnumBinding
