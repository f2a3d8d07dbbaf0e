import EnumBinding.Files.Tree

/-!
# Access to files

What a run needs of files: the text of one, and writing one. A run is the same wherever its files are;
on a file tree it is a pure function.
-/

namespace EnumBinding

class FileAccess (m : Type → Type) where
  readText : String → m (Except FileError String)
  /-- Writes a whole file after making the directories around it. -/
  writeText : String → String → m (Except FileError Unit)

instance : FileAccess (StateM FileTree) where
  readText path := fun tree => (tree.readText path, tree)
  writeText path text := fun tree => tree.writeFile path text.toUTF8

end EnumBinding
