import EnumBinding.Files.Access
import EnumBinding.Generation

/-!
# Generating a file

Reads both headers, generates, and writes the output. Nothing is written before the whole text is known,
so a run that fails leaves an earlier output in place.
-/

namespace EnumBinding.Generation

variable {m : Type → Type} [Monad m] [FileAccess m]

def readHeader (path : String) : ExceptT Error m String := do
  match ← (FileAccess.readText path : m _) with
  | .ok text => return text
  | .error cause => throw (.inputUnavailable path cause)

def writeOutput (path text : String) : ExceptT Error m Unit := do
  match ← (FileAccess.writeText path text : m _) with
  | .ok () => return ()
  | .error cause => throw (.outputUnwritable path cause)

def file (config : Config) (output : String) : ExceptT Error m Summary := do
  let header ← readHeader config.header
  let versionHeader ← readHeader config.versionHeader
  let (text, summary) ← (source header versionHeader config : Except Error _)
  writeOutput output text
  return summary

end EnumBinding.Generation
