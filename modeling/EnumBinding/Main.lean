import EnumBinding.CommandLine.Run

/-!
# The program

Runs a command line on the files of the system.
-/

namespace EnumBinding

def FileError.ofIO : IO.Error → FileError
  | .noFileOrDirectory .. => .missing
  | .alreadyExists .. => .alreadyExists
  | .inappropriateType _ 20 _ => .notDirectory
  | .inappropriateType _ 21 _ => .isDirectory
  | error => .other (toString error)

def attempt (action : IO α) : IO (Except FileError α) := do
  match ← action.toBaseIO with
  | .ok value => return .ok value
  | .error error => return .error (FileError.ofIO error)

def writeFile (path text : String) : IO Unit := do
  let around := (Path.ofString path).parent
  unless around.isEmpty do
    IO.FS.createDirAll ((if (Path.ofString path).rooted then "/" else "") ++ "/".intercalate around)
  IO.FS.writeFile path text

instance : FileAccess IO where
  readText path := do
    match ← attempt (IO.FS.readBinFile path) with
    | .error cause => return .error cause
    | .ok bytes =>
      match String.fromUTF8? bytes with
      | some text => return .ok text
      | none => return .error .invalidText
  writeText path text := attempt (writeFile path text)

end EnumBinding

def main (arguments : List String) : IO UInt32 := do
  let outcome ← (EnumBinding.CommandLine.run arguments : IO _)
  IO.print outcome.output
  if let some failure := outcome.failure then
    IO.eprintln failure
  return outcome.status.toUInt32
