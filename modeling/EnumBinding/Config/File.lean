import EnumBinding.Config.Reading
import EnumBinding.Files.Access

/-!
# Configuration files
-/

namespace EnumBinding.Config

def load [Monad m] [FileAccess m] (path : String) : ExceptT Error m Config := do
  match ← (FileAccess.readText path : m _) with
  | .error cause => throw (.invalidConfig (.unreadable path cause))
  | .ok text =>
    match ofYaml text with
    | .ok config => return config
    | .error cause => throw (.invalidConfig cause)

end EnumBinding.Config
