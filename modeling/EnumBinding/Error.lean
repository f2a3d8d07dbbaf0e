import EnumBinding.Files.Error

/-!
# Errors

The causes for which a run ends without output, and their wording. Every one is fatal.
-/

namespace EnumBinding

inductive ConfigError where
  | unreadable (path : String) (cause : FileError)
  /-- Not YAML, or YAML of the wrong shape. -/
  | malformed
  | blankMacro
  | noEnums
  | badName (name : String)
  | badPrefix (memberPrefix name : String)
  | repeatedEnum (name : String)
deriving DecidableEq, Repr

inductive Error where
  | inputUnavailable (path : String) (cause : FileError)
  | versionNotFound (name : String)
  | enumNotFound (name : String)
  | outputUnwritable (path : String) (cause : FileError)
  | invalidConfig (cause : ConfigError)
  /-- A block whose offsets do not fit its header; a located block always fits. -/
  | badOffset
deriving DecidableEq, Repr

def ConfigError.message : ConfigError → String
  | .unreadable path cause => "Failed to read config file " ++ path ++ ": " ++ cause.message
  | .malformed => "Failed to parse YAML"
  | .blankMacro => "version_macro must not be empty"
  | .noEnums => "at least one enum is required"
  | .badName name => "'" ++ name ++ "' is not a C identifier"
  | .badPrefix memberPrefix name =>
    "member prefix '" ++ memberPrefix ++ "' of " ++ name ++ " is not a C identifier"
  | .repeatedEnum name => "enum " ++ name ++ " is listed more than once"

namespace Error

def message : Error → String
  | .inputUnavailable path cause => "Failed to read header " ++ path ++ ": " ++ cause.message
  | .versionNotFound name => "Version macro " ++ name ++ " not found"
  | .enumNotFound name => "Enum " ++ name ++ " not found"
  | .outputUnwritable path cause => "Failed to write " ++ path ++ ": " ++ cause.message
  | .invalidConfig cause => "Invalid configuration: " ++ cause.message
  | .badOffset => "Enum block does not fit its header"

def cause? : Error → Option FileError
  | .inputUnavailable _ cause | .outputUnwritable _ cause => some cause
  | _ => none

end Error
end EnumBinding
