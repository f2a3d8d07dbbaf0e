import EnumBinding.CommandLine.Arguments
import EnumBinding.Config.File
import EnumBinding.Generation.File

/-!
# A run from the command line

What a run prints and how it ends. The configuration comes from its file or is the default; paths given on
the command line replace those in it, and it is then validated again.
-/

namespace EnumBinding.CommandLine

structure Outcome where
  status : Nat
  output : String := ""
  /-- What a run that failed prints elsewhere. -/
  failure : Option String := none
deriving DecidableEq, Repr

def programName : String := "heifdefs"

def versionText : String := programName ++ " 0.1.0\n"

def helpText : String :=
  Text.unlines
    ["Generate Go constants from the libheif C headers",
     "",
     "Usage: " ++ programName ++ " [OPTIONS] <OUTPUT>",
     "",
     "Arguments:",
     "  <OUTPUT>  Go file to write, e.g. libheif/defines.go",
     "",
     "Options:",
     "  -c, --config <CONFIG>                  YAML file overriding header paths and the enum list",
     "      --header <HEADER>                  Path to heif.h (overrides the config file)",
     "      --version-header <VERSION_HEADER>  Path to heif_version.h (overrides the config file)",
     "  -v, --verbose                          Log every located enum",
     "  -h, --help                             Print help",
     "  -V, --version                          Print version"]

def readingLine (header : String) : String := "📋 Reading " ++ header ++ "..."

def constantsText (count : Nat) : String := toString count ++ " constants"

def report (output : String) (summary : Summary) : List String :=
  ["  ✓ Generated " ++ output, "  ℹ build_version = " ++ summary.buildVersion] ++
    summary.declarations.map (fun declaration =>
      "  ✓ " ++ declaration.typeName ++ " (" ++ constantsText declaration.constantCount ++ ")") ++
    ["✨ Generated " ++ constantsText summary.constantCount]

def Arguments.override (arguments : Arguments) (config : Config) : Config :=
  { config with
    header := arguments.header.getD config.header
    versionHeader := arguments.versionHeader.getD config.versionHeader }

def failed (output : List String) (error : Error) : Outcome where
  status := 1
  output := Text.unlines output
  failure := some ("Error: " ++ error.message)

variable {m : Type → Type} [Monad m] [FileAccess m]

def Arguments.configure (arguments : Arguments) : ExceptT Error m Config := do
  let config ← match arguments.config with
    | some path => Config.load path
    | none => pure {}
  let config := arguments.override config
  match config.validate with
  | .ok () => return config
  | .error cause => throw (.invalidConfig cause)

def Arguments.run (arguments : Arguments) : m Outcome := do
  match ← arguments.configure.run with
  | .error error => return failed [] error
  | .ok config =>
    let first := readingLine config.header
    match ← (Generation.file config arguments.output).run with
    | .error error => return failed [first] error
    | .ok summary =>
      return { status := 0, output := Text.unlines (first :: report arguments.output summary) }

def run (arguments : List String) : m Outcome :=
  match request? arguments with
  | none => return { status := 2 }
  | some .help => return { status := 0, output := helpText }
  | some .version => return { status := 0, output := versionText }
  | some (.run arguments) => arguments.run

end EnumBinding.CommandLine
