import EnumBinding.Error
import EnumBinding.Family
import EnumBinding.Header.Version
import EnumBinding.Text.Blank

/-!
# Configuration

Where the headers are, which macro holds the version, and which enums to generate. A configuration is
valid if the macro is not blank and there is at least one enum, every name and prefix is a C identifier,
and no enum is listed twice; the first offence in the order of the list is the one reported.
-/

namespace EnumBinding

structure Platform where
  architecture : String
  system : String
  littleEndian : Bool
deriving DecidableEq, Repr

/-- The directory tuple of a platform's headers: the name of its system where no tuple is known. -/
def Platform.multiarch (platform : Platform) : String :=
  if platform.system = "linux" then
    match platform.architecture with
    | "x86" => "i386-linux-gnu"
    | "arm" => "arm-linux-gnueabihf"
    | "powerpc64" => if platform.littleEndian then "powerpc64le-linux-gnu" else "powerpc64-linux-gnu"
    | "x86_64" | "aarch64" | "riscv64" | "s390x" | "mips64" => platform.architecture ++ "-linux-gnu"
    | _ => platform.system
  else
    platform.system

/-- The platform that the program is built for. -/
def buildPlatform : Platform := ⟨"x86_64", "linux", true⟩

def multiarch : String := buildPlatform.multiarch

def includeDirectory : String := "/usr/include/" ++ multiarch ++ "/libheif"

structure Config where
  header : String := includeDirectory ++ "/heif.h"
  versionHeader : String := includeDirectory ++ "/heif_version.h"
  versionMacro : String := Header.versionMacro
  enums : List Family := defaultFamilies
deriving DecidableEq, Repr

namespace Config

def isIdentifierStart (c : Char) : Bool := c == '_' || c.isAlpha

def isIdentifierRest (c : Char) : Bool := c == '_' || c.isAlphanum

/-- Whether a name is a C identifier; only ASCII letters and digits count. -/
def isIdentifier (name : String) : Bool :=
  match name.toList with
  | [] => false
  | c :: cs => isIdentifierStart c && cs.all isIdentifierRest

/-- Checks families in order; `seen` holds the names of those before them. -/
def checkFamilies (seen : List String) : List Family → Except ConfigError Unit
  | [] => .ok ()
  | family :: families =>
    if !isIdentifier family.name then
      .error (.badName family.name)
    else if !isIdentifier family.effectivePrefix then
      .error (.badPrefix family.effectivePrefix family.name)
    else if seen.contains family.name then
      .error (.repeatedEnum family.name)
    else
      checkFamilies (family.name :: seen) families

def validate (config : Config) : Except ConfigError Unit :=
  if config.versionMacro.toList.all Text.isBlank then
    .error .blankMacro
  else if config.enums.isEmpty then
    .error .noEnums
  else
    checkFamilies [] config.enums

end Config
end EnumBinding
