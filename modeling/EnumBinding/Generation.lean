import EnumBinding.Config
import EnumBinding.Declaration
import EnumBinding.Preamble

/-!
# Generation

The whole Go file made from the two headers: the preamble and then one declaration for each configured
enum. The first enum without a definition ends the generation, and nothing is produced.
-/

namespace EnumBinding

structure DeclarationSummary where
  enumName : String
  typeName : String
  constantCount : Nat
deriving DecidableEq, Repr

structure Summary where
  buildVersion : String
  declarations : List DeclarationSummary
deriving DecidableEq, Repr

def Summary.constantCount (summary : Summary) : Nat :=
  summary.declarations.foldr (fun declaration count => declaration.constantCount + count) 0

def Declaration.summary (declaration : Declaration) : DeclarationSummary where
  enumName := declaration.enumName
  typeName := declaration.typeName
  constantCount := declaration.constants.length

namespace Generation

def declaration (header : String) (family : Family) : Except Error Declaration :=
  match Header.locate? header family.name with
  | none => .error (.enumNotFound family.name)
  | some block =>
    match Header.members header block family.effectivePrefix with
    | .ok members => .ok (Declaration.ofMembers family.name members)
    | .error _ => .error .badOffset

def closeText (text : String) : String :=
  String.ofList (Text.trimEnd text.toList) ++ "\n"

/-- The Go file for two headers, and what it declares. -/
def source (header versionHeader : String) (config : Config) : Except Error (String × Summary) := do
  -- The version is looked up first, so its error wins over that of a missing enum.
  let buildVersion ← match Header.version? versionHeader config.versionMacro with
    | some version => pure version
    | none => .error (.versionNotFound config.versionMacro)
  let declarations ← config.enums.mapM (declaration header)
  let text := Preamble.source buildVersion ++ String.join (declarations.map Declaration.source)
  return (closeText text, { buildVersion, declarations := declarations.map Declaration.summary })

end Generation
end EnumBinding
