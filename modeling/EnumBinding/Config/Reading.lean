import EnumBinding.Config
import EnumBinding.Yaml.Reader

/-!
# Reading a configuration

A configuration file is one YAML mapping. A key that is absent leaves its default, an unknown key is
passed over with its value, and a known one may stand there once only. Texts are taken from scalars as
they are written, whatever their tag. Nothing at all counts as an empty mapping or sequence. Aliases are
followed, though at most a hundred times as often as the document has marks.
-/

namespace EnumBinding.Config

open Yaml (Document Node)

/-- Reads a part of a document, and counts the aliases followed; `none` if the part has the wrong shape. -/
abbrev Reading := StateT Nat Option

namespace Reading

def wrongShape : Reading α := fun _ => none

def follow (document : Document) : Node → Reading Node
  | .alias number => fun followed => (document.target? number).map (·, followed + 1)
  | node => pure node

def text (document : Document) (node : Node) : Reading String := do
  match ← follow document node with
  | .scalar _ _ _ text => return text
  | _ => wrongShape

def entries (document : Document) (node : Node) : Reading (List (Node × Node)) := do
  match ← follow document node with
  | .mapping _ entries => return entries
  | .scalar _ _ true "" => return []
  | _ => wrongShape

def items (document : Document) (node : Node) : Reading (List Node) := do
  match ← follow document node with
  | .sequence _ items => return items
  | .scalar _ _ true "" => return []
  | _ => wrongShape

def nullTag : List Char := "tag:yaml.org,2002:null".toList

def isNull (text : String) : Bool := ["~", "null", "Null", "NULL"].contains text

/-- A text that may be absent. Only a scalar without quotes can say that it is: with no tag or with the tag
for null, which in turn allows nothing else. -/
def optionalText (document : Document) (node : Node) : Reading (Option String) := do
  match ← follow document node with
  | .scalar _ _ false text => return some text
  | .scalar _ none true text => return if text.isEmpty || isNull text then none else some text
  | .scalar _ (some tag) true text =>
    if tag ≠ nullTag then return some text
    else if isNull text then return none
    else wrongShape
  | _ => wrongShape

def once (old : Option α) (read : Reading α) : Reading (Option α) :=
  match old with
  | some _ => wrongShape
  | none => some <$> read

end Reading

open Reading

structure FamilyKeys where
  name : Option String := none
  memberPrefix : Option (Option String) := none

def FamilyKeys.add (document : Document) (keys : FamilyKeys) (entry : Node × Node) :
    Reading FamilyKeys := do
  match ← text document entry.1 with
  | "name" => return { keys with name := ← once keys.name (text document entry.2) }
  | "member_prefix" =>
    return { keys with memberPrefix := ← once keys.memberPrefix (optionalText document entry.2) }
  | _ => return keys

def readFamily (document : Document) (node : Node) : Reading Family := do
  let keys ← (← entries document node).foldlM (FamilyKeys.add document) {}
  match keys.name with
  | some name => return { name, memberPrefix := keys.memberPrefix.join }
  | none => wrongShape

structure Keys where
  header : Option String := none
  versionHeader : Option String := none
  versionMacro : Option String := none
  enums : Option (List Family) := none

def Keys.add (document : Document) (keys : Keys) (entry : Node × Node) : Reading Keys := do
  match ← text document entry.1 with
  | "header" => return { keys with header := ← once keys.header (text document entry.2) }
  | "version_header" =>
    return { keys with versionHeader := ← once keys.versionHeader (text document entry.2) }
  | "version_macro" =>
    return { keys with versionMacro := ← once keys.versionMacro (text document entry.2) }
  | "enums" =>
    let families := do (← items document entry.2).mapM (readFamily document)
    return { keys with enums := ← once keys.enums families }
  | _ => return keys

def ofKeys (keys : Keys) : Config :=
  let defaults : Config := {}
  { header := keys.header.getD defaults.header
    versionHeader := keys.versionHeader.getD defaults.versionHeader
    versionMacro := keys.versionMacro.getD defaults.versionMacro
    enums := keys.enums.getD defaults.enums }

/-- The configuration in a document, not yet validated. -/
def ofDocument? (document : Document) : Option Config := do
  let reading := do (← entries document document.root).foldlM (Keys.add document) {}
  let (keys, followed) ← reading.run 0
  -- One alias too many is an error wherever it stands, so it is enough to compare the sum.
  if followed ≤ 100 * document.marks then some (ofKeys keys) else none

def ofYaml (text : String) : Except ConfigError Config := do
  let config ← match Yaml.read? text with
    | none => .error .malformed
    | some none => .ok {}
    | some (some document) =>
      match ofDocument? document with
      | some config => .ok config
      | none => .error .malformed
  config.validate
  return config

end EnumBinding.Config
