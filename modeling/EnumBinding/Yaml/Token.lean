/-!
# YAML tokens

What a YAML text is made of. The nesting of blocks, which the text shows by indentation alone, has tokens
of its own, and a key has one before it wherever it stands.
-/

namespace EnumBinding.Yaml

/-- A tag as written: a handle, empty for a tag that is spelled out, and what follows it. Both are byte
texts, since a tag may escape any byte. -/
structure TagName where
  handle : List Char
  suffix : List Char
deriving DecidableEq, Repr

inductive Token where
  | versionDirective (major minor : Nat)
  | tagDirective (handle : List Char) (stem : List Char)
  | documentStart
  | documentEnd
  | blockSequenceStart
  | blockMappingStart
  | blockEnd
  | flowSequenceStart
  | flowSequenceEnd
  | flowMappingStart
  | flowMappingEnd
  | blockEntry
  | flowEntry
  | key
  | value
  | alias (name : List Char)
  | anchor (name : List Char)
  | tag (name : TagName)
  | scalar (text : List Char) (plain : Bool)
deriving DecidableEq, Repr

end EnumBinding.Yaml
