import EnumBinding.Yaml.Lexer
import EnumBinding.Yaml.Node

/-!
# From tokens to nodes

A node begins with an anchor and a tag, in either order; with one of them it may be empty. The items of a
sequence may stand at the indentation of the mapping whose value it is. A stream holds one document at
most, which directives and its marks may surround.
-/

namespace EnumBinding.Yaml

abbrev Anchors := List (List Char × Nat)

def Anchors.bind (anchors : Anchors) (name : List Char) : Nat × Anchors :=
  (anchors.length, (name, anchors.length) :: anchors.filter (·.1 != name))

abbrev Handles := List (List Char × List Char)

def defaultHandles : Handles :=
  [(['!'], ['!']), (['!', '!'], "tag:yaml.org,2002:".toList)]

def TagName.resolve? (handles : Handles) (name : TagName) : Option (List Char) :=
  if name.handle.isEmpty then some name.suffix
  else (handles.lookup name.handle).map (· ++ name.suffix)

structure Properties where
  anchor : Option (List Char) := none
  tag : Option TagName := none

def properties : List Token → Properties × List Token
  | .anchor name :: .tag tag :: tokens => ({ anchor := some name, tag := some tag }, tokens)
  | .tag tag :: .anchor name :: tokens => ({ anchor := some name, tag := some tag }, tokens)
  | .anchor name :: tokens => ({ anchor := some name }, tokens)
  | .tag tag :: tokens => ({ tag := some tag }, tokens)
  | tokens => ({}, tokens)

structure Reader where
  tokens : List Token
  anchors : Anchors := []

/-- Where a node stands: in a flow collection, in a block, or in a block mapping, where the items of a
sequence need no indentation. -/
inductive Place where
  | flow
  | block
  | mapping
deriving DecidableEq

inductive Opening where
  | scalar (text : List Char) (plain : Bool)
  | flowSequence
  | flowMapping
  | blockSequence
  | blockMapping
  | unindentedSequence

/-- The opening of a node and the tokens behind it; that of an unindented sequence has none of its own. -/
def opening? (place : Place) : List Token → Option (Opening × List Token)
  | .scalar text plain :: tokens => some (.scalar text plain, tokens)
  | .flowSequenceStart :: tokens => some (.flowSequence, tokens)
  | .flowMappingStart :: tokens => some (.flowMapping, tokens)
  | .blockSequenceStart :: tokens => if place = .flow then none else some (.blockSequence, tokens)
  | .blockMappingStart :: tokens => if place = .flow then none else some (.blockMapping, tokens)
  | .blockEntry :: tokens =>
    if place = .mapping then some (.unindentedSequence, .blockEntry :: tokens) else none
  | _ => none

/-! ## Where nothing is written -/

def endsBlockItem : Token → Bool
  | .blockEntry | .blockEnd => true
  | _ => false

def endsBlockEntry : Token → Bool
  | .key | .value | .blockEnd => true
  | _ => false

def endsUnindentedItem : Token → Bool
  | .blockEntry | .key | .value | .blockEnd => true
  | _ => false

def endsFlowItem : Token → Bool
  | .flowEntry | .flowSequenceEnd => true
  | _ => false

def endsFlowEntry : Token → Bool
  | .flowEntry | .flowMappingEnd => true
  | _ => false

def endsDocument : Token → Bool
  | .versionDirective .. | .tagDirective .. | .documentStart | .documentEnd => true
  | _ => false

namespace Reader

def separated? (reader : Reader) (first : Bool) : Option Reader :=
  if first then
    some reader
  else
    match reader.tokens with
    | .flowEntry :: tokens => some { reader with tokens }
    | _ => none

mutual
def node? (handles : Handles) (place : Place) : Nat → Reader → Option (Node × Reader)
  | 0, _ => none
  | fuel + 1, reader =>
    match reader.tokens with
    | .alias name :: tokens =>
      (reader.anchors.lookup name).map fun number => (.alias number, { reader with tokens })
    | tokens => do
      let (properties, tokens) := properties tokens
      let tag ← match properties.tag with
        | none => some none
        | some name => (name.resolve? handles).map some
      -- The name is bound before the node is read, so an alias below the node may mean it.
      let (anchor, anchors) := match properties.anchor with
        | none => (none, reader.anchors)
        | some name => let (number, anchors) := reader.anchors.bind name; (some number, anchors)
      match opening? place tokens with
      | some (.scalar text plain, tokens) =>
        return (.scalar anchor tag plain (String.ofList text), { tokens, anchors })
      | some (.flowSequence, tokens) =>
        let (items, reader) ← flowItems? handles true fuel { tokens, anchors }
        return (.sequence anchor items, reader)
      | some (.flowMapping, tokens) =>
        let (entries, reader) ← flowEntries? handles true fuel { tokens, anchors }
        return (.mapping anchor entries, reader)
      | some (.blockSequence, tokens) =>
        let (items, reader) ← blockItems? handles fuel { tokens, anchors }
        return (.sequence anchor items, reader)
      | some (.blockMapping, tokens) =>
        let (entries, reader) ← blockEntries? handles fuel { tokens, anchors }
        return (.mapping anchor entries, reader)
      | some (.unindentedSequence, tokens) =>
        let (items, reader) ← unindentedItems? handles fuel { tokens, anchors }
        return (.sequence anchor items, reader)
      | none =>
        if properties.anchor.isNone && properties.tag.isNone then none
        return (.scalar anchor tag true "", { tokens, anchors })

def optional? (handles : Handles) (place : Place) (ends : Token → Bool) :
    Nat → Reader → Option (Node × Reader)
  | 0, _ => none
  | fuel + 1, reader =>
    if reader.tokens.head?.any ends then some (.empty, reader) else node? handles place fuel reader

def value? (handles : Handles) (place : Place) (ends : Token → Bool) :
    Nat → Reader → Option (Node × Reader)
  | 0, _ => none
  | fuel + 1, reader =>
    match reader.tokens with
    | .value :: tokens => optional? handles place ends fuel { reader with tokens }
    | _ => some (.empty, reader)

def blockItems? (handles : Handles) : Nat → Reader → Option (List Node × Reader)
  | 0, _ => none
  | fuel + 1, reader =>
    match reader.tokens with
    | .blockEntry :: tokens => do
      let (item, reader) ← optional? handles .block endsBlockItem fuel { reader with tokens }
      let (items, reader) ← blockItems? handles fuel reader
      return (item :: items, reader)
    | .blockEnd :: tokens => some ([], { reader with tokens })
    | _ => none

def unindentedItems? (handles : Handles) : Nat → Reader → Option (List Node × Reader)
  | 0, _ => none
  | fuel + 1, reader =>
    match reader.tokens with
    | .blockEntry :: tokens => do
      let (item, reader) ← optional? handles .block endsUnindentedItem fuel { reader with tokens }
      let (items, reader) ← unindentedItems? handles fuel reader
      return (item :: items, reader)
    | _ => some ([], reader)

def blockEntries? (handles : Handles) : Nat → Reader → Option (List (Node × Node) × Reader)
  | 0, _ => none
  | fuel + 1, reader =>
    match reader.tokens with
    | .key :: tokens => do
      let (key, reader) ← optional? handles .mapping endsBlockEntry fuel { reader with tokens }
      let (value, reader) ← value? handles .mapping endsBlockEntry fuel reader
      let (entries, reader) ← blockEntries? handles fuel reader
      return ((key, value) :: entries, reader)
    | .blockEnd :: tokens => some ([], { reader with tokens })
    | _ => none

/-- Reads the items of a flow sequence; a key among them makes a mapping of one entry. Where its key is
missing, the token found in its place is passed over. -/
def flowItems? (handles : Handles) (first : Bool) : Nat → Reader → Option (List Node × Reader)
  | 0, _ => none
  | fuel + 1, reader =>
    match reader.tokens with
    | .flowSequenceEnd :: tokens => some ([], { reader with tokens })
    | _ => do
      let reader ← reader.separated? first
      match reader.tokens with
      | .flowSequenceEnd :: tokens => return ([], { reader with tokens })
      | .key :: tokens =>
        let (key, reader) ←
          if tokens.head?.any fun token => endsFlowItem token || token == .value then
            some (.empty, { reader with tokens := tokens.drop 1 })
          else
            node? handles .flow fuel { reader with tokens }
        let (value, reader) ← value? handles .flow endsFlowItem fuel reader
        let (items, reader) ← flowItems? handles false fuel reader
        return (.mapping none [(key, value)] :: items, reader)
      | _ =>
        let (item, reader) ← node? handles .flow fuel reader
        let (items, reader) ← flowItems? handles false fuel reader
        return (item :: items, reader)

def flowEntries? (handles : Handles) (first : Bool) :
    Nat → Reader → Option (List (Node × Node) × Reader)
  | 0, _ => none
  | fuel + 1, reader =>
    match reader.tokens with
    | .flowMappingEnd :: tokens => some ([], { reader with tokens })
    | _ => do
      let reader ← reader.separated? first
      match reader.tokens with
      | .flowMappingEnd :: tokens => return ([], { reader with tokens })
      | .key :: tokens =>
        let (key, reader) ←
          optional? handles .flow (fun token => endsFlowEntry token || token == .value) fuel
            { reader with tokens }
        let (value, reader) ← value? handles .flow endsFlowEntry fuel reader
        let (entries, reader) ← flowEntries? handles false fuel reader
        return ((key, value) :: entries, reader)
      | _ =>
        let (key, reader) ← node? handles .flow fuel reader
        let (entries, reader) ← flowEntries? handles false fuel reader
        return ((key, .empty) :: entries, reader)
end

end Reader

/-- Reads directives: at most one of the version, which must be 1.1 or 1.2, and one for each handle. -/
def directives? (versioned : Bool) (handles : Handles) : List Token → Option (Handles × List Token)
  | .versionDirective major minor :: tokens =>
    if versioned ∨ major ≠ 1 ∨ (minor ≠ 1 ∧ minor ≠ 2) then none
    else directives? true handles tokens
  | .tagDirective handle stem :: tokens =>
    if handles.any (·.1 == handle) then none
    else directives? versioned (handles ++ [(handle, stem)]) tokens
  | tokens => some (handles, tokens)

def root? (handles : Handles) (tokens : List Token) : Option (Node × List Token) :=
  (Reader.node? (handles ++ defaultHandles) .block (4 * tokens.length + 4) { tokens }).map
    fun (root, reader) => (root, reader.tokens)

def first? (tokens : List Token) : Option (Node × List Token) :=
  match tokens with
  | .versionDirective .. :: _ | .tagDirective .. :: _ | .documentStart :: _ => do
    let (handles, tokens) ← directives? false [] tokens
    match tokens with
    | .documentStart :: tokens =>
      if tokens.head?.all endsDocument then some (.empty, tokens) else root? handles tokens
    | _ => none
  | _ => root? [] tokens

def document? (tokens : List Token) : Option (Option Document) :=
  if tokens.isEmpty then
    some none
  else do
    let (root, tokens) ← first? tokens
    if tokens.dropWhile (· == .documentEnd) = [] then some (some (.ofRoot root)) else none

/-- Reads a YAML text: `none` if it is not YAML, and no document if there is nothing in it. -/
def read? (text : String) : Option (Option Document) := (tokens? text.toList).bind document?

end EnumBinding.Yaml
