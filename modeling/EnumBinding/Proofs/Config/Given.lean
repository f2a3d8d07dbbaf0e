import EnumBinding.Proofs.CommandLine.Serving
import EnumBinding.Proofs.Identifier
import EnumBinding.Proofs.Yaml.Layout

/-!
# Configuration files as they are written

A file gives some of the settings, in any order and with unknown keys between
them, and leaves the others out. It is read as the configuration that has what
the file gives, and the defaults elsewhere (`ofYaml_given`).
-/

namespace EnumBinding.Config

open Reading
open Yaml (Document Entry Item Node isQuotable)

-- ---------------------------------------------------------------------------
-- What a file holds
-- ---------------------------------------------------------------------------

/-- A text that means itself between double quotes. -/
structure Quotable where
  text : String
  quotable : text.toList.all isQuotable = true

def knownKeys : List String := ["header", "version_header", "version_macro", "enums"]

structure UnknownKey where
  name : String
  identifier : isIdentifier name = true
  unknown : name ∉ knownKeys

structure GivenFamily where
  name : Quotable
  memberPrefix : Option Quotable
  /-- Whether the prefix is written before the name. -/
  prefixFirst : Bool

def GivenFamily.family (family : GivenFamily) : Family :=
  ⟨family.name.text, family.memberPrefix.map Quotable.text⟩

inductive Given where
  | header (value : Quotable)
  | versionHeader (value : Quotable)
  | versionMacro (value : Quotable)
  | enums (families : List GivenFamily)
  | unknown (key : UnknownKey) (value : Quotable)

inductive Slot where
  | header
  | versionHeader
  | versionMacro
  | enums
deriving DecidableEq

namespace Given

def key : Given → String
  | header _ => "header"
  | versionHeader _ => "version_header"
  | versionMacro _ => "version_macro"
  | enums _ => "enums"
  | unknown key _ => key.name

def slot? : Given → Option Slot
  | header _ => some .header
  | versionHeader _ => some .versionHeader
  | versionMacro _ => some .versionMacro
  | enums _ => some .enums
  | unknown .. => none

@[simp] def header? : Given → Option String
  | header value => some value.text
  | _ => none

@[simp] def versionHeader? : Given → Option String
  | versionHeader value => some value.text
  | _ => none

@[simp] def versionMacro? : Given → Option String
  | versionMacro value => some value.text
  | _ => none

@[simp] def enums? : Given → Option (List Family)
  | enums families => some (families.map GivenFamily.family)
  | _ => none

end Given

structure GivenFile where
  givens : List Given
  once : (givens.filterMap Given.slot?).Nodup
  /-- The column of the dashes of a list. -/
  indent : Nat
  deeper : 0 < indent

def GivenFile.config (file : GivenFile) : Config :=
  let defaults : Config := {}
  { header := (file.givens.findSome? Given.header?).getD defaults.header
    versionHeader := (file.givens.findSome? Given.versionHeader?).getD defaults.versionHeader
    versionMacro := (file.givens.findSome? Given.versionMacro?).getD defaults.versionMacro
    enums := (file.givens.findSome? Given.enums?).getD defaults.enums }

-- ---------------------------------------------------------------------------
-- How it is written
-- ---------------------------------------------------------------------------

def Quotable.written (value : Quotable) : List Char :=
  ' ' :: '"' :: (value.text.toList ++ ['"', '\n'])

def quotedLine (key : String) (value : Quotable) : List Char := key.toList ++ ':' :: value.written

def GivenFamily.text (indent : Nat) (family : GivenFamily) : List Char :=
  List.replicate indent ' ' ++ '-' :: ' ' ::
    match family.memberPrefix with
    | none => quotedLine "name" family.name
    | some memberPrefix =>
      if family.prefixFirst then
        quotedLine "member_prefix" memberPrefix ++
          (List.replicate (indent + 2) ' ' ++ quotedLine "name" family.name)
      else
        quotedLine "name" family.name ++
          (List.replicate (indent + 2) ' ' ++ quotedLine "member_prefix" memberPrefix)

/-- What stands behind the colon of a key, up to the end of its last line. -/
def Given.written (indent : Nat) : Given → List Char
  | header value | versionHeader value | versionMacro value | unknown _ value => value.written
  | enums [] => [' ', '[', ']', '\n']
  | enums families => '\n' :: families.flatMap (GivenFamily.text indent)

def Given.text (indent : Nat) (given : Given) : List Char :=
  given.key.toList ++ ':' :: given.written indent

def GivenFile.text (file : GivenFile) : List Char := file.givens.flatMap (Given.text file.indent)

/-- No key is longer than YAML allows. -/
def GivenFile.Fits (file : GivenFile) : Prop := ∀ given ∈ file.givens, given.key.length ≤ 1024

-- ---------------------------------------------------------------------------
-- Its document
-- ---------------------------------------------------------------------------

def Quotable.entry (key : String) (value : Quotable) : Entry where
  key := key.toList
  value := value.written
  tokens := [.scalar value.text.toList false]
  node := .scalar none none false value.text

def GivenFamily.item (family : GivenFamily) : Item :=
  match family.memberPrefix with
  | none => ⟨family.name.entry "name", []⟩
  | some memberPrefix =>
    if family.prefixFirst then
      ⟨memberPrefix.entry "member_prefix", [family.name.entry "name"]⟩
    else
      ⟨family.name.entry "name", [memberPrefix.entry "member_prefix"]⟩

def Given.entry (indent : Nat) : Given → Entry
  | header value => value.entry "header"
  | versionHeader value => value.entry "version_header"
  | versionMacro value => value.entry "version_macro"
  | unknown key value => value.entry key.name
  | enums [] =>
    { key := "enums".toList
      value := [' ', '[', ']', '\n']
      tokens := [.flowSequenceStart, .flowSequenceEnd]
      node := .sequence none [] }
  | enums families =>
    { key := "enums".toList
      value := '\n' :: Item.lines indent (families.map GivenFamily.item)
      tokens := .blockSequenceStart :: (((families.map GivenFamily.item).flatMap fun item =>
        .blockEntry :: item.allTokens) ++ [.blockEnd])
      node := .sequence none ((families.map GivenFamily.item).map Item.node) }

theorem GivenFamily.text_eq (indent : Nat) (family : GivenFamily) :
    family.text indent =
      List.replicate indent ' ' ++ '-' :: ' ' :: family.item.body indent := by
  have hline (key : String) (value : Quotable) :
      (value.entry key).text = quotedLine key value := rfl
  unfold text item
  split
  · simp [Item.body, Entry.lines, hline]
  · split <;> simp [Item.body, Entry.lines, hline]

theorem Given.key_entry (indent : Nat) (given : Given) :
    (given.entry indent).key = given.key.toList := by
  cases given with
  | enums families => cases families <;> rfl
  | _ => rfl

theorem Given.value_entry (indent : Nat) (given : Given) :
    (given.entry indent).value = given.written indent := by
  cases given with
  | enums families =>
    cases families with
    | nil => rfl
    | cons family families =>
      have hlines : Item.lines indent ((family :: families).map GivenFamily.item) =
          (family :: families).flatMap (GivenFamily.text indent) := by
        rw [Item.lines, List.flatMap_map, funext (GivenFamily.text_eq indent)]
      exact congrArg ('\n' :: ·) hlines
  | _ => rfl

theorem Given.text_eq (indent : Nat) (given : Given) :
    given.text indent = (given.entry indent).text := by
  rw [text, Entry.text, key_entry, value_entry]

theorem GivenFile.text_eq (file : GivenFile) :
    file.text = Entry.lines 0 (file.givens.map (Given.entry file.indent)) := by
  rw [text, funext (Given.text_eq file.indent)]
  simp [Entry.lines, List.flatMap_map]

theorem isKey_of_isIdentifier {name : String} (h : isIdentifier name = true) :
    Yaml.IsKey name.toList := by
  have hword (c : Char) (hc : isIdentifierRest c = true) : Yaml.isWordChar c = true := by
    rcases (by simpa [isIdentifierRest] using hc : c = '_' ∨ c.isAlphanum = true) with rfl | hc
    · rfl
    · simp [Yaml.isWordChar, hc]
  refine ⟨List.all_eq_true.mpr fun c hc =>
    hword c (List.all_eq_true.mp (all_isIdentifierRest h) c hc), ?_⟩
  unfold isIdentifier at h
  split at h
  · cases h
  · next c cs hname =>
    exact ⟨c, cs, hname, Text.ne_of_kind (Bool.and_eq_true_iff.mp h).1 rfl⟩

theorem Quotable.regular_entry (value : Quotable) (key : String) {column : Nat}
    (hkey : isIdentifier key = true) (hshort : key.length ≤ 1024) :
    (value.entry key).Regular column where
  key := isKey_of_isIdentifier hkey
  short := hshort
  alone := fun _ => rfl
  spells := Yaml.spells_quoted value.quotable
  reads := by
    have hreads := Yaml.Reader.node?_scalar .mapping value.text.toList false
    rwa [String.ofList_toList] at hreads

theorem GivenFamily.regular_item (family : GivenFamily) (column : Nat) :
    family.item.Regular column := by
  have hname (value : Quotable) : (value.entry "name").Regular (column + 2) :=
    value.regular_entry "name" rfl (by decide)
  have hprefix (value : Quotable) : (value.entry "member_prefix").Regular (column + 2) :=
    value.regular_entry "member_prefix" rfl (by decide)
  unfold item
  split
  · simp [Item.Regular, Item.entries, hname]
  · split <;> simp [Item.Regular, Item.entries, hname, hprefix]

theorem Given.isIdentifier_key (given : Given) : isIdentifier given.key = true := by
  cases given with
  | header => exact (rfl : isIdentifier "header" = true)
  | versionHeader => exact (rfl : isIdentifier "version_header" = true)
  | versionMacro => exact (rfl : isIdentifier "version_macro" = true)
  | enums => exact (rfl : isIdentifier "enums" = true)
  | unknown key => exact key.identifier

theorem Given.isKey_entry (indent : Nat) (given : Given) : Yaml.IsKey (given.entry indent).key := by
  rw [key_entry]
  exact isKey_of_isIdentifier given.isIdentifier_key

theorem Given.alone_entry (indent : Nat) (given : Given) (rest : List Char) :
    Yaml.standsAlone ((given.entry indent).value ++ rest) = true := by
  cases given with
  | enums families => cases families <;> rfl
  | _ => rfl

theorem Given.regular_entry {indent : Nat} (hindent : 0 < indent) (given : Given)
    (hfits : given.key.length ≤ 1024) : (given.entry indent).Regular 0 := by
  cases given with
  | header value => exact value.regular_entry "header" rfl hfits
  | versionHeader value => exact value.regular_entry "version_header" rfl hfits
  | versionMacro value => exact value.regular_entry "version_macro" rfl hfits
  | unknown key value => exact value.regular_entry key.name key.identifier hfits
  | enums families =>
    have hkey := (Given.enums families).isKey_entry indent
    have halone := (Given.enums families).alone_entry indent
    cases families with
    | nil =>
      exact ⟨hkey, hfits, halone, Yaml.spells_emptySequence, Yaml.Reader.node?_emptySequence⟩
    | cons family families =>
      have hitems : ∀ item ∈ (family :: families).map GivenFamily.item, item.Regular indent := by
        intro item hitem
        obtain ⟨family, -, rfl⟩ := List.mem_map.mp hitem
        exact family.regular_item indent
      exact ⟨hkey, hfits, halone, Yaml.spells_items hindent hitems, Yaml.reads_items hitems⟩

theorem Given.regular_entries {indent : Nat} (hindent : 0 < indent) {givens : List Given}
    (hfits : ∀ given ∈ givens, given.key.length ≤ 1024) :
    ∀ entry ∈ givens.map (Given.entry indent), entry.Regular 0 := by
  intro entry hentry
  obtain ⟨given, hgiven, rfl⟩ := List.mem_map.mp hentry
  exact given.regular_entry hindent (hfits given hgiven)

-- ---------------------------------------------------------------------------
-- Its characters
-- ---------------------------------------------------------------------------

theorem allowed_key {key : String} (h : isIdentifier key = true) :
    key.toList.all Yaml.isAllowed = true := by
  refine List.all_eq_true.mpr fun c hc => ?_
  obtain ⟨hfirst, hlast⟩ :=
    toNat_of_isIdentifierRest (List.all_eq_true.mp (all_isIdentifierRest h) c hc)
  exact Yaml.isAllowed_of_toNat (by omega) (by omega)

theorem Quotable.allowed_written (value : Quotable) :
    value.written.all Yaml.isAllowed = true := by
  have hvalue : value.text.toList.all Yaml.isAllowed = true :=
    List.all_eq_true.mpr fun c hc =>
      Yaml.isAllowed_of_isQuotable (List.all_eq_true.mp value.quotable c hc)
  have hspace : Yaml.isAllowed ' ' = true := rfl
  have hquote : Yaml.isAllowed '"' = true := rfl
  have hline : Yaml.isAllowed '\n' = true := rfl
  simp only [written, List.all_append, List.all_cons, List.all_nil, hvalue, hspace, hquote, hline,
    Bool.and_self]

theorem allowed_quotedLine (key : String) (hkey : isIdentifier key = true) (value : Quotable) :
    (quotedLine key value).all Yaml.isAllowed = true := by
  rw [quotedLine, List.all_append, List.all_cons, allowed_key hkey, value.allowed_written]
  rfl

theorem GivenFamily.allowed_text (indent : Nat) (family : GivenFamily) :
    (family.text indent).all Yaml.isAllowed = true := by
  have hindent (count : Nat) : (List.replicate count ' ').all Yaml.isAllowed = true := by
    rw [List.all_replicate]
    split <;> rfl
  have hname := allowed_quotedLine "name" rfl
  have hprefix := allowed_quotedLine "member_prefix" rfl
  have hspace : Yaml.isAllowed ' ' = true := rfl
  have hdash : Yaml.isAllowed '-' = true := rfl
  rw [text, List.all_append, List.all_cons, List.all_cons, hindent, hspace, hdash]
  split
  · exact hname _
  · split <;> simp only [List.all_append, hname, hprefix, hindent, Bool.and_self]

theorem Given.allowed_written (indent : Nat) (given : Given) :
    (given.written indent).all Yaml.isAllowed = true := by
  cases given with
  | enums families =>
    cases families with
    | nil => rfl
    | cons family families =>
      have hitems : ((family :: families).flatMap (GivenFamily.text indent)).all Yaml.isAllowed =
          true := by
        rw [List.all_flatMap]
        exact List.all_eq_true.mpr fun family _ => family.allowed_text indent
      exact hitems
  | header value | versionHeader value | versionMacro value | unknown _ value =>
    exact value.allowed_written

theorem Given.allowed_text (indent : Nat) (given : Given) :
    (given.text indent).all Yaml.isAllowed = true := by
  rw [text, List.all_append, List.all_cons, allowed_key given.isIdentifier_key,
    given.allowed_written indent]
  rfl

theorem GivenFile.allowed_text (file : GivenFile) : file.text.all Yaml.isAllowed = true := by
  rw [text, List.all_flatMap]
  exact List.all_eq_true.mpr fun given _ => given.allowed_text file.indent

-- ---------------------------------------------------------------------------
-- Its configuration
-- ---------------------------------------------------------------------------

variable {α : Type} {document : Document} {keys : Keys}

@[simp] theorem text_scalar (document : Document) (anchor : Option Nat) (tag : Option (List Char))
    (plain : Bool) (text : String) :
    Reading.text document (.scalar anchor tag plain text) = pure text := rfl

@[simp] theorem items_sequence (document : Document) (anchor : Option Nat) (nodes : List Node) :
    Reading.items document (.sequence anchor nodes) = pure nodes := rfl

@[simp] theorem once_none (read : Reading α) : once none read = some <$> read := rfl

theorem readFamily_item (document : Document) (family : GivenFamily) :
    readFamily document family.item.node = pure family.family := by
  obtain ⟨name, memberPrefix, prefixFirst⟩ := family
  cases memberPrefix with
  | none => rfl
  | some memberPrefix => cases prefixFirst <;> rfl

theorem mapM_readFamily (document : Document) (families : List GivenFamily) :
    ((families.map GivenFamily.item).map Item.node).mapM (readFamily document) =
      pure (families.map GivenFamily.family) := by
  induction families with
  | nil => rfl
  | cons family families ih =>
    rw [List.map_cons, List.map_cons, List.mapM_cons, readFamily_item, ih]
    rfl

def Keys.give (keys : Keys) (given : Given) : Keys where
  header := keys.header.or given.header?
  versionHeader := keys.versionHeader.or given.versionHeader?
  versionMacro := keys.versionMacro.or given.versionMacro?
  enums := keys.enums.or given.enums?

def Keys.lacks (keys : Keys) : Slot → Prop
  | .header => keys.header = none
  | .versionHeader => keys.versionHeader = none
  | .versionMacro => keys.versionMacro = none
  | .enums => keys.enums = none

theorem Keys.give_lacks {slot : Slot} {given : Given} (h : keys.lacks slot)
    (hslot : given.slot? ≠ some slot) : (keys.give given).lacks slot := by
  cases slot <;> cases given <;> first
    | exact absurd rfl hslot
    | simpa [lacks, give, Given.header?, Given.versionHeader?, Given.versionMacro?, Given.enums?]
        using h

theorem Keys.add_entry (document : Document) (indent : Nat) (given : Given)
    (h : ∀ slot ∈ given.slot?, keys.lacks slot) :
    Keys.add document keys (given.entry indent).nodes = pure (keys.give given) := by
  cases given with
  | header value =>
    have hnone : keys.header = none := h .header rfl
    simp [add, give, Entry.nodes, Given.entry, Quotable.entry, hnone]
  | versionHeader value =>
    have hnone : keys.versionHeader = none := h .versionHeader rfl
    simp [add, give, Entry.nodes, Given.entry, Quotable.entry, hnone]
  | versionMacro value =>
    have hnone : keys.versionMacro = none := h .versionMacro rfl
    simp [add, give, Entry.nodes, Given.entry, Quotable.entry, hnone]
  | unknown key value =>
    have hunknown := key.unknown
    simp only [knownKeys, List.mem_cons, List.not_mem_nil, or_false, not_or] at hunknown
    simp [add, give, Entry.nodes, Given.entry, Quotable.entry, hunknown]
  | enums families =>
    have hnone : keys.enums = none := h .enums rfl
    have hnodes : (Given.entry indent (.enums families)).nodes =
        (.scalar none none true (String.ofList "enums".toList),
          .sequence none ((families.map GivenFamily.item).map Item.node)) := by
      cases families <;> rfl
    rw [hnodes]
    simp [-List.map_map, -List.mapM_map, add, give, hnone, mapM_readFamily]

theorem foldlM_add (keys : Keys) (document : Document) (indent : Nat) {givens : List Given}
    (honce : (givens.filterMap Given.slot?).Nodup)
    (hlacks : ∀ slot ∈ givens.filterMap Given.slot?, keys.lacks slot) :
    (givens.map fun given => (given.entry indent).nodes).foldlM (Keys.add document) keys =
      pure (givens.foldl Keys.give keys) := by
  -- No setting that is still to come has been read.
  induction givens generalizing keys with
  | nil => rfl
  | cons given givens ih =>
    have hadd := Keys.add_entry document indent given fun slot hslot =>
      hlacks slot (List.mem_filterMap.mpr ⟨given, List.mem_cons_self, hslot⟩)
    have hothers : (givens.filterMap Given.slot?).Nodup ∧
        ∀ slot ∈ givens.filterMap Given.slot?, (keys.give given).lacks slot := by
      cases hslot : given.slot? with
      | none =>
        rw [List.filterMap_cons_none hslot] at honce hlacks
        exact ⟨honce, fun slot hmem => Keys.give_lacks (hlacks slot hmem) (by simp [hslot])⟩
      | some filled =>
        rw [List.filterMap_cons_some hslot] at honce hlacks
        obtain ⟨hfilled, honce⟩ := List.nodup_cons.mp honce
        refine ⟨honce, fun slot hmem => Keys.give_lacks (hlacks slot (.tail _ hmem)) ?_⟩
        rintro hsame
        obtain rfl := Option.some.inj (hslot.symm.trans hsame)
        exact hfilled hmem
    rw [List.map_cons, List.foldlM_cons, hadd, pure_bind, ih _ hothers.1 hothers.2, List.foldl_cons]

/-- Where a setting is given once at most, it does not matter how often it is looked for. -/
theorem foldl_give {α : Type} (setting : Keys → Option α) (given? : Given → Option α)
    (h : ∀ keys given, setting (keys.give given) = (setting keys).or (given? given))
    (givens : List Given) (keys : Keys) :
    setting (givens.foldl Keys.give keys) = (setting keys).or (givens.findSome? given?) := by
  induction givens generalizing keys with
  | nil => simp
  | cons given givens ih =>
    rw [List.foldl_cons, ih, h, List.findSome?_cons]
    cases setting keys <;> cases given? given <;> simp

theorem ofKeys_given (file : GivenFile) : ofKeys (file.givens.foldl Keys.give {}) = file.config := by
  simp only [ofKeys, GivenFile.config]
  rw [foldl_give Keys.header Given.header? fun _ _ => rfl,
    foldl_give Keys.versionHeader Given.versionHeader? fun _ _ => rfl,
    foldl_give Keys.versionMacro Given.versionMacro? fun _ _ => rfl,
    foldl_give Keys.enums Given.enums? fun _ _ => rfl]
  simp only [Option.none_or]

-- ---------------------------------------------------------------------------
-- Reading a file
-- ---------------------------------------------------------------------------

variable {text : String} {config : Config}

theorem ok_bind_validate (config : Config) :
    (Except.ok config >>= fun config => do config.validate; return config) =
      config.validate.map fun _ => config := by
  change (config.validate >>= fun _ => .ok config) = _
  cases config.validate <;> rfl

theorem ofYaml_of_nothing (hread : Yaml.read? text = some none) :
    ofYaml text = ({} : Config).validate.map fun _ => {} := by
  simp only [ofYaml, hread]
  exact ok_bind_validate {}

theorem ofYaml_of_document (hread : Yaml.read? text = some (some document))
    (hdocument : ofDocument? document = some config) :
    ofYaml text = config.validate.map fun _ => config := by
  simp only [ofYaml, hread, hdocument]
  exact ok_bind_validate config

theorem ofYaml_of_malformed (hread : Yaml.read? text = none) : ofYaml text = .error .malformed := by
  simp only [ofYaml, hread]
  rfl

theorem ofDocument?_file (file : GivenFile) :
    ofDocument? (.ofRoot (.mapping none (file.givens.map fun given =>
      (given.entry file.indent).nodes))) = some file.config := by
  let document := Document.ofRoot (.mapping none (file.givens.map fun given =>
    (given.entry file.indent).nodes))
  have hkeys := foldlM_add {} document file.indent file.once fun slot _ => by
    cases slot <;> rfl
  have hentries : Reading.entries document document.root =
      pure (file.givens.map fun given => (given.entry file.indent).nodes) := rfl
  change ofDocument? document = _
  simp only [ofDocument?, hentries, pure_bind, hkeys]
  rw [← ofKeys_given]
  simp

theorem read?_file (file : GivenFile) (hfits : file.Fits) (hne : file.givens ≠ []) :
    Yaml.read? (String.ofList file.text) =
      some (some (.ofRoot (.mapping none (file.givens.map fun given =>
        (given.entry file.indent).nodes)))) := by
  have hregular := Given.regular_entries file.deeper hfits
  have hallowed := file.allowed_text
  rw [file.text_eq] at hallowed ⊢
  rw [Yaml.read?_entries (by simpa using hne) hregular hallowed, List.map_map]
  rfl

theorem ofYaml_fits (file : GivenFile) (hfits : file.Fits) :
    ofYaml (String.ofList file.text) = file.config.validate.map fun _ => file.config := by
  by_cases hne : file.givens = []
  · have htext : file.text = [] := by simp [GivenFile.text, hne]
    have hconfig : file.config = {} := by simp [GivenFile.config, hne]
    rw [htext, hconfig]
    exact ofYaml_of_nothing rfl
  · exact ofYaml_of_document (read?_file file hfits hne) (ofDocument?_file file)

theorem ofYaml_long (file : GivenFile) (hlong : ¬ file.Fits) :
    ofYaml (String.ofList file.text) = .error .malformed := by
  -- The lines before the first long key are read.
  obtain ⟨before, given, after, hgivens, hbefore, hgiven⟩ :
      ∃ before given after, file.givens = before ++ given :: after ∧
        (∀ given ∈ before, given.key.length ≤ 1024) ∧ 1024 < given.key.length := by
    obtain ⟨given, hgiven, hlong⟩ : ∃ given ∈ file.givens, 1024 < given.key.length := by
      simpa [GivenFile.Fits] using hlong
    obtain ⟨found, hfound⟩ := Option.isSome_iff_exists.mp
      (List.find?_isSome (p := fun given : Given => 1024 < given.key.length).mpr
        ⟨given, hgiven, by simpa using hlong⟩)
    obtain ⟨hfound, before, after, hsplit, hbefore⟩ := List.find?_eq_some_iff_append.mp hfound
    exact ⟨before, found, after, hsplit, by simpa using hbefore, by simpa using hfound⟩
  have hregular := Given.regular_entries file.deeper hbefore
  have htext : file.text = Entry.lines 0 (before.map (Given.entry file.indent)) ++
      ((given.entry file.indent).text ++ Entry.lines 0 (after.map (Given.entry file.indent))) := by
    rw [file.text_eq, hgivens]
    simp [Entry.lines]
  rw [htext]
  have hkey : 1024 < (given.entry file.indent).key.length := by
    rw [given.key_entry]
    exact hgiven
  exact ofYaml_of_malformed (Yaml.read?_longKey hregular (given.isKey_entry file.indent) hkey
    (given.alone_entry file.indent) _)

/-- A file is read as the configuration that it asks for, if that is valid; else the answer is the first
offence. A key that is too long makes the file no YAML. However a configuration was read, it is valid. -/
theorem ofYaml_given :
    (∀ file : GivenFile, file.Fits →
      ofYaml (String.ofList file.text) = file.config.validate.map fun _ => file.config) ∧
    (∀ file : GivenFile, ¬ file.Fits → ofYaml (String.ofList file.text) = .error .malformed) ∧
    (∀ text config, ofYaml text = .ok config → config.validate = .ok ()) ∧
    ∀ path tree config, ((load path : Generation.OnTree Config).run tree).1 = .ok config →
      config.validate = .ok () :=
  ⟨ofYaml_fits, ofYaml_long, fun _ _ => validate_ofYaml, fun path tree config h =>
    have hloaded : CommandLine.loaded (some path) tree = .ok config := h
    CommandLine.validate_loaded hloaded⟩

/-- Two enums, one with its prefix first, and a value that would be a comment without its quotes. -/
def lensFile : GivenFile where
  givens := [
    .unknown ⟨"mode", rfl, by decide⟩ ⟨"a: b # c", rfl⟩,
    .enums [⟨⟨"lens_mode", rfl⟩, none, false⟩, ⟨⟨"lens_kind", rfl⟩, some ⟨"lens", rfl⟩, true⟩],
    .versionMacro ⟨"LENS_VERSION", rfl⟩]
  once := by decide
  indent := 2
  deeper := by decide

def lensConfig : Config :=
  { versionMacro := "LENS_VERSION"
    enums := [{ name := "lens_mode" }, { name := "lens_kind", memberPrefix := some "lens" }] }

theorem isIdentifier_replicate (count : Nat) :
    isIdentifier (String.ofList (List.replicate (count + 1) 'a')) = true := by
  have hrest : isIdentifierRest 'a' = true := rfl
  have hstart : isIdentifierStart 'a' = true := rfl
  rw [isIdentifier, String.toList_ofList, List.replicate_succ]
  simp [hrest, hstart]

def longKey : UnknownKey where
  name := String.ofList (List.replicate 1025 'a')
  identifier := isIdentifier_replicate 1024
  unknown := by
    intro hmem
    have hshort : ∀ key ∈ knownKeys, key.length ≤ 14 := by decide
    have hlength := hshort _ hmem
    rw [String.length_ofList, List.length_replicate] at hlength
    exact absurd hlength (by decide)

def longFile : GivenFile where
  givens := [.unknown longKey ⟨"x", rfl⟩]
  once := List.nodup_nil
  indent := 2
  deeper := Nat.two_pos

theorem length_longKey : longKey.name.length = 1025 :=
  String.length_ofList.trans List.length_replicate

theorem longFile_not_fits : ¬ longFile.Fits := by
  intro hfits
  have hshort : longKey.name.length ≤ 1024 :=
    hfits (.unknown longKey ⟨"x", rfl⟩) List.mem_cons_self
  have hlong : 1025 ≤ longKey.name.length := Nat.le_of_eq length_longKey.symm
  exact absurd (Nat.le_trans hlong hshort) (by decide)

theorem ofYaml_given_lens :
    lensFile.Fits ∧ ¬ longFile.Fits ∧
      ofYaml ("mode: \"a: b # c\"\nenums:\n  - name: \"lens_mode\"\n  - member_prefix: \"lens\"\n" ++
        "    name: \"lens_kind\"\nversion_macro: \"LENS_VERSION\"\n") = .ok lensConfig ∧
      ofYaml (String.ofList longFile.text) = .error .malformed ∧
      lensConfig.validate = .ok () ∧ Generation.unitConfig.validate = .ok () := by
  obtain ⟨hfits, hlong, hvalid, hload⟩ := ofYaml_given
  have hlens : lensFile.Fits := by
    intro given hgiven
    simp only [lensFile, List.mem_cons, List.not_mem_nil, or_false] at hgiven
    rcases hgiven with rfl | rfl | rfl <;> decide
  have htext : String.ofList lensFile.text =
      "mode: \"a: b # c\"\nenums:\n  - name: \"lens_mode\"\n  - member_prefix: \"lens\"\n" ++
        "    name: \"lens_kind\"\nversion_macro: \"LENS_VERSION\"\n" := by
    decide +kernel
  have hconfig : lensFile.config.validate.map (fun _ => lensFile.config) = .ok lensConfig := by
    decide +kernel
  have hread := (hfits lensFile hlens).trans hconfig
  rw [htext] at hread
  exact ⟨hlens, longFile_not_fits, hread, hlong longFile longFile_not_fits, hvalid _ _ hread,
    hload "unit.yaml" Generation.unitFiles _ CommandLine.loaded_unitFiles⟩

/-- A key that nothing asks for can keep a file from being read. -/
theorem longKey_refused :
    ¬ ∀ file : GivenFile,
      ofYaml (String.ofList file.text) = file.config.validate.map fun _ => file.config := by
  intro hclaim
  have hlong := hclaim longFile
  have hconfig : longFile.config = {} := rfl
  rw [ofYaml_long longFile longFile_not_fits, hconfig, validate_default] at hlong
  cases hlong

end EnumBinding.Config
