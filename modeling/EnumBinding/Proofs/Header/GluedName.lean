import EnumBinding.Proofs.Header.Leftmost

/-!
# Names with something glued to them

The scan takes a name to be all characters up to the first blank or equals
sign. Whatever follows the identifier without a blank is glued to it: a comma
and another enumerator, a comment, a character of another script. The name is
an identifier exactly if nothing is (`members_named_iff`).
-/

namespace EnumBinding.Header

open Config (isIdentifier isIdentifierRest)
open Text (Stops width)

/-- A name where it stands in a text: the identifier at its front and what is glued to that. -/
structure GluedName where
  before : List Char
  word : List Char
  glued : List Char
  after : List Char

namespace GluedName

def chars (name : GluedName) : List Char := name.word ++ name.glued

/-- The identifier is the longest one there, and the name goes on to the first blank or equals sign. -/
structure StandsIn (name : GluedName) (stem text : List Char) : Prop where
  text : text = name.before ++ (name.chars ++ name.after)
  stem : stem <+: name.word
  word : isIdentifier (String.ofList name.word) = true
  longest : Stops isIdentifierRest (name.glued ++ name.after)
  glued : name.glued.all Entry.isNameChar = true
  ends : Stops Entry.isNameChar name.after

variable {name : GluedName} {stem text : List Char}

theorem StandsIn.isIdentifier_iff (h : name.StandsIn stem text) :
    isIdentifier (String.ofList name.chars) = true ↔ name.glued = [] := by
  constructor
  · intro hname
    cases hglued : name.glued with
    | nil => rfl
    | cons c glued =>
      have hrest := Config.all_isIdentifierRest hname
      have hstop := h.longest
      rw [hglued, List.cons_append, Text.stops_cons] at hstop
      rw [String.toList_ofList, chars, hglued] at hrest
      rw [List.all_eq_true.mp hrest c (by simp)] at hstop
      cases hstop
  · intro hglued
    rw [chars, hglued, List.append_nil]
    exact h.word

end GluedName

variable {stem text before rest : List Char} {shape : Shape} {span : Span}

theorem IsStem.isIdentifier_append (hs : IsStem stem) {suffix : List Char}
    (hsuffix : suffix.all isIdentifierRest = true) :
    isIdentifier (String.ofList (stem ++ suffix)) = true := by
  obtain ⟨letter, letters, rfl, hletter⟩ := hs.start
  have hword := hs.word
  rw [List.all_cons, Bool.and_eq_true] at hword
  simp [isIdentifier, hletter, hword.2, hsuffix]

theorem Span.Matches.exists_name (h : span.Matches stem text shape before rest) (hs : IsStem stem) :
    ∃ name : GluedName, name.StandsIn stem text ∧ name.before = before ++ shape.lead ∧
      name.chars = span.entry.name := by
  have hsuffix : shape.suffix.1.takeWhile isIdentifierRest ++
      shape.suffix.1.dropWhile isIdentifierRest = shape.suffix.1 :=
    List.takeWhile_append_dropWhile
  have hends : Stops Entry.isNameChar (shape.value ++ rest) := shape.value_stops rest
  refine ⟨⟨before ++ shape.lead, stem ++ shape.suffix.1.takeWhile isIdentifierRest,
    shape.suffix.1.dropWhile isIdentifierRest, shape.value ++ rest⟩, ?_, rfl, ?_⟩
  · refine
      { text := ?text
        stem := List.prefix_append _ _
        word := hs.isIdentifier_append List.all_takeWhile
        longest := Text.stops_append (Text.stops_dropWhile _ _) ?longest
        glued := ?glued
        ends := hends }
    case text =>
      rw [GluedName.chars, List.append_assoc stem, hsuffix, h.split]
      simp [Shape.text, Shape.name]
    case longest =>
      intro c hc
      rw [Bool.eq_false_iff]
      intro hrest
      exact Text.ne_of_kind (isNameChar_of_isIdentifierRest hrest) (hends c hc) rfl
    case glued =>
      rw [List.all_eq_true]
      exact fun c hc => List.all_eq_true.mp shape.suffix.2.2 c (List.dropWhile_subset _ hc)
  · rw [GluedName.chars, List.append_assoc, hsuffix, h.entry]
    rfl

/-- Each member of a located block is named by an identifier with the prefix of its family at the
front, and by all that stands behind that up to the first blank or equals sign. Its name is an
identifier exactly if nothing stands between. -/
theorem members_named_iff {header enum memberPrefix : String} {block : Block}
    (hlocate : locate? header enum = some block) (henum : isIdentifier enum = true)
    (hfamily : isIdentifier memberPrefix = true) :
    ∃ (text after : List Char) (spans : List Span) (ms : List Member),
      header.toList = text ++ after ∧ width text = block.last ∧
      members header block memberPrefix = .ok ms ∧
      Leftmost (stemOf memberPrefix) text block.first spans ∧
      List.Forall₂ (fun span member => ∃ name : GluedName,
        name.StandsIn (stemOf memberPrefix) text ∧ span.first ≤ width name.before ∧
        width (name.before ++ name.chars) ≤ span.last ∧
        member.rawName = String.ofList name.chars ∧
        (isIdentifier member.rawName = true ↔ name.glued = [])) spans ms := by
  have hs := isStem_stemOf hfamily
  obtain ⟨ms, hms, hgives⟩ := members_of_locate? hlocate memberPrefix
  obtain ⟨text, after, hheader, hlast, hleftmost, -⟩ :=
    leftmost_of_locate? hlocate henum hfamily
  refine ⟨text, after, _, ms, hheader, hlast, hms, hleftmost, ?_⟩
  refine ((List.forall₂_and_left _ _).mpr ⟨hleftmost.matched, hgives⟩).imp ?_
  rintro span member ⟨⟨-, shape, before, rest, hmatch⟩, hgives⟩
  obtain ⟨name, hname, hbefore, hchars⟩ := hmatch.exists_name hs
  have hraw : member.rawName = String.ofList name.chars := by
    rw [hgives.rawName, hchars]
  refine ⟨name, hname, ?_, ?_, hraw, by rw [hraw]; exact hname.isIdentifier_iff⟩
  · rw [hbefore]
    exact hmatch.lead_le.1
  · rw [hbefore, hchars, hmatch.entry]
    exact hmatch.name_le

def commaHeader : String := "\nenum foo\n\x7b\nfoo_a,foo_b = 1\n\x7d;\n"

theorem members_commaHeader :
    members commaHeader ⟨0, 31, 10, 28, 12⟩ "foo" = .ok [⟨"foo_a,foo_b", []⟩] := by
  decide +kernel

theorem members_named_iff_comma :
    locate? commaHeader "foo" = some ⟨0, 31, 10, 28, 12⟩ ∧ isIdentifier "foo" = true ∧
      ∃ (text after : List Char) (name : GluedName),
        commaHeader.toList = text ++ after ∧ width text = 31 ∧ name.StandsIn (stemOf "foo") text ∧
        "foo_a,foo_b" = String.ofList name.chars ∧ name.glued ≠ [] := by
  have hlocate : locate? commaHeader "foo" = some ⟨0, 31, 10, 28, 12⟩ := rfl
  have hname : isIdentifier "foo" = true := rfl
  obtain ⟨text, after, spans, ms, hheader, hlast, hms, -, hnames⟩ :=
    members_named_iff hlocate hname hname
  obtain rfl := Except.ok.inj (members_commaHeader.symm.trans hms)
  obtain ⟨span, -, name, hstands, -, -, hraw, hglued⟩ :=
    Outcomes.exists_of_forall₂ hnames List.mem_cons_self
  have hnot : isIdentifier "foo_a,foo_b" ≠ true := by decide
  exact ⟨hlocate, hname, text, after, name, hheader, hlast, hstands, hraw,
    fun hnil => hnot (hglued.mpr hnil)⟩

/-- The name of the member that is read from the line is no identifier. -/
theorem glued_name :
    ¬ ∀ (header enum memberPrefix : String) (block : Block) (ms : List Member),
      locate? header enum = some block → isIdentifier enum = true →
      isIdentifier memberPrefix = true → members header block memberPrefix = .ok ms →
      ∀ member ∈ ms, isIdentifier member.rawName = true := by
  intro hclaim
  have hname := hclaim commaHeader "foo" "foo" _ _ rfl rfl rfl members_commaHeader
    ⟨"foo_a,foo_b", []⟩ List.mem_cons_self
  exact absurd hname (by decide)

end EnumBinding.Header
