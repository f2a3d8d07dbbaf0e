import EnumBinding.Generation
import EnumBinding.Proofs.Header.Span
import EnumBinding.Proofs.Header.VersionLaws
import EnumBinding.Proofs.Outcomes
import Mathlib.Data.List.Forall2

/-!
# What a generation produces

A generation succeeds if the version header defines the macro and the header
every configured enum; the version is looked for first, and then the enums in
their order (`source_eq_ok`, `source_eq_error`). A located enum is never an
error, whether or not it has members.
-/

namespace EnumBinding.Generation

open Header (Block Entry)

variable {header versionHeader text : String} {family : Family} {declaration : Declaration}
  {config : Config} {summary : Summary} {error : Error}

-- ---------------------------------------------------------------------------
-- One enum
-- ---------------------------------------------------------------------------

theorem declaration_eq_ok : Generation.declaration header family = .ok declaration ↔
    ∃ block ms, Header.locate? header family.name = some block ∧
      Header.members header block family.effectivePrefix = .ok ms ∧
      declaration = Declaration.ofMembers family.name ms := by
  unfold Generation.declaration
  split
  · next hnone => simp [hnone]
  · next block hblock =>
    split
    · next ms hms =>
      constructor
      · rintro ⟨⟩
        exact ⟨block, ms, hblock, hms, rfl⟩
      · rintro ⟨other, others, hother, hothers, rfl⟩
        obtain rfl : block = other := Option.some.inj (hblock.symm.trans hother)
        obtain rfl : ms = others := Except.ok.inj (hms.symm.trans hothers)
        rfl
    · next herror =>
      constructor
      · rintro ⟨⟩
      · rintro ⟨other, others, hother, hothers, rfl⟩
        obtain rfl : block = other := Option.some.inj (hblock.symm.trans hother)
        rw [herror] at hothers
        cases hothers

theorem source_eq_ok {config : Config} {text : String} {summary : Summary} :
    Generation.source header versionHeader config = .ok (text, summary) ↔
      ∃ version declarations, Header.version? versionHeader config.versionMacro = some version ∧
        List.Forall₂
          (fun family declaration => Generation.declaration header family = .ok declaration)
          config.enums declarations ∧
        text =
          closeText (Preamble.source version ++ String.join (declarations.map Declaration.source)) ∧
        summary = ⟨version, declarations.map Declaration.summary⟩ := by
  unfold Generation.source
  cases hversion : Header.version? versionHeader config.versionMacro with
  | none =>
    constructor
    · rintro ⟨⟩
    · rintro ⟨_, _, ⟨⟩, _⟩
  | some version =>
    constructor
    · intro h
      obtain ⟨found, hfound, h⟩ := Outcomes.bind_eq_ok.mp h
      obtain rfl : version = found := Except.ok.inj hfound
      obtain ⟨declarations, hdeclarations, h⟩ := Outcomes.bind_eq_ok.mp h
      obtain ⟨htext, hsummary⟩ := Prod.mk.inj (Except.ok.inj h)
      exact ⟨version, declarations, rfl, Outcomes.mapM_eq_ok.mp hdeclarations, htext.symm,
        hsummary.symm⟩
    · rintro ⟨_, declarations, ⟨⟩, hdeclarations, rfl, rfl⟩
      refine Outcomes.bind_eq_ok.mpr ⟨version, rfl, ?_⟩
      exact Outcomes.bind_eq_ok.mpr ⟨declarations, Outcomes.mapM_eq_ok.mpr hdeclarations, rfl⟩

-- ---------------------------------------------------------------------------
-- Whether there is a file at all
-- ---------------------------------------------------------------------------

abbrev Declares (header : String) (family : Family) : Prop :=
  Header.Block.Defines family.name.toList header.toList

abbrev DeclaresVersion (versionHeader : String) (config : Config) : Prop :=
  Header.Version.Defines config.versionMacro.toList versionHeader.toList

def FirstMissing (header : String) (families : List Family) (family : Family) : Prop :=
  ∃ before after, families = before ++ family :: after ∧
    (∀ earlier ∈ before, Declares header earlier) ∧ ¬ Declares header family

/-- What a summary says of a family: its names, and how many members the header has for it. -/
def Summarises (header : String) (family : Family) (part : DeclarationSummary) : Prop :=
  ∃ block ms, Header.locate? header family.name = some block ∧
    Header.members header block family.effectivePrefix = .ok ms ∧
    part = ⟨family.name, Name.ofType family.name, ms.length⟩

theorem declares_iff : Declares header family ↔
    ∃ declaration, Generation.declaration header family = .ok declaration := by
  simp only [declaration_eq_ok]
  cases hlocate : Header.locate? header family.name with
  | none => simp [Header.locate?_eq_none_iff.mp hlocate]
  | some block =>
    obtain ⟨ms, hms, -⟩ := Header.members_of_locate? hlocate family.effectivePrefix
    refine iff_of_true ?_ ⟨_, block, ms, rfl, hms, rfl⟩
    by_contra hmissing
    rw [Header.locate?_eq_none_iff.mpr hmissing] at hlocate
    cases hlocate

theorem declaration_eq_error : Generation.declaration header family = .error error ↔
    ¬ Declares header family ∧ error = .enumNotFound family.name := by
  cases hlocate : Header.locate? header family.name with
  | none =>
    have hmissing := Header.locate?_eq_none_iff.mp hlocate
    simp [Generation.declaration, hlocate, hmissing, eq_comm]
  | some block =>
    obtain ⟨ms, hms, -⟩ := Header.members_of_locate? hlocate family.effectivePrefix
    have hdeclares : Declares header family := declares_iff.mpr
      ⟨_, declaration_eq_ok.mpr ⟨block, ms, hlocate, hms, rfl⟩⟩
    simp [Generation.declaration, hlocate, hms, hdeclares]

theorem declarations_eq_error {families : List Family} :
    families.mapM (Generation.declaration header) = .error error ↔
      ∃ family, FirstMissing header families family ∧ error = .enumNotFound family.name := by
  simp only [Outcomes.mapM_eq_error, declaration_eq_error, ← declares_iff]
  constructor
  · rintro ⟨before, family, after, hsplit, hbefore, hmissing, rfl⟩
    exact ⟨family, ⟨before, after, hsplit, hbefore, hmissing⟩, rfl⟩
  · rintro ⟨family, ⟨before, after, hsplit, hbefore, hmissing⟩, rfl⟩
    exact ⟨before, family, after, hsplit, hbefore, hmissing, rfl⟩

theorem declaresVersion_iff : DeclaresVersion versionHeader config ↔
    ∃ version, Header.version? versionHeader config.versionMacro = some version := by
  rw [← Option.ne_none_iff_exists', Ne, Header.version?_eq_none_iff, not_not]

/-- The version is missed before an enum is, and an enum before those that follow it. -/
theorem source_eq_error : source header versionHeader config = .error error ↔
    ¬ DeclaresVersion versionHeader config ∧ error = .versionNotFound config.versionMacro ∨
      DeclaresVersion versionHeader config ∧
        ∃ family, FirstMissing header config.enums family ∧ error = .enumNotFound family.name := by
  rw [declaresVersion_iff, ← declarations_eq_error]
  unfold source
  cases hversion : Header.version? versionHeader config.versionMacro with
  | none =>
    constructor
    · rintro ⟨⟩
      exact .inl ⟨by simp, rfl⟩
    · rintro (⟨-, rfl⟩ | ⟨⟨_, ⟨⟩⟩, -⟩)
      rfl
  | some version =>
    have hbind : (do
        let declarations ← config.enums.mapM (Generation.declaration header)
        let text := Preamble.source version ++ String.join (declarations.map Declaration.source)
        return (closeText text, Summary.mk version (declarations.map Declaration.summary))) =
          (.error error : Except Error (String × Summary)) ↔
        config.enums.mapM (Generation.declaration header) = .error error := by
      rw [Outcomes.bind_eq_error, or_iff_left]
      rintro ⟨_, -, ⟨⟩⟩
    refine hbind.trans ⟨fun h => .inr ⟨⟨version, rfl⟩, h⟩, ?_⟩
    rintro (⟨hmissing, -⟩ | ⟨-, h⟩)
    · exact absurd ⟨version, rfl⟩ hmissing
    · exact h

theorem summarises_source (h : source header versionHeader config = .ok (text, summary)) :
    List.Forall₂ (Summarises header) config.enums summary.declarations := by
  obtain ⟨version, declarations, -, hdeclarations, -, rfl⟩ := source_eq_ok.mp h
  rw [List.forall₂_map_right_iff]
  refine hdeclarations.imp fun family declaration hdeclaration => ?_
  obtain ⟨block, ms, hblock, hms, rfl⟩ := declaration_eq_ok.mp hdeclaration
  refine ⟨block, ms, hblock, hms, ?_⟩
  simp [Declaration.summary, Declaration.ofMembers]

-- ---------------------------------------------------------------------------
-- A small generation
-- ---------------------------------------------------------------------------

def unitHeader : String := "\nenum unit\n\x7b\nunit_a = 0\n\x7d;\n"

def unitVersionHeader : String := "#define V (1)\n"

def unitConfig : Config := { versionMacro := "V", enums := [{ name := "unit" }] }

theorem locate?_unit : Header.locate? unitHeader "unit" =
    some { first := 0, last := 27, openBrace := 11, closeBrace := 24, membersStart := 13 } := rfl

theorem members_unit : Header.members unitHeader
    { first := 0, last := 27, openBrace := 11, closeBrace := 24, membersStart := 13 } "unit" =
      .ok [⟨"unit_a", []⟩] := by
  let entry : Entry := ⟨"unit_a".toList, none, true⟩
  let parts : Block.Parts := ⟨['\n'], ['\n'], "unit_a = 0\n".toList⟩
  have hnext : Entry.next? "unit_".toList true [] (parts.text "unit".toList) =
      some ("\nenum unit\n\x7b\n".toList, entry, Block.closing) := rfl
  have hend : Entry.next? "unit_".toList true [] Block.closing = none := rfl
  have hall : Entry.all "unit_".toList (([] : List Char).getLast?.all (· == '\n'))
      (parts.text "unit".toList) = [("\nenum unit\n\x7b\n".toList, entry)] := by
    change Entry.all _ true _ = _
    rw [Entry.all_of_next?_eq_some hnext, Entry.all_of_next?_eq_none hend]
  have hmembers : (Block.ofParts "unit".toList (Text.width []) parts).members "unit_".toList
      ([] ++ (parts.text "unit".toList ++ [])) = .ok [entry.toMember []] :=
    Block.members_ofParts_cons hall fun _ => rfl
  exact hmembers

theorem version?_unit : Header.version? unitVersionHeader "V" = some "1" := by
  have hfind : Header.Version.find? "V".toList true unitVersionHeader.toList = some ['1'] := rfl
  have hcollapse : Header.Version.collapse (Text.trim ['1']) = ['1'] := by
    rw [Header.Version.collapse]
    rfl
  have hnormalize : Header.Version.normalize ['1'] = ['1'] := by
    rw [Header.Version.normalize, hcollapse]
    rfl
  rw [Header.version?, hfind, Option.map_some, hnormalize]

def unitSummary : Summary := ⟨"1", [⟨"unit", Name.ofType "unit", 1⟩]⟩

theorem source_unit :
    ∃ text, Generation.source unitHeader unitVersionHeader unitConfig = .ok (text, unitSummary) := by
  have hdeclaration : Generation.declaration unitHeader { name := "unit" } =
      .ok (Declaration.ofMembers "unit" [⟨"unit_a", []⟩]) :=
    declaration_eq_ok.mpr ⟨_, _, locate?_unit, members_unit, rfl⟩
  have hdeclarations : List.Forall₂ (fun family declaration =>
      Generation.declaration unitHeader family = .ok declaration) unitConfig.enums _ :=
    .cons hdeclaration .nil
  have hversion : Header.version? unitVersionHeader unitConfig.versionMacro = some "1" :=
    version?_unit
  exact ⟨_, source_eq_ok.mpr ⟨_, _, hversion, hdeclarations, rfl, rfl⟩⟩

end EnumBinding.Generation
