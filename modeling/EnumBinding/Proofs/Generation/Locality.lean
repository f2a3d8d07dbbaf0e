import EnumBinding.Proofs.Generation.Unambiguous
import EnumBinding.Proofs.Header.BlockText

/-!
# What stands around the enums does not matter

A generation takes nothing from its header but the text of the blocks that it
locates. Two headers that share these, or lack the same enums, give the same
file, the same summary or the same error (`source_congr`).
-/

namespace EnumBinding.Generation

open Header (SameDefinition)

variable {first second versionHeader : String} {family : Family} {config : Config}

theorem declaration_congr (hfamily : Config.isIdentifier family.effectivePrefix = true)
    (h : SameDefinition first second family.name) :
    declaration first family = declaration second family := by
  unfold declaration
  cases h with
  | absent hfirst hsecond => rw [hfirst, hsecond]
  | located hfirst hsecond htext hsame =>
    have hmembers := Header.members_congr hfamily hfirst hsecond htext hsame
    rw [hfirst, hsecond]
    simp only
    rw [hmembers]

/-- Nothing outside the blocks of the configured enums has an influence: neither where the blocks
stand nor what precedes or follows them. -/
theorem source_congr (hvalid : config.validate = .ok ())
    (h : ∀ family ∈ config.enums, SameDefinition first second family.name)
    (versionHeader : String) :
    source first versionHeader config = source second versionHeader config := by
  obtain ⟨-, hnames⟩ := Config.validate_ok hvalid
  have hdeclarations : config.enums.mapM (declaration first) =
      config.enums.mapM (declaration second) :=
    Outcomes.mapM_congr fun family hfamily =>
      declaration_congr (hnames family hfamily).2 (h family hfamily)
  unfold source
  rw [hdeclarations]

/-- The enum of `unitHeader` behind wider characters, between lines that look like its members. -/
def crowdedHeader : String :=
  "// \u00e9\n unit_x = 7,\nenum unit\n\x7b\nunit_a = 0\n\x7d;\nunit_y = 8,\n"

def unitText : List Char := "\nenum unit\n\x7b\nunit_a = 0\n\x7d;\n".toList

theorem sameDefinition_crowded : SameDefinition unitHeader crowdedHeader "unit" := by
  let block : Header.Block :=
    { first := 18, last := 45, openBrace := 29, closeBrace := 42, membersStart := 31 }
  have hcrowded : Header.locate? crowdedHeader "unit" = some block := rfl
  have htext : Header.Block.text?
      { first := 0, last := 27, openBrace := 11, closeBrace := 24, membersStart := 13 }
      unitHeader.toList = some unitText := by decide
  have hsame : block.text? crowdedHeader.toList = some unitText := by decide
  exact .located locate?_unit hcrowded htext hsame

theorem source_congr_crowded : unitConfig.validate = .ok () ∧
    (∀ family ∈ unitConfig.enums, SameDefinition unitHeader crowdedHeader family.name) ∧
    source unitHeader unitVersionHeader unitConfig =
      source crowdedHeader unitVersionHeader unitConfig := by
  have hsame : ∀ family ∈ unitConfig.enums,
      SameDefinition unitHeader crowdedHeader family.name :=
    List.forall_mem_singleton.mpr sameDefinition_crowded
  exact ⟨rfl, hsame, source_congr rfl hsame unitVersionHeader⟩

end EnumBinding.Generation
