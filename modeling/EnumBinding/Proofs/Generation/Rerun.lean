import EnumBinding.Proofs.Files.Rewriting
import EnumBinding.Proofs.Generation.Stages
import EnumBinding.Proofs.Generation.Unambiguous

/-!
# Running once more

A run that succeeds and does not write over its own headers can be run again
at once: the headers still read as they did, the output is there to be written
over, and the tree stays exactly as it is (`file_again`).
-/

namespace EnumBinding.Generation

open FileTree (locationOf not_sameFile)

variable {config : Config} {output : String} {summary : Summary} {before after : FileTree}

/-- Where the texts lead is looked up in the tree that the first run leaves. -/
theorem file_again (h : (file config output : OnTree Summary).run before = (.ok summary, after))
    (hheader : ¬ after.SameFile output config.header)
    (hversion : ¬ after.SameFile output config.versionHeader) :
    (file config output : OnTree Summary).run after = (.ok summary, after) := by
  have hrun := run_file config output before
  rw [h] at hrun
  cases hrun with
  | written hread hversionRead hsource hwrite =>
    have hagain := FileTree.readText_of_writeFile hwrite hheader hread
    have hversionAgain := FileTree.readText_of_writeFile hwrite hversion hversionRead
    exact eq_run_file (.written hagain hversionAgain hsource (FileTree.writeFile_again hwrite))

def unitYaml : String := "version_macro: V\nenums:\n- name: unit\n"

def unitFiles : FileTree where
  entries :=
    [(["unit.h"], .file unitHeader.toUTF8), (["version.h"], .file unitVersionHeader.toUTF8),
      (["unit.yaml"], .file unitYaml.toUTF8)]

def unitFilesConfig : Config :=
  { unitConfig with header := "unit.h", versionHeader := "version.h" }

theorem writeFile_unitFiles (content : ByteArray) :
    unitFiles.writeFile "go/unit.go" content =
      (.ok (), (unitFiles.put ["go"] .directory).put ["go", "unit.go"] (.file content)) := by
  have hpath : Path.ofString "go/unit.go" = ⟨false, ["go", "unit.go"], false⟩ := rfl
  have hmade : FileTree.makeParents ⟨false, ["go", "unit.go"], false⟩ unitFiles =
      (.ok (), unitFiles.put ["go"] .directory) := rfl
  exact FileTree.writeFile_eq_ok.mpr ⟨_, hpath ▸ hmade, rfl⟩

theorem file_unitFiles : ∃ after,
    (file unitFilesConfig "go/unit.go" : OnTree Summary).run unitFiles = (.ok unitSummary, after) := by
  have hread : unitFiles.readText unitFilesConfig.header = .ok unitHeader :=
    FileTree.readText_toUTF8 rfl
  have hversionRead : unitFiles.readText unitFilesConfig.versionHeader = .ok unitVersionHeader :=
    FileTree.readText_toUTF8 rfl
  obtain ⟨text, hsource⟩ : ∃ text,
      source unitHeader unitVersionHeader unitFilesConfig = .ok (text, unitSummary) := source_unit
  exact ⟨_, eq_run_file
    (.written hread hversionRead hsource (writeFile_unitFiles text.toUTF8))⟩

theorem file_again_unit : ∃ summary after,
    (file unitFilesConfig "go/unit.go" : OnTree Summary).run unitFiles = (.ok summary, after) ∧
      ¬ after.SameFile "go/unit.go" unitFilesConfig.header ∧
      ¬ after.SameFile "go/unit.go" unitFilesConfig.versionHeader ∧
      (file unitFilesConfig "go/unit.go" : OnTree Summary).run after = (.ok summary, after) := by
  obtain ⟨after, hrun⟩ := file_unitFiles
  have hheader : locationOf "go/unit.go" ≠ locationOf unitFilesConfig.header := by decide
  have hversion : locationOf "go/unit.go" ≠ locationOf unitFilesConfig.versionHeader := by decide
  exact ⟨unitSummary, after, hrun, not_sameFile hheader, not_sameFile hversion,
    file_again hrun (not_sameFile hheader) (not_sameFile hversion)⟩

end EnumBinding.Generation
