import EnumBinding.CommandLine.Run
import EnumBinding.Proofs.CommandLine.Spelling
import EnumBinding.Proofs.Config.Validation
import EnumBinding.Proofs.Generation.Rerun

/-!
# What a command line does

A command line loads a configuration, replaces the header paths in it that it
names, and generates its output as a call for that configuration does. It
prints what the call says (`Served`), and the words of the command line matter
only for the values that they say (`run_words`).
-/

namespace EnumBinding.CommandLine

open Generation (OnTree run_access run_bind unitConfig unitFiles unitFilesConfig unitYaml)

-- ---------------------------------------------------------------------------
-- What is asked of a command line
-- ---------------------------------------------------------------------------

def loaded (path : Option String) (tree : FileTree) : Except Error Config :=
  match path with
  | none => .ok {}
  | some path => ((Config.load path : OnTree Config).run tree).1

def Values.configuration (values : Values) (tree : FileTree) : Except Error Config :=
  (loaded ((values.setting .config).map Value.text) tree).map fun config =>
    { config with
      header := ((values.setting .header).map Value.text).getD config.header
      versionHeader := ((values.setting .versionHeader).map Value.text).getD config.versionHeader }

def partLine (part : DeclarationSummary) : String :=
  "  ✓ " ++ part.typeName ++ " (" ++ constantsText part.constantCount ++ ")"

/-- How a command line for these values ends, and the tree that it leaves. All but the wording is that of
the calls that load a configuration and generate a file. -/
inductive Served (values : Values) (tree : FileTree) : Outcome × FileTree → Prop
  | notLoaded : values.configuration tree = .error error →
      Served values tree
        ({ status := 1, output := "", failure := some ("Error: " ++ error.message) }, tree)
  | notGenerated : values.configuration tree = .ok config →
      (Generation.file config values.output.text : OnTree Summary).run tree =
        (.error error, after) →
      Served values tree
        ({ status := 1
           output := Text.unlines ["📋 Reading " ++ config.header ++ "..."]
           failure := some ("Error: " ++ error.message) }, after)
  | generated : values.configuration tree = .ok config →
      (Generation.file config values.output.text : OnTree Summary).run tree =
        (.ok summary, after) →
      tree.readText config.header = .ok header →
      List.Forall₂ (Generation.Summarises header) config.enums summary.declarations →
      Served values tree
        ({ status := 0
           output := Text.unlines (
            ["📋 Reading " ++ config.header ++ "...",
             "  ✓ Generated " ++ values.output.text,
             "  ℹ build_version = " ++ summary.buildVersion] ++
            summary.declarations.map partLine ++
            ["✨ Generated " ++ constantsText summary.constantCount]) }, after)

variable {arguments : Arguments} {config : Config} {tree : FileTree} {path : Option String}

-- ---------------------------------------------------------------------------
-- The configuration of a run
-- ---------------------------------------------------------------------------

theorem run_load (path : String) (tree : FileTree) : (Config.load path : OnTree Config).run tree =
    ((do
      let text ← (tree.readText path).mapError fun cause => .invalidConfig (.unreadable path cause)
      (Config.ofYaml text).mapError .invalidConfig), tree) := by
  have hread : (FileAccess.readText path : StateM FileTree _) tree = (tree.readText path, tree) :=
    rfl
  unfold Config.load
  rw [run_bind, run_access, hread]
  cases tree.readText path with
  | error cause => rfl
  | ok text =>
    change _ = ((Config.ofYaml text).mapError Error.invalidConfig, tree)
    simp only
    cases Config.ofYaml text <;> rfl

theorem validate_loaded (h : loaded path tree = .ok config) : config.validate = .ok () := by
  cases path with
  | none =>
    cases h
    exact Config.validate_default
  | some path =>
    rw [loaded, run_load] at h
    obtain ⟨text, -, h⟩ := Outcomes.bind_eq_ok.mp h
    exact Config.validate_ofYaml (Outcomes.mapError_eq_ok.mp h)

/-- Validation looks at nothing that the command line can replace. -/
theorem validate_override (arguments : Arguments) (config : Config) :
    (arguments.override config).validate = config.validate := rfl

theorem run_override {load : OnTree Config} (hload : load.run tree = (loaded path tree, tree)) :
    (load >>= fun config =>
      match (arguments.override config).validate with
      | .ok () => pure (arguments.override config)
      | .error cause => throw (.invalidConfig cause) : OnTree Config).run tree =
        ((loaded path tree).map arguments.override, tree) := by
  rw [run_bind, hload]
  cases h : loaded path tree with
  | error error => rfl
  | ok config =>
    simp only [validate_override, validate_loaded h]
    rfl

theorem run_configure (arguments : Arguments) (tree : FileTree) :
    (arguments.configure : OnTree Config).run tree =
      ((loaded arguments.config tree).map arguments.override, tree) := by
  unfold Arguments.configure
  cases arguments.config with
  | none => exact run_override rfl
  | some path =>
    refine run_override ?_
    rw [loaded, run_load]

-- ---------------------------------------------------------------------------
-- The whole run
-- ---------------------------------------------------------------------------

theorem run_bind_outcome {α β : Type} (x : OnTree α) (f : Except Error α → StateM FileTree β)
    (tree : FileTree) :
    (x.run >>= f : StateM FileTree β).run tree = (f (x.run tree).1).run (x.run tree).2 := rfl

theorem Arguments.run_eq (arguments : Arguments) (tree : FileTree) :
    (arguments.run : StateM FileTree Outcome).run tree =
      match (arguments.configure : OnTree Config).run tree with
      | (.error error, after) => (failed [] error, after)
      | (.ok config, after) =>
        match (Generation.file config arguments.output : OnTree Summary).run after with
        | (.error error, after) => (failed [readingLine config.header] error, after)
        | (.ok summary, after) =>
          ({ status := 0
             output := Text.unlines
              (readingLine config.header :: report arguments.output summary) }, after) := by
  unfold Arguments.run
  rw [run_bind_outcome]
  rcases (arguments.configure : OnTree Config).run tree with ⟨error | config, after⟩
  · rfl
  · simp only
    rw [run_bind_outcome]
    rcases (Generation.file config arguments.output : OnTree Summary).run after with
      ⟨error | summary, last⟩ <;> rfl

theorem served_arguments (values : Values) (verbose : Bool) (tree : FileTree) :
    Served values tree
      (((values.arguments verbose).run : StateM FileTree Outcome).run tree) := by
  have hconfigure := run_configure (values.arguments verbose) tree
  change _ = (values.configuration tree, tree) at hconfigure
  rw [Arguments.run_eq, hconfigure]
  cases hconfig : values.configuration tree with
  | error error => exact .notLoaded hconfig
  | ok config =>
    have hrun := Generation.run_file config (values.arguments verbose).output tree
    simp only
    rcases hfile : (Generation.file config (values.arguments verbose).output :
      OnTree Summary).run tree with ⟨error | summary, after⟩
    · exact .notGenerated hconfig hfile
    · rw [hfile] at hrun
      cases hrun with
      | written hheader hversion hsource _ =>
        exact .generated hconfig hfile hheader (Generation.summarises_source hsource)

/-- Whatever words say the values, and in whatever order, they do the same. -/
theorem run_words (values : Values) (tree : FileTree) : ∃ result, Served values tree result ∧
    ∀ words, Says words values →
      (run (words.flatMap Word.arguments) : StateM FileTree Outcome).run tree = result := by
  refine ⟨_, served_arguments values false tree, fun words hsays => ?_⟩
  obtain ⟨verbose, hrequest⟩ := hsays.request?_words
  unfold run
  rw [hrequest]
  rfl

def goFile : Value := ⟨"go/unit.go", by decide, by decide, by decide⟩

def unitPath : Setting → Value
  | .config => ⟨"unit.yaml", by decide, by decide, by decide⟩
  | .header => ⟨"unit.h", by decide, by decide, by decide⟩
  | .versionHeader => ⟨"version.h", by decide, by decide, by decide⟩

def unitValues : Values where
  output := goFile
  setting setting := some (unitPath setting)

def unitWords : List Word :=
  [.verbose true, .set .config .shortJoined (unitPath .config), .output goFile,
    .set .versionHeader .spaced (unitPath .versionHeader),
    .set .header .equals (unitPath .header)]

def otherUnitWords : List Word :=
  [.set .header .spaced (unitPath .header), .set .versionHeader .equals (unitPath .versionHeader),
    .set .config .spaced (unitPath .config), .output goFile]

theorem says_unitWords : Says unitWords unitValues where
  once := by decide
  output := by simp [unitWords, unitValues]
  setting setting value := by cases setting <;> simp [unitWords, unitValues, eq_comm]

theorem says_otherUnitWords : Says otherUnitWords unitValues where
  once := by decide
  output := by simp [otherUnitWords, unitValues]
  setting setting value := by cases setting <;> simp [otherUnitWords, unitValues, eq_comm]

theorem ofYaml_unitYaml : Config.ofYaml unitYaml = .ok unitConfig := by
  decide +kernel

theorem loaded_unitFiles : loaded (some "unit.yaml") unitFiles = .ok unitConfig := by
  have hread : unitFiles.readText "unit.yaml" = .ok unitYaml := FileTree.readText_toUTF8 rfl
  rw [loaded, run_load, hread]
  exact Outcomes.bind_eq_ok.mpr ⟨unitYaml, rfl, by rw [ofYaml_unitYaml]; rfl⟩

theorem configuration_unitFiles :
    unitValues.configuration unitFiles = .ok unitFilesConfig := by
  unfold Values.configuration
  change (loaded (some "unit.yaml") unitFiles).map _ = _
  rw [loaded_unitFiles]
  rfl

theorem arguments_unitWords : unitWords.flatMap Word.arguments =
    ["-v", "-cunit.yaml", "go/unit.go", "--version-header", "version.h", "--header=unit.h"] := by
  decide +kernel

theorem arguments_otherUnitWords : otherUnitWords.flatMap Word.arguments =
    ["--header", "unit.h", "--version-header=version.h", "--config", "unit.yaml", "go/unit.go"] := by
  decide +kernel

theorem run_words_unit : ∃ result, Served unitValues unitFiles result ∧ result.1.status = 0 ∧
    (run ["-v", "-cunit.yaml", "go/unit.go", "--version-header", "version.h", "--header=unit.h"] :
      StateM FileTree Outcome).run unitFiles = result ∧
    (run ["--header", "unit.h", "--version-header=version.h", "--config", "unit.yaml",
      "go/unit.go"] : StateM FileTree Outcome).run unitFiles = result := by
  obtain ⟨result, hserved, hrun⟩ := run_words unitValues unitFiles
  have hfirst := hrun unitWords says_unitWords
  have hsecond := hrun otherUnitWords says_otherUnitWords
  rw [arguments_unitWords] at hfirst
  rw [arguments_otherUnitWords] at hsecond
  refine ⟨result, hserved, ?_, hfirst, hsecond⟩
  clear hfirst hsecond hrun
  obtain ⟨after, hfile⟩ := Generation.file_unitFiles
  cases hserved with
  | notLoaded hconfig =>
    rw [configuration_unitFiles] at hconfig
    cases hconfig
  | notGenerated hconfig hfailed =>
    rw [configuration_unitFiles] at hconfig
    cases hconfig
    cases hfile.symm.trans hfailed
  | generated => rfl

end EnumBinding.CommandLine
