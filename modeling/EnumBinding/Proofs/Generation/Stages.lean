import EnumBinding.Proofs.Generation.Frame
import EnumBinding.Proofs.Generation.SourceLaws

/-!
# The first stage to fail decides

A run reads the header, reads the version header, looks for the version, looks
for the enums in their order, and writes its output. `Settled` says how it ends
by what the files hold: with the error of the first of these stages that
cannot be done, or else with a summary. This is how it ends, and no other way
(`file_outcome_iff`).
-/

namespace EnumBinding.Generation

/-- How a run ends. The files are read as UTF-8 text, and what the two headers must define is said of
their text. -/
inductive Settled (config : Config) (output : String) (tree : FileTree) :
    Except Error Summary → Prop
  | noHeader : tree.readText config.header = .error cause →
      Settled config output tree (.error (.inputUnavailable config.header cause))
  | noVersionHeader : tree.readText config.header = .ok header →
      tree.readText config.versionHeader = .error cause →
      Settled config output tree (.error (.inputUnavailable config.versionHeader cause))
  | noVersion : tree.readText config.header = .ok header →
      tree.readText config.versionHeader = .ok versionHeader →
      ¬ DeclaresVersion versionHeader config →
      Settled config output tree (.error (.versionNotFound config.versionMacro))
  | noEnum : tree.readText config.header = .ok header →
      tree.readText config.versionHeader = .ok versionHeader →
      DeclaresVersion versionHeader config →
      FirstMissing header config.enums family →
      Settled config output tree (.error (.enumNotFound family.name))
  | unwritten {text : String} : tree.readText config.header = .ok header →
      tree.readText config.versionHeader = .ok versionHeader →
      DeclaresVersion versionHeader config → (∀ family ∈ config.enums, Declares header family) →
      source header versionHeader config = .ok (text, summary) →
      (tree.writeFile output text.toUTF8).1 = .error cause →
      Settled config output tree (.error (.outputUnwritable output cause))
  | written {text : String} : tree.readText config.header = .ok header →
      tree.readText config.versionHeader = .ok versionHeader →
      DeclaresVersion versionHeader config → (∀ family ∈ config.enums, Declares header family) →
      source header versionHeader config = .ok (text, summary) →
      List.Forall₂ (Summarises header) config.enums summary.declarations →
      (tree.writeFile output text.toUTF8).1 = .ok () →
      Settled config output tree (.ok summary)

variable {config : Config} {output header versionHeader text : String} {tree : FileTree}
  {outcome : Except Error Summary} {result : Except Error Summary × FileTree} {summary : Summary}

theorem eq_run_file (h : FileRun config output tree result) :
    (file config output : OnTree Summary).run tree = result := by
  cases h with
  | noHeader hheader =>
    unfold file
    rw [run_bind, run_readHeader, hheader]
    rfl
  | noVersionHeader hheader hversion =>
    unfold file
    rw [run_bind, run_readHeader, hheader]
    simp only [Except.mapError]
    rw [run_bind, run_readHeader, hversion]
    rfl
  | noSource hheader hversion hsource =>
    rw [run_file_of_read hheader hversion, hsource]
  | unwritten hheader hversion hsource hwrite =>
    rw [run_file_of_read hheader hversion, hsource]
    simp only [hwrite]
  | written hheader hversion hsource hwrite =>
    rw [run_file_of_read hheader hversion, hsource]
    simp only [hwrite]

theorem declares_of_source (h : source header versionHeader config = .ok (text, summary)) :
    DeclaresVersion versionHeader config ∧ ∀ family ∈ config.enums, Declares header family := by
  obtain ⟨version, declarations, hversion, hdeclarations, -, -⟩ := source_eq_ok.mp h
  refine ⟨declaresVersion_iff.mpr ⟨version, hversion⟩, fun family hfamily => ?_⟩
  obtain ⟨declaration, -, hdeclaration⟩ :=
    Outcomes.exists_of_forall₂ (List.Forall₂.flip hdeclarations) hfamily
  exact declares_iff.mpr ⟨declaration, hdeclaration⟩

theorem FileRun.settled (h : FileRun config output tree result) :
    Settled config output tree result.1 := by
  cases h with
  | noHeader hheader => exact .noHeader hheader
  | noVersionHeader hheader hversion => exact .noVersionHeader hheader hversion
  | noSource hheader hversion hsource =>
    rcases source_eq_error.mp hsource with ⟨hmissing, rfl⟩ | ⟨hdefined, family, hmissing, rfl⟩
    · exact .noVersion hheader hversion hmissing
    · exact .noEnum hheader hversion hdefined hmissing
  | unwritten hheader hversion hsource hwrite =>
    obtain ⟨hdefined, hall⟩ := declares_of_source hsource
    exact .unwritten hheader hversion hdefined hall hsource (congrArg Prod.fst hwrite)
  | written hheader hversion hsource hwrite =>
    obtain ⟨hdefined, hall⟩ := declares_of_source hsource
    exact .written hheader hversion hdefined hall hsource (summarises_source hsource)
      (congrArg Prod.fst hwrite)

theorem Settled.fileRun (h : Settled config output tree outcome) :
    ∃ after, FileRun config output tree (outcome, after) := by
  cases h with
  | noHeader hheader => exact ⟨tree, .noHeader hheader⟩
  | noVersionHeader hheader hversion => exact ⟨tree, .noVersionHeader hheader hversion⟩
  | noVersion hheader hversion hmissing =>
    exact ⟨tree, .noSource hheader hversion (source_eq_error.mpr (.inl ⟨hmissing, rfl⟩))⟩
  | noEnum hheader hversion hdefined hmissing =>
    exact ⟨tree, .noSource hheader hversion
      (source_eq_error.mpr (.inr ⟨hdefined, _, hmissing, rfl⟩))⟩
  | unwritten hheader hversion _ _ hsource hwrite =>
    exact ⟨_, .unwritten hheader hversion hsource (Prod.ext hwrite rfl)⟩
  | written hheader hversion _ _ hsource _ hwrite =>
    exact ⟨_, .written hheader hversion hsource (Prod.ext hwrite rfl)⟩

/-- A run ends as the first stage to fail says, whatever the configuration holds. -/
theorem file_outcome_iff (config : Config) (output : String) (tree : FileTree)
    (outcome : Except Error Summary) :
    ((file config output : OnTree Summary).run tree).1 = outcome ↔
      Settled config output tree outcome := by
  constructor
  · rintro rfl
    exact (run_file config output tree).settled
  · intro h
    obtain ⟨after, hrun⟩ := h.fileRun
    rw [eq_run_file hrun]

end EnumBinding.Generation
