import EnumBinding.Generation.File
import EnumBinding.Proofs.Files.TreeLaws

/-!
# Generating a file damages no other

A run reads both headers, generates, and only then writes, so the outcome of
its stages decides what it leaves of the file tree (`run_file`). Whatever
stage fails, all files keep their content, and a run that succeeds changes its
output alone (`file_frame`).
-/

namespace EnumBinding.Generation

open FileTree (Grows IsAroundFile Written)

-- ---------------------------------------------------------------------------
-- Runs on a file tree
-- ---------------------------------------------------------------------------

abbrev OnTree := ExceptT Error (StateM FileTree)

/-- The stages of a run, each of which is tried only if those before it succeed. -/
inductive FileRun (config : Config) (output : String) (tree : FileTree) :
    Except Error Summary × FileTree → Prop
  | noHeader : tree.readText config.header = .error cause →
      FileRun config output tree (.error (.inputUnavailable config.header cause), tree)
  | noVersionHeader : tree.readText config.header = .ok header →
      tree.readText config.versionHeader = .error cause →
      FileRun config output tree (.error (.inputUnavailable config.versionHeader cause), tree)
  | noSource : tree.readText config.header = .ok header →
      tree.readText config.versionHeader = .ok versionHeader →
      source header versionHeader config = .error error →
      FileRun config output tree (.error error, tree)
  | unwritten {text : String} : tree.readText config.header = .ok header →
      tree.readText config.versionHeader = .ok versionHeader →
      source header versionHeader config = .ok (text, summary) →
      tree.writeFile output text.toUTF8 = (.error cause, after) →
      FileRun config output tree (.error (.outputUnwritable output cause), after)
  | written {text : String} : tree.readText config.header = .ok header →
      tree.readText config.versionHeader = .ok versionHeader →
      source header versionHeader config = .ok (text, summary) →
      tree.writeFile output text.toUTF8 = (.ok (), after) →
      FileRun config output tree (.ok summary, after)

variable {α β : Type} {tree after : FileTree} {path output text header versionHeader : String}
  {cause : FileError} {error : Error} {config : Config} {summary : Summary}

theorem run_bind {x : OnTree α} {f : α → OnTree β} (tree : FileTree) : (x >>= f).run tree =
    match x.run tree with
    | (.ok a, after) => (f a).run after
    | (.error error, after) => (.error error, after) := by
  rcases hx : x.run tree with ⟨outcome, after⟩
  have hrun : StateT.run x.run tree = (outcome, after) := hx
  change StateT.run (x >>= f).run tree = _
  rw [ExceptT.run_bind, StateT.run_bind, hrun]
  cases outcome <;> rfl

theorem run_access (x : StateM FileTree α) (tree : FileTree) :
    (liftM x : OnTree α).run tree = (.ok (x tree).1, (x tree).2) := rfl

theorem run_readHeader (path : String) (tree : FileTree) :
    (readHeader path : OnTree String).run tree =
    ((tree.readText path).mapError (Error.inputUnavailable path), tree) := by
  have hread : (FileAccess.readText path : StateM FileTree _) tree = (tree.readText path, tree) :=
    rfl
  unfold readHeader
  rw [run_bind, run_access, hread]
  cases tree.readText path <;> rfl

theorem run_writeOutput (path text : String) (tree : FileTree) :
    (writeOutput path text : OnTree Unit).run tree =
      ((tree.writeFile path text.toUTF8).1.mapError (Error.outputUnwritable path),
        (tree.writeFile path text.toUTF8).2) := by
  have hwrite : (FileAccess.writeText path text : StateM FileTree _) tree =
    tree.writeFile path text.toUTF8 := rfl
  unfold writeOutput
  rw [run_bind, run_access, hwrite]
  rcases tree.writeFile path text.toUTF8 with ⟨_ | _, after⟩ <;> rfl

theorem run_file_of_read (hheader : tree.readText config.header = .ok header)
    (hversion : tree.readText config.versionHeader = .ok versionHeader) :
    (file config output : OnTree Summary).run tree =
      match source header versionHeader config with
      | .error error => (.error error, tree)
      | .ok (text, summary) =>
        match tree.writeFile output text.toUTF8 with
        | (.ok (), after) => (.ok summary, after)
        | (.error cause, after) => (.error (.outputUnwritable output cause), after) := by
  unfold file
  rw [run_bind, run_readHeader, hheader]
  simp only [Except.mapError]
  rw [run_bind, run_readHeader, hversion]
  simp only [Except.mapError]
  rw [run_bind]
  cases source header versionHeader config with
  | error error => rfl
  | ok result =>
    obtain ⟨text, summary⟩ := result
    change (writeOutput output text >>= fun _ => pure summary : OnTree Summary).run tree = _
    rw [run_bind, run_writeOutput]
    simp only
    rcases tree.writeFile output text.toUTF8 with ⟨_ | _, after⟩ <;> rfl

theorem run_file (config : Config) (output : String) (tree : FileTree) :
    FileRun config output tree ((file config output : OnTree Summary).run tree) := by
  cases hheader : tree.readText config.header with
  | error cause =>
    unfold file
    rw [run_bind, run_readHeader, hheader]
    exact .noHeader hheader
  | ok header =>
    cases hversion : tree.readText config.versionHeader with
    | error cause =>
      unfold file
      rw [run_bind, run_readHeader, hheader]
      simp only [Except.mapError]
      rw [run_bind, run_readHeader, hversion]
      exact .noVersionHeader hheader hversion
    | ok versionHeader =>
      rw [run_file_of_read hheader hversion]
      cases hsource : source header versionHeader config with
      | error error => exact .noSource hheader hversion hsource
      | ok result =>
        obtain ⟨text, summary⟩ := result
        simp only
        rcases hwrite : tree.writeFile output text.toUTF8 with ⟨_ | _, after⟩
        · exact .unwritten hheader hversion hsource hwrite
        · exact .written hheader hversion hsource hwrite

-- ---------------------------------------------------------------------------
-- What a run leaves
-- ---------------------------------------------------------------------------

/-- A run that cannot write its output may have made directories around it, and any other failure
leaves the tree as it was. A run that succeeds has written what the headers held before it, even
if its output takes the place of one of them. -/
theorem file_frame (config : Config) (output : String) (before : FileTree) :
    match (file config output : OnTree Summary).run before with
    | (.error (.outputUnwritable _ _), after) => Grows (IsAroundFile output) before after
    | (.error _, after) => after = before
    | (.ok summary, after) => ∃ header versionHeader text,
      before.readText config.header = .ok header ∧
        before.readText config.versionHeader = .ok versionHeader ∧
        source header versionHeader config = .ok (text, summary) ∧
        Written output text.toUTF8 before after := by
  have hrun := run_file config output before
  generalize (file config output : OnTree Summary).run before = outcome at hrun
  cases hrun with
  | noHeader _ => rfl
  | noVersionHeader _ _ => rfl
  | noSource _ _ _ =>
    -- Whatever the error says, the tree is the same.
    split
    · next heq =>
      cases heq
      exact .refl _ _
    · next heq =>
      cases heq
      rfl
    · next heq => cases heq
  | unwritten _ _ _ hwrite => exact FileTree.writeFile_error hwrite
  | written hheader hversion hsource hwrite =>
    exact ⟨_, _, _, hheader, hversion, hsource, FileTree.writeFile_ok hwrite⟩

end EnumBinding.Generation
