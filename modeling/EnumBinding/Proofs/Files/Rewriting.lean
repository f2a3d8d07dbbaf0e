import EnumBinding.Proofs.Files.TreeLaws

/-!
# Writing a file once more

A file that was written can be written again: the directories around it are
there, and with the same content nothing changes (`writeFile_again`). Every
file that its text does not resolve to reads as it did before
(`readText_of_writeFile`).
-/

namespace EnumBinding.FileTree

open Outcomes (bind_eq_error bind_eq_ok)

variable {tree before after : FileTree} {place : Location} {steps reversed : List String}
  {text other data : String} {content : ByteArray} {action : FileAction} {path : Path}

-- ---------------------------------------------------------------------------
-- Reading another file
-- ---------------------------------------------------------------------------

/-- Both texts name the same location. -/
def SameFile (tree : FileTree) (first second : String) : Prop :=
  ∃ place, tree.Resolves first place ∧ tree.Resolves second place

theorem not_sameFile (h : locationOf text ≠ locationOf other) : ¬ tree.SameFile text other := by
  rintro ⟨place, htext, hother⟩
  exact h (htext.eq_locationOf.symm.trans hother.eq_locationOf)

theorem readText_toUTF8 (h : tree.readBytes text = .ok data.toUTF8) :
    tree.readText text = .ok data := by
  have hdecode : String.fromUTF8? data.toUTF8 = some data := dif_pos data.isValidUTF8
  refine bind_eq_ok.mpr ⟨data.toUTF8, h, ?_⟩
  simp only [hdecode]

-- ---------------------------------------------------------------------------
-- Directories that are there already
-- ---------------------------------------------------------------------------

theorem makeDirectory_of_walk (h : tree.walk steps = .ok place) :
    tree.makeDirectory steps = .error .alreadyExists := by
  rcases List.eq_nil_or_concat' steps with rfl | ⟨around, step, rfl⟩
  · rfl
  · obtain ⟨outer, hwalk, henter⟩ := walk_concat_eq_ok.mp h
    obtain ⟨-, hfound⟩ := enter_ok henter
    by_cases hname : step = Path.here ∨ step = Path.up
    · have htarget : tree.target (around ++ [step]) = .ok .directory := by
        unfold target
        rw [List.getLast?_append_of_ne_nil _ (by simp), List.getLast?_singleton,
          List.dropLast_concat]
        refine bind_eq_ok.mpr ⟨outer, hwalk, ?_⟩
        rw [if_pos hname]
        rfl
      unfold makeDirectory
      rw [htarget]
      rfl
    · rw [not_or] at hname
      have htarget := target_of_walk hname.1 hname.2 hwalk
      refine bind_eq_error.mpr (.inr ⟨.name (outer ++ [step]), htarget, ?_⟩)
      simp only [hfound hname.1 hname.2]

theorem ensureDirectory_of_walk (h : tree.walk steps = .ok place) :
    tree.ensureDirectory steps = .ok tree := by
  have hdirectory : tree.isDirectory steps = true := by
    unfold isDirectory
    rw [h]
  unfold ensureDirectory
  rw [makeDirectory_of_walk h]
  simp [hdirectory]

theorem makeReversed_of_walk (h : tree.walk reversed.reverse = .ok place) :
    makeReversed reversed tree = (.ok (), tree) := by
  cases reversed with
  | nil => rfl
  | cons step around =>
    rw [List.reverse_cons] at h
    rw [makeReversed, makeWith, ensureDirectory_of_walk h]

theorem makeParents_again (h : makeParents path tree = (.ok (), before))
    (hkeep : KeepsDirectories before after) : makeParents path after = (.ok (), after) := by
  have hmade := makeParents_made path tree
  rw [h] at hmade
  have hwalk := walk_mono hkeep (hmade.reached rfl)
  rw [← List.reverse_reverse path.parent] at hwalk
  unfold makeParents at h ⊢
  split at h
  · cases h
  · next hvalid =>
    rw [if_neg hvalid]
    exact makeReversed_of_walk hwalk

-- ---------------------------------------------------------------------------
-- Files that are there already
-- ---------------------------------------------------------------------------

theorem put_put (tree : FileTree) (place : Location) (node : FileNode) :
    (tree.put place node).put place node = tree.put place node := by
  simp [put, List.filter_filter]

theorem writeFile_again (h : tree.writeFile text content = (.ok (), after)) :
    after.writeFile text content = (.ok (), after) := by
  obtain ⟨made, hmade, hwrite⟩ := writeFile_eq_ok.mp h
  obtain ⟨place, hplace, hclosed, hfound, hallow, rfl⟩ := writeBytes_eq_ok.mp hwrite
  have hkeep : KeepsDirectories made (made.put place (.file content)) :=
    keepsDirectories_put hplace.ne_nil hfound
  refine writeFile_eq_ok.mpr ⟨_, makeParents_again hmade hkeep, writeBytes_eq_ok.mpr ?_⟩
  refine ⟨place, hplace.mono hkeep, hclosed, ?_, hallow, (put_put made place _).symm⟩
  rw [find?_put made hplace.ne_nil, if_pos rfl]
  simp

theorem readBytes_of_writeFile {found : ByteArray}
    (h : tree.writeFile text content = (.ok (), after))
    (hother : ¬ after.SameFile text other) (hread : tree.readBytes other = .ok found) :
    after.readBytes other = .ok found := by
  obtain ⟨made, hmade, hwrite⟩ := writeFile_eq_ok.mp h
  obtain ⟨place, hplace, -, hfree, -, rfl⟩ := writeBytes_eq_ok.mp hwrite
  obtain ⟨source, hsource, hfound, hclosed, hallow⟩ := readBytes_eq_ok.mp hread
  have hgrows := (makeParents_made (Path.ofString text) tree).grows
  rw [hmade] at hgrows
  have hput : KeepsDirectories made (made.put place (.file content)) :=
    keepsDirectories_put hplace.ne_nil hfree
  have hafter := (hsource.mono hgrows.keepsDirectories).mono hput
  have hne : source ≠ place := by
    rintro rfl
    exact hother ⟨source, hplace.mono hput, hafter⟩
  refine readBytes_eq_ok.mpr ⟨source, hafter, ?_, hclosed, ?_⟩
  · rw [find?_put made hplace.ne_nil, if_neg hne]
    rcases hgrows.find? source with hsame | ⟨hnone, -, -⟩
    · exact hsame.trans hfound
    · rw [hfound] at hnone
      cases hnone
  · rw [refusal?_put, hgrows.refusal?]
    exact hallow

theorem readText_of_writeFile (h : tree.writeFile text content = (.ok (), after))
    (hother : ¬ after.SameFile text other) (hread : tree.readText other = .ok data) :
    after.readText other = .ok data := by
  obtain ⟨found, hbytes, hdata⟩ := bind_eq_ok.mp hread
  exact bind_eq_ok.mpr ⟨found, readBytes_of_writeFile h hother hbytes, hdata⟩

end EnumBinding.FileTree
