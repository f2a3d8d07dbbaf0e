import EnumBinding.Files.Tree
import EnumBinding.Proofs.Outcomes
import Mathlib.Data.List.Induction

/-!
# What file operations leave

Making directories adds directories and touches nothing else (`Grows`), and it
adds them only at the locations around the path it was asked for, however far
it comes (`makeParents_made`). A text resolves to one location of a tree, and
goes on doing so when the tree gains files and directories (`Resolves.mono`).
Writing puts one file there.
-/

namespace EnumBinding

open Outcomes (bind_eq_ok)

namespace Path

/-- The location that a step leads to if it can be taken. -/
def follow (location : Location) (step : String) : Location :=
  if step = here then location
  else if step = up then location.dropLast
  else location ++ [step]

def location (steps : List String) : Location := steps.foldl follow []

theorem location_concat (steps : List String) (step : String) :
    location (steps ++ [step]) = follow (location steps) step := by
  simp [location]

end Path

namespace FileTree

variable {tree before after later : FileTree} {place next : Location} {steps around : List String}
  {step text : String} {places others : Location → Prop} {node : FileNode} {content : ByteArray}
  {action : FileAction}

@[simp] theorem refusal?_put (tree : FileTree) (place : Location) (node : FileNode) :
    (tree.put place node).refusal? = tree.refusal? := rfl

-- ---------------------------------------------------------------------------
-- Walking
-- ---------------------------------------------------------------------------

def KeepsDirectories (before after : FileTree) : Prop :=
  ∀ place, before.find? place = some .directory → after.find? place = some .directory

theorem enter_ok (h : tree.enter place step = .ok next) : next = Path.follow place step ∧
    (step ≠ Path.here → step ≠ Path.up → tree.find? (place ++ [step]) = some .directory) := by
  unfold enter at h
  unfold Path.follow
  split at h
  · next hhere =>
    cases h
    exact ⟨by rw [if_pos hhere], fun hne => absurd hhere hne⟩
  · next hhere =>
    split at h
    · next hup =>
      cases h
      exact ⟨by rw [if_neg hhere, if_pos hup], fun _ hne => absurd hup hne⟩
    · next hup =>
      split at h
      · next hfound =>
        cases h
        exact ⟨by rw [if_neg hhere, if_neg hup], fun _ _ => hfound⟩
      · cases h
      · cases h

theorem enter_mono (hkeep : KeepsDirectories before after)
    (h : before.enter place step = .ok next) :
    after.enter place step = .ok next := by
  obtain ⟨rfl, hfound⟩ := enter_ok h
  unfold enter Path.follow
  split
  · rfl
  · next hhere =>
    split
    · rfl
    · next hup => rw [hkeep _ (hfound hhere hup)]

theorem walk_concat_eq_ok : tree.walk (steps ++ [step]) = .ok next ↔
    ∃ place, tree.walk steps = .ok place ∧ tree.enter place step = .ok next := by
  unfold walk
  rw [List.foldlM_append, bind_eq_ok]
  simp

theorem walk_mono (hkeep : KeepsDirectories before after) (h : before.walk steps = .ok place) :
    after.walk steps = .ok place := by
  induction steps using List.reverseRecOn generalizing place with
  | nil => exact h
  | append_singleton steps step ih =>
    obtain ⟨around, haround, henter⟩ := walk_concat_eq_ok.mp h
    exact walk_concat_eq_ok.mpr ⟨around, ih haround, enter_mono hkeep henter⟩

theorem walk_ok (h : tree.walk steps = .ok place) : place = Path.location steps ∧
    ∀ part, part <+: place → tree.find? part = some .directory := by
  induction steps using List.reverseRecOn generalizing place with
  | nil =>
    cases h
    refine ⟨rfl, fun part hpart => ?_⟩
    rw [List.prefix_nil.mp hpart]
    rfl
  | append_singleton steps step ih =>
    obtain ⟨around, haround, henter⟩ := walk_concat_eq_ok.mp h
    obtain ⟨rfl, hparts⟩ := ih haround
    obtain ⟨rfl, hfound⟩ := enter_ok henter
    refine ⟨(Path.location_concat steps step).symm, fun part hpart => ?_⟩
    unfold Path.follow at hpart
    split at hpart
    · exact hparts part hpart
    · next hhere =>
      split at hpart
      · exact hparts part (hpart.trans (List.dropLast_prefix _))
      · next hup =>
        rcases List.prefix_concat_iff.mp hpart with rfl | hpart
        · exact hfound hhere hup
        · exact hparts part hpart

theorem walk_prefix (h : tree.walk steps = .ok place) (hpart : around <+: steps) :
    tree.walk around = .ok (Path.location around) := by
  obtain ⟨rest, rfl⟩ := hpart
  unfold walk at h
  rw [List.foldlM_append, bind_eq_ok] at h
  obtain ⟨middle, hmiddle, -⟩ := h
  have hwalk : tree.walk around = .ok middle := hmiddle
  rw [hwalk, (walk_ok hwalk).1]

theorem target_name (h : tree.target steps = .ok (.name place)) :
    ∃ around step, steps = around ++ [step] ∧ step ≠ Path.here ∧ step ≠ Path.up ∧
      tree.walk around = .ok (Path.location around) ∧ place = Path.location around ++ [step] := by
  rcases List.eq_nil_or_concat' steps with rfl | ⟨around, step, rfl⟩
  · cases h
  · unfold target at h
    rw [List.getLast?_append_of_ne_nil _ (by simp), List.getLast?_singleton,
      List.dropLast_concat] at h
    obtain ⟨middle, hwalk, h⟩ := bind_eq_ok.mp h
    split at h
    · cases h
    · next hname =>
      cases h
      rw [not_or] at hname
      obtain ⟨rfl, -⟩ := walk_ok hwalk
      exact ⟨around, step, rfl, hname.1, hname.2, hwalk, rfl⟩

theorem target_of_walk (hhere : step ≠ Path.here) (hup : step ≠ Path.up)
    (h : tree.walk around = .ok place) :
    tree.target (around ++ [step]) = .ok (.name (place ++ [step])) := by
  unfold target
  rw [List.getLast?_append_of_ne_nil _ (by simp), List.getLast?_singleton, List.dropLast_concat]
  refine bind_eq_ok.mpr ⟨place, h, ?_⟩
  rw [if_neg (by simp [hhere, hup])]
  rfl

theorem location_of_name (hhere : step ≠ Path.here) (hup : step ≠ Path.up) :
    Path.location (around ++ [step]) = Path.location around ++ [step] := by
  rw [Path.location_concat, Path.follow, if_neg hhere, if_neg hup]

-- ---------------------------------------------------------------------------
-- Making directories
-- ---------------------------------------------------------------------------

/-- The later tree is the earlier one, with more directories at some of the places. -/
structure Grows (places : Location → Prop) (before after : FileTree) : Prop where
  refusal? : after.refusal? = before.refusal?
  find? : ∀ place, after.find? place = before.find? place ∨
    before.find? place = none ∧ after.find? place = some .directory ∧ places place

theorem Grows.refl (places : Location → Prop) (tree : FileTree) : Grows places tree tree :=
  ⟨rfl, fun _ => .inl rfl⟩

theorem Grows.mono (h : Grows places before after) (himp : ∀ place, places place → others place) :
    Grows others before after := by
  refine ⟨h.refusal?, fun place => ?_⟩
  rcases h.find? place with hsame | ⟨hnone, hnew, hplace⟩
  · exact .inl hsame
  · exact .inr ⟨hnone, hnew, himp place hplace⟩

theorem Grows.trans (h : Grows places before after) (hl : Grows places after later) :
    Grows places before later := by
  refine ⟨hl.refusal?.trans h.refusal?, fun place => ?_⟩
  rcases hl.find? place with hsame | ⟨hnone, hnew, hplace⟩
  · rw [hsame]
    exact h.find? place
  · rcases h.find? place with hsame | ⟨-, hmade, -⟩
    · exact .inr ⟨hsame.symm.trans hnone, hnew, hplace⟩
    · rw [hmade] at hnone
      cases hnone

theorem Grows.keepsDirectories (h : Grows places before after) : KeepsDirectories before after := by
  intro place hplace
  rcases h.find? place with hsame | ⟨hnone, -, -⟩
  · exact hsame.trans hplace
  · rw [hplace] at hnone
    cases hnone

theorem makeDirectory_ok (h : tree.makeDirectory steps = .ok after) :
    Grows (· = Path.location steps) tree after ∧ after.walk steps = .ok (Path.location steps) := by
  obtain ⟨found, htarget, h⟩ := bind_eq_ok.mp h
  cases found with
  | directory => cases h
  | name place =>
    obtain ⟨around, step, rfl, hhere, hup, hwalk, rfl⟩ := target_name htarget
    simp only at h
    split at h
    · cases h
    · next hnone =>
      obtain ⟨-, -, h⟩ := bind_eq_ok.mp h
      cases h
      have hplace : Path.location around ++ [step] ≠ [] := by simp
      have hgrows : Grows (· = Path.location around ++ [step]) tree
          (tree.put (Path.location around ++ [step]) .directory) := by
        refine ⟨rfl, fun place => ?_⟩
        rw [find?_put tree hplace]
        split
        · next heq => exact .inr ⟨heq ▸ hnone, rfl, heq⟩
        · exact .inl rfl
      rw [location_of_name hhere hup]
      refine ⟨hgrows, walk_concat_eq_ok.mpr ⟨_, walk_mono hgrows.keepsDirectories hwalk, ?_⟩⟩
      rw [enter, if_neg hhere, if_neg hup, find?_put tree hplace, if_pos rfl]

theorem ensureDirectory_ok (h : tree.ensureDirectory steps = .ok after) :
    Grows (· = Path.location steps) tree after ∧ after.walk steps = .ok (Path.location steps) := by
  unfold ensureDirectory at h
  split at h
  · next made hmade =>
    cases h
    exact makeDirectory_ok hmade
  · split at h
    · next hdirectory =>
      cases h
      unfold isDirectory at hdirectory
      split at hdirectory
      · next place hwalk =>
        refine ⟨.refl _ _, ?_⟩
        rw [hwalk, (walk_ok hwalk).1]
      · cases hdirectory
    · cases h

/-- The locations that the steps of a path lead to, one after the other. -/
def IsAround (steps : List String) (place : Location) : Prop :=
  ∃ part, part <+: steps ∧ place = Path.location part

/-- What making the directory at the end of a path leaves, whether or not that succeeds. -/
structure Made (steps : List String) (before : FileTree)
    (outcome : Except FileError Unit × FileTree) :
    Prop where
  grows : Grows (IsAround steps) before outcome.2
  reached : outcome.1 = .ok () → outcome.2.walk steps = .ok (Path.location steps)

theorem isAround_self (steps : List String) : IsAround steps (Path.location steps) :=
  ⟨steps, List.prefix_refl steps, rfl⟩

theorem makeWith_made {makeAround : FileTree → Except FileError Unit × FileTree}
    (h : ∀ tree, Made around tree (makeAround tree)) (step : String) (tree : FileTree) :
    Made (around ++ [step]) tree (makeWith makeAround (around ++ [step]) tree) := by
  have hensure : ∀ {before after}, before.ensureDirectory (around ++ [step]) = .ok after →
      Grows (IsAround (around ++ [step])) before after := by
    intro before after hok
    refine (ensureDirectory_ok hok).1.mono ?_
    rintro place rfl
    exact isAround_self _
  unfold makeWith
  split
  · next made hmade => exact ⟨hensure hmade, fun _ => (ensureDirectory_ok hmade).2⟩
  · have haround : ∀ {outcome}, makeAround tree = outcome →
        Grows (IsAround (around ++ [step])) tree outcome.2 := by
      rintro outcome rfl
      refine (h tree).grows.mono ?_
      rintro place ⟨part, hpart, rfl⟩
      exact ⟨part, hpart.trans (List.prefix_append _ _), rfl⟩
    split
    · next cause made hmade => exact ⟨haround hmade, fun hok => nomatch hok⟩
    · next made hmade =>
      have hgrows := haround hmade
      split
      · next last hlast =>
        exact ⟨hgrows.trans (hensure hlast), fun _ => (ensureDirectory_ok hlast).2⟩
      · exact ⟨hgrows, fun hok => nomatch hok⟩
  · exact ⟨.refl _ _, fun hok => nomatch hok⟩

theorem makeReversed_made (reversed : List String) (tree : FileTree) :
    Made reversed.reverse tree (makeReversed reversed tree) := by
  induction reversed generalizing tree with
  | nil => exact ⟨.refl _ _, fun _ => rfl⟩
  | cons step reversed ih =>
    rw [List.reverse_cons]
    exact makeWith_made ih step tree

theorem makeParents_made (path : Path) (tree : FileTree) :
    Made path.parent tree (makeParents path tree) := by
  unfold makeParents
  split
  · exact ⟨.refl _ _, fun hok => nomatch hok⟩
  · have := makeReversed_made path.parent.reverse tree
    rwa [List.reverse_reverse] at this

-- ---------------------------------------------------------------------------
-- What a text resolves to
-- ---------------------------------------------------------------------------

def locationOf (text : String) : Location := Path.location (Path.ofString text).steps

theorem parse_ok {path : Path} (h : parse text = .ok path) : path = Path.ofString text := by
  unfold parse at h
  split at h
  · cases h
  · split at h
    · cases h
    · exact (Except.ok.inj h).symm

/-- The text names this location, whether or not there is something. -/
def Resolves (tree : FileTree) (text : String) (place : Location) : Prop :=
  ∃ path, parse text = .ok path ∧ tree.target path.steps = .ok (.name place)

theorem Resolves.mono (hkeep : KeepsDirectories before after) (h : before.Resolves text place) :
    after.Resolves text place := by
  obtain ⟨path, hparse, htarget⟩ := h
  obtain ⟨around, step, hsteps, hhere, hup, hwalk, rfl⟩ := target_name htarget
  refine ⟨path, hparse, ?_⟩
  rw [hsteps]
  exact target_of_walk hhere hup (walk_mono hkeep hwalk)

theorem Resolves.ne_nil (h : tree.Resolves text place) : place ≠ [] := by
  obtain ⟨path, -, htarget⟩ := h
  obtain ⟨around, step, -, -, -, -, rfl⟩ := target_name htarget
  simp

theorem Resolves.eq_locationOf (h : tree.Resolves text place) : place = locationOf text := by
  obtain ⟨path, hparse, htarget⟩ := h
  obtain ⟨around, step, hsteps, hhere, hup, -, rfl⟩ := target_name htarget
  rw [parse_ok hparse] at hsteps
  rw [locationOf, hsteps, location_of_name hhere hup]

theorem allow_eq_ok : tree.allow action place = .ok () ↔ tree.refusal? action place = none := by
  unfold allow
  cases tree.refusal? action place with
  | none => exact iff_of_true rfl rfl
  | some cause => exact iff_of_false (fun h => nomatch h) (fun h => nomatch h)

theorem readBytes_eq_ok : tree.readBytes text = .ok content ↔
    ∃ place, tree.Resolves text place ∧ tree.find? place = some (.file content) ∧
      (Path.ofString text).closed = false ∧ tree.refusal? .read place = none := by
  constructor
  · intro h
    obtain ⟨path, hparse, h⟩ := bind_eq_ok.mp h
    obtain ⟨found, htarget, h⟩ := bind_eq_ok.mp h
    cases found with
    | directory => cases h
    | name place =>
      simp only at h
      split at h
      · cases h
      · cases h
      · next hfound =>
        split at h
        · cases h
        · next hclosed =>
          obtain ⟨_, hallow, h⟩ := bind_eq_ok.mp h
          cases h
          rw [parse_ok hparse, Bool.not_eq_true] at hclosed
          exact ⟨place, ⟨path, hparse, htarget⟩, hfound, hclosed, allow_eq_ok.mp hallow⟩
  · rintro ⟨place, ⟨path, hparse, htarget⟩, hfound, hclosed, hread⟩
    refine bind_eq_ok.mpr ⟨path, hparse, bind_eq_ok.mpr ⟨_, htarget, ?_⟩⟩
    simp only [hfound, parse_ok hparse, hclosed, Bool.false_eq_true, if_false]
    exact bind_eq_ok.mpr ⟨(), allow_eq_ok.mpr hread, rfl⟩

theorem writeBytes_eq_ok : tree.writeBytes text content = .ok after ↔
    ∃ place, tree.Resolves text place ∧ (Path.ofString text).closed = false ∧
      tree.find? place ≠ some .directory ∧ tree.refusal? .write place = none ∧
      after = tree.put place (.file content) := by
  constructor
  · intro h
    obtain ⟨path, hparse, h⟩ := bind_eq_ok.mp h
    obtain ⟨found, htarget, h⟩ := bind_eq_ok.mp h
    cases found with
    | directory => cases h
    | name place =>
      simp only at h
      split at h
      · cases h
      · next hclosed =>
        split at h
        · cases h
        · next hfound =>
          obtain ⟨_, hallow, h⟩ := bind_eq_ok.mp h
          cases h
          rw [parse_ok hparse, Bool.not_eq_true] at hclosed
          exact ⟨place, ⟨path, hparse, htarget⟩, hclosed, hfound, allow_eq_ok.mp hallow, rfl⟩
  · rintro ⟨place, ⟨path, hparse, htarget⟩, hclosed, hfound, hwrite, rfl⟩
    refine bind_eq_ok.mpr ⟨path, hparse, bind_eq_ok.mpr ⟨_, htarget, ?_⟩⟩
    simp only [parse_ok hparse, hclosed, Bool.false_eq_true, if_false]
    exact bind_eq_ok.mpr ⟨(), allow_eq_ok.mpr hwrite, rfl⟩

-- ---------------------------------------------------------------------------
-- Writing a file
-- ---------------------------------------------------------------------------

theorem keepsDirectories_put (hplace : place ≠ []) (hfound : tree.find? place ≠ some .directory) :
    KeepsDirectories tree (tree.put place node) := by
  intro other hother
  rw [find?_put tree hplace, if_neg]
  · exact hother
  · rintro rfl
    exact hfound hother

theorem writeBytes_ok (h : tree.writeBytes text content = .ok after) : locationOf text ≠ [] ∧
    tree.find? (locationOf text) ≠ some .directory ∧
      after = tree.put (locationOf text) (.file content) ∧
    (tree.refusal? .read (locationOf text) = none → after.readBytes text = .ok content) := by
  obtain ⟨place, hplace, hclosed, hfound, -, rfl⟩ := writeBytes_eq_ok.mp h
  obtain rfl := hplace.eq_locationOf
  refine ⟨hplace.ne_nil, hfound, rfl, fun hread => readBytes_eq_ok.mpr ?_⟩
  refine ⟨_, hplace.mono (keepsDirectories_put hplace.ne_nil hfound), ?_, hclosed, ?_⟩
  · rw [find?_put tree hplace.ne_nil, if_pos rfl]
  · rw [refusal?_put, hread]

theorem writeFile_eq_ok : tree.writeFile text content = (.ok (), after) ↔
    ∃ made, makeParents (Path.ofString text) tree = (.ok (), made) ∧
      made.writeBytes text content = .ok after := by
  unfold writeFile
  rcases hmake : makeParents (Path.ofString text) tree with ⟨_ | _, made⟩
  · constructor
    · rintro ⟨⟩
    · rintro ⟨_, ⟨⟩, -⟩
  · simp only
    cases hwrite : made.writeBytes text content with
    | error cause =>
      constructor
      · rintro ⟨⟩
      · rintro ⟨_, ⟨⟩, h⟩
        rw [hwrite] at h
        cases h
    | ok written =>
      constructor
      · rintro ⟨⟩
        exact ⟨made, rfl, hwrite⟩
      · rintro ⟨_, ⟨⟩, h⟩
        rw [hwrite] at h
        cases h
        rfl

def IsAroundFile (text : String) : Location → Prop := IsAround (Path.ofString text).parent

/-- What writing a file leaves: the file, the directories around it, and all else as it was. -/
structure Written (text : String) (content : ByteArray) (before after : FileTree) : Prop where
  file : after.find? (locationOf text) = some (.file content)
  readable : before.refusal? .read (locationOf text) = none → after.readBytes text = .ok content
  around : ∀ place, IsAroundFile text place → after.find? place = some .directory
  others : ∀ place, place ≠ locationOf text → after.find? place = before.find? place ∨
    before.find? place = none ∧ after.find? place = some .directory ∧ IsAroundFile text place

theorem writeFile_error {cause : FileError}
    (h : tree.writeFile text content = (.error cause, after)) :
    Grows (IsAroundFile text) tree after := by
  have hmade := makeParents_made (Path.ofString text) tree
  unfold writeFile at h
  split at h
  · next made hparents =>
    cases h
    rw [hparents] at hmade
    exact hmade.grows
  · next made hparents =>
    rw [hparents] at hmade
    split at h
    · cases h
    · cases h
      exact hmade.grows

theorem writeFile_ok (h : tree.writeFile text content = (.ok (), after)) :
    Written text content tree after := by
  obtain ⟨made, hparents, hwritten⟩ := writeFile_eq_ok.mp h
  obtain ⟨hplace, hfound, rfl, hreadable⟩ := writeBytes_ok hwritten
  have hmade := makeParents_made (Path.ofString text) tree
  rw [hparents] at hmade
  -- The file takes the place of no directory, so those made around it are still there.
  refine ⟨?_, ?_, ?_, ?_⟩
  · rw [find?_put made hplace, if_pos rfl]
  · rw [← hmade.grows.refusal?]
    exact hreadable
  · rintro place ⟨part, hpart, rfl⟩
    have hwalk := walk_prefix (hmade.reached rfl) hpart
    exact keepsDirectories_put hplace hfound _ ((walk_ok hwalk).2 _ (List.prefix_refl _))
  · intro place hne
    rw [find?_put made hplace, if_neg hne]
    exact hmade.grows.find? place

end FileTree
end EnumBinding
