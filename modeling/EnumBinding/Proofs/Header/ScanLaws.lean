import EnumBinding.Proofs.Header.MemberLine

/-!
# Scanning for members

What the scan reads is cut off the front of its text, and what it passes over
stays as it was. A text in which no member begins is passed over as a whole
(`Passes`), up to the start of a line.
-/

namespace EnumBinding.Header.Entry

open Text (isBlank isIndent Stops)

variable {stem raw cs rest passed gap lead line after run : List Char} {entry : Entry} {lineStart : Bool}

-- ---------------------------------------------------------------------------
-- Reading consumes
-- ---------------------------------------------------------------------------

theorem named?_eq_some (h : named? stem cs = some (entry, rest)) :
    ∃ suffix tail, suffix ≠ [] ∧ cs = stem ++ (suffix ++ tail) ∧ suffix.all isNameChar = true ∧
      value? (stem ++ suffix) tail = some (entry, rest) := by
  unfold named? at h
  split at h
  · cases h
  · next named hnamed =>
    rw [Text.after?_eq_some_iff] at hnamed
    split at h
    · cases h
    · next hne =>
      refine ⟨_, _, hne, ?_, List.all_takeWhile, h⟩
      rw [List.takeWhile_append_dropWhile, hnamed]

theorem indented?_eq_append (h : indented? stem cs = some (entry, rest)) :
    ∃ text, text ≠ [] ∧ cs = text ++ rest := by
  obtain ⟨run, named, rfl, -, hnamed⟩ := Text.afterRun?_eq_some h
  obtain ⟨suffix, tail, hne, rfl, -, hvalue⟩ := named?_eq_some hnamed
  obtain ⟨value, rfl⟩ := value?_suffix hvalue
  exact ⟨run ++ (stem ++ (suffix ++ value)), by simp [hne], by simp⟩

theorem read?_eq_append (h : read? stem lineStart cs = some (entry, rest)) :
    ∃ text, text ≠ [] ∧ cs = text ++ rest := by
  unfold read? at h
  split at h
  · next found hfound =>
    cases h
    cases lineStart with
    | false => cases hfound
    | true => exact indented?_eq_append hfound
  · split at h
    · next inner =>
      obtain ⟨text, -, rfl⟩ := indented?_eq_append h
      exact ⟨'{' :: text, by simp, rfl⟩
    · cases h

theorem next?_eq_append (h : next? stem lineStart passed cs = some (gap, entry, rest)) :
    ∃ before text, gap = passed.reverse ++ before ∧ text ≠ [] ∧ cs = before ++ (text ++ rest) := by
  induction cs generalizing lineStart passed with
  | nil => cases h
  | cons c cs ih =>
    unfold next? at h
    split at h
    · next hread =>
      cases h
      obtain ⟨text, hne, hs⟩ := read?_eq_append hread
      exact ⟨[], text, by simp, hne, hs⟩
    · obtain ⟨before, text, rfl, hne, rfl⟩ := ih h
      exact ⟨c :: before, text, by simp, hne, rfl⟩

-- ---------------------------------------------------------------------------
-- All members
-- ---------------------------------------------------------------------------

theorem all_of_next?_eq_none (h : next? stem lineStart [] cs = none) :
    all stem lineStart cs = [] := by
  rw [all]
  split
  · rfl
  · next hn => rw [h] at hn; cases hn

theorem all_of_next?_eq_some (h : next? stem lineStart [] cs = some (gap, entry, rest)) :
    all stem lineStart cs = (gap, entry) :: all stem entry.endsLine rest := by
  rw [all]
  split
  · next hn => rw [h] at hn; cases hn
  · next hn => rw [h] at hn; cases hn; rfl

theorem next?_of_all_eq_cons {others : List (List Char × Entry)}
    (h : all stem lineStart cs = (gap, entry) :: others) :
    ∃ rest, next? stem lineStart [] cs = some (gap, entry, rest) := by
  cases hnext : next? stem lineStart [] cs with
  | none =>
    rw [all_of_next?_eq_none hnext] at h
    cases h
  | some found =>
    obtain ⟨gap, entry, rest⟩ := found
    rw [all_of_next?_eq_some hnext] at h
    cases h
    exact ⟨rest, rfl⟩

-- ---------------------------------------------------------------------------
-- Notes
-- ---------------------------------------------------------------------------

theorem note?_eq (h : cs.dropWhile isBlank ≠ []) :
    note? cs = some ((cs.dropWhile isBlank).takeWhile (· != '\n'),
      (cs.dropWhile isBlank).dropWhile (· != '\n')) := by
  apply Text.afterRun?_of_dropWhile
  have hstops := Text.stops_dropWhile isBlank cs
  cases hd : cs.dropWhile isBlank with
  | nil => exact absurd hd h
  | cons c cs =>
    rw [hd, Text.stops_cons] at hstops
    have hc : '\n' ≠ c := Text.ne_of_kind Text.isBlank_lineEnd hstops
    simp [hc.symm]

theorem note?_visible (hvisible : line.all isBlank = false) (hline : '\n' ∉ line)
    (rest : List Char) :
    note? (line ++ '\n' :: rest) = some (line.dropWhile isBlank, '\n' :: rest) := by
  have hne : line.dropWhile isBlank ≠ [] := by
    rw [Ne, List.dropWhile_eq_nil_iff, ← List.all_eq_true, hvisible]
    simp
  have hrun : (line.dropWhile isBlank).all (· != '\n') = true := by
    rw [List.all_eq_true]
    intro c hc
    have hmem : c ∈ line := List.dropWhile_subset _ hc
    have hend : c ≠ '\n' := fun he => hline (he ▸ hmem)
    simpa using hend
  have hdrop := Text.dropWhile_append_of_ne_nil hne ('\n' :: rest)
  rw [note?_eq (by simp [hdrop]), hdrop, Text.takeWhile_run hrun (by simp),
    Text.dropWhile_run hrun (by simp)]

/-- A note that shows on its line is the text of the line, and no note takes the end of a line. -/
theorem note?_line (hline : '\n' ∉ line) (hafter : after.dropWhile isBlank ≠ []) :
    ∃ note rest, note? (line ++ '\n' :: after) = some (note, rest) ∧ rest <:+ '\n' :: after ∧
      (line.all isBlank = false → Text.trim note = Text.trim line) := by
  cases hblank : line.all isBlank with
  | true =>
    have hdrop : (line ++ '\n' :: after).dropWhile isBlank = after.dropWhile isBlank := by
      rw [List.dropWhile_append_of_pos (by simpa using hblank)]
      simp
    have hdropped : after.dropWhile isBlank <:+ '\n' :: after :=
      (List.dropWhile_suffix _).trans (List.suffix_cons _ _)
    rw [note?_eq (by rwa [hdrop]), hdrop]
    exact ⟨_, _, rfl, (List.dropWhile_suffix _).trans hdropped, fun hvisible => nomatch hvisible⟩
  | false =>
    rw [note?_visible hblank hline]
    exact ⟨_, _, rfl, List.suffix_refl _, fun _ => Text.trim_trimStart line⟩

-- ---------------------------------------------------------------------------
-- Passing over a text
-- ---------------------------------------------------------------------------

theorem indented?_eq_none (hs : IsStem stem)
    (h : Stops Config.isIdentifierStart (cs.dropWhile isIndent)) : indented? stem cs = none := by
  obtain ⟨first, tail, rfl, hfirst⟩ := hs.start
  rw [hs.indented?]
  cases hd : cs.dropWhile isIndent with
  | nil => rfl
  | cons c cs =>
    rw [hd, Text.stops_cons] at h
    have hne : first ≠ c := Text.ne_of_kind hfirst h
    simp [named?, Text.after?, hne]

theorem indented?_lineEnd (hs : IsStem stem) (cs : List Char) :
    indented? stem ('\n' :: cs) = none := by
  refine indented?_eq_none hs ?_
  rw [Text.dropWhile_of_stops (Text.stops_cons.mpr rfl)]
  exact Text.stops_cons.mpr rfl

theorem read?_eq_none (hc : c ≠ '{') (h : lineStart = true → indented? stem (c :: cs) = none) :
    read? stem lineStart (c :: cs) = none := by
  unfold read?
  cases lineStart with
  | false => simp [hc]
  | true => simp [hc, h rfl]

/-- The scan leaves the text behind unread and comes to the start of a line. -/
def Passes (stem : List Char) (lineStart : Bool) (lead : List Char) : Prop :=
  ∀ passed cs, next? stem lineStart passed (lead ++ cs) =
    next? stem true (lead.reverse ++ passed) cs

theorem passes_nil (stem : List Char) : Passes stem true [] := fun _ _ => rfl

theorem Passes.append (h : Passes stem lineStart lead) (hl : Passes stem true line) :
    Passes stem lineStart (lead ++ line) := by
  intro passed cs
  rw [List.append_assoc, h, hl, List.reverse_append, List.append_assoc]

/-- Away from the start of a line only a brace can open a member. -/
theorem next?_run (hrun : ∀ c ∈ run, c ≠ '\n' ∧ c ≠ '{') (passed cs : List Char) :
    next? stem false passed (run ++ cs) = next? stem false (run.reverse ++ passed) cs := by
  induction run generalizing passed with
  | nil => rfl
  | cons c run ih =>
    obtain ⟨hc, hrun⟩ := List.forall_mem_cons.mp hrun
    rw [List.cons_append, next?, read?_eq_none hc.2 (by simp)]
    simp only
    rw [beq_eq_false_iff_ne.mpr hc.1, ih hrun]
    simp

theorem passes_lineEnd (hs : IsStem stem) : Passes stem lineStart ['\n'] := by
  intro passed cs
  rw [List.singleton_append, next?, read?_eq_none (by simp) fun _ => indented?_lineEnd hs cs]
  rfl

theorem all_lineEnd (hs : IsStem stem) (lineStart : Bool) (cs : List Char) :
    all stem lineStart ('\n' :: cs) = all stem true ('\n' :: cs) := by
  have hnext : ∀ lineStart, next? stem lineStart [] ('\n' :: cs) = next? stem true ['\n'] cs :=
    fun _ => passes_lineEnd hs [] cs
  cases h : next? stem true ['\n'] cs with
  | none =>
    rw [all_of_next?_eq_none ((hnext _).trans h), all_of_next?_eq_none ((hnext _).trans h)]
  | some found =>
    obtain ⟨gap, entry, rest⟩ := found
    rw [all_of_next?_eq_some ((hnext _).trans h), all_of_next?_eq_some ((hnext _).trans h)]

theorem passes_line (hs : IsStem stem) (hline : ∀ c ∈ line, c ≠ '\n' ∧ c ≠ '{')
    (hstop : Stops Config.isIdentifierStart (line.dropWhile isIndent)) :
    Passes stem true (line ++ ['\n']) := by
  cases line with
  | nil => exact passes_lineEnd hs
  | cons c line =>
    intro passed cs
    have hnone : indented? stem (c :: (line ++ '\n' :: cs)) = none :=
      indented?_eq_none hs (Text.stops_dropWhile_append hstop rfl rfl cs)
    obtain ⟨hc, hrest⟩ := List.forall_mem_cons.mp hline
    simp only [List.cons_append, List.append_assoc, List.nil_append]
    rw [next?, read?_eq_none hc.2 fun _ => hnone]
    simp only
    rw [beq_eq_false_iff_ne.mpr hc.1, next?_run hrest]
    simpa using passes_lineEnd hs (line.reverse ++ c :: passed) cs

end EnumBinding.Header.Entry
