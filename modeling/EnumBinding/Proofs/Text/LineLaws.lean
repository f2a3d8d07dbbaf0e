import EnumBinding.Proofs.Text.RunLaws
import EnumBinding.Text.Lines

/-!
# Lines of a text

Lines that hold no line end are read back from their text by splitting it.
Whether a line begins behind a text is for its last character to say.
-/

namespace EnumBinding.Text

variable {lines : List (List Char)} {cs piece : List Char} {c d : Char}

def endLines (lines : List (List Char)) : List Char := lines.flatMap (· ++ ['\n'])

@[simp] theorem endLines_nil : endLines [] = [] := rfl

@[simp] theorem endLines_cons (line : List Char) (lines : List (List Char)) :
    endLines (line :: lines) = line ++ '\n' :: endLines lines := by simp [endLines]

@[simp] theorem endLines_append (first second : List (List Char)) :
    endLines (first ++ second) = endLines first ++ endLines second := by simp [endLines]

theorem toList_unlines (lines : List String) :
    (unlines lines).toList = endLines (lines.map String.toList) := by
  induction lines with
  | nil => rfl
  | cons line lines ih => simp [ih]

theorem endLines_eq_intercalate (h : lines ≠ []) :
    endLines lines = ['\n'].intercalate lines ++ ['\n'] := by
  induction lines with
  | nil => exact absurd rfl h
  | cons line lines ih =>
    cases lines with
    | nil => simp
    | cons next lines =>
      rw [endLines_cons, ih (by simp)]
      simp

theorem splitOn_endLines (h : ∀ line ∈ lines, '\n' ∉ line) :
    (endLines lines).splitOn '\n' = lines ++ [[]] := by
  induction lines with
  | nil => simp
  | cons line lines ih =>
    obtain ⟨hline, hlines⟩ := List.forall_mem_cons.mp h
    rw [endLines_cons, List.splitOn_append_cons_self_of_not_mem hline, ih hlines, List.cons_append]

theorem mem_splitOn (h : piece ∈ cs.splitOn d) (hc : c ∈ piece) : c ∈ cs ∧ c ≠ d := by
  induction cs generalizing piece with
  | nil =>
    rw [List.splitOn_nil, List.mem_singleton] at h
    subst h
    cases hc
  | cons a cs ih =>
    rw [List.splitOn_cons_eq_if_modifyHead] at h
    split at h
    · rcases List.mem_cons.mp h with rfl | h
      · cases hc
      · exact ⟨List.mem_cons_of_mem a (ih h hc).1, (ih h hc).2⟩
    · next hne =>
      cases hs : cs.splitOn d with
      | nil => exact absurd hs (List.splitOn_ne_nil d cs)
      | cons first pieces =>
        rw [hs, List.modifyHead_cons] at h
        rcases List.mem_cons.mp h with rfl | h
        · rcases List.mem_cons.mp hc with rfl | hc
          · exact ⟨List.mem_cons_self, by simpa using hne⟩
          · have hfirst := ih (by simp [hs]) hc
            exact ⟨List.mem_cons_of_mem a hfirst.1, hfirst.2⟩
        · have hrest := ih (by simp [hs, h]) hc
          exact ⟨List.mem_cons_of_mem a hrest.1, hrest.2⟩

theorem notMem_of_mem_splitOn (h : piece ∈ cs.splitOn d) : d ∉ piece :=
  fun hmem => (mem_splitOn h hmem).2 rfl

theorem exists_intercalate_concat (d : Char) (pieces : List (List Char)) (piece : List Char) :
    ∃ sep, [d].intercalate (pieces ++ [piece]) = [d].intercalate pieces ++ (sep ++ piece) := by
  induction pieces with
  | nil => exact ⟨[], by simp⟩
  | cons first pieces ih =>
    cases pieces with
    | nil => exact ⟨[d], by simp⟩
    | cons second pieces =>
      obtain ⟨sep, hsep⟩ := ih
      refine ⟨sep, ?_⟩
      rw [List.cons_append] at hsep
      rw [List.cons_append, List.cons_append, List.intercalate_cons_cons,
        List.intercalate_cons_cons, hsep]
      simp

theorem mem_trim (h : c ∈ trim cs) : c ∈ cs := by
  have hstart : c ∈ trimStart cs := by
    simp only [trim, trimEnd, List.mem_reverse] at h
    exact List.mem_reverse.mp (List.dropWhile_subset _ h)
  exact List.dropWhile_subset _ hstart

-- ---------------------------------------------------------------------------
-- Where a line begins
-- ---------------------------------------------------------------------------

theorem elim_getLast?_cons (lineStart : Bool) (c : Char) (cs : List Char) :
    (c :: cs).getLast?.elim lineStart (· == '\n') = cs.getLast?.elim (c == '\n') (· == '\n') := by
  rw [List.getLast?_cons]
  cases cs.getLast? <;> rfl

theorem elim_getLast?_true (cs : List Char) :
    cs.getLast?.elim true (· == '\n') = cs.getLast?.all (· == '\n') := by
  cases cs.getLast? <;> rfl

end EnumBinding.Text
