import EnumBinding.Header.Version

/-!
# Spaces in a version expression

Merging pairs of spaces until none is left comes to the same as dropping each
space that another space follows, in one pass over the text
(`collapse_eq_squeeze`). What stands between the runs of spaces is left as it
is, so a text is squeezed piece by piece.
-/

namespace EnumBinding.Header.Version

def squeeze : List Char → List Char
  | [] => []
  | c :: cs => if c = ' ' ∧ cs.head? = some ' ' then squeeze cs else c :: squeeze cs

def spaces (count : Nat) : List Char := List.replicate count ' '

variable {cs first rest : List Char} {c : Char}

-- ---------------------------------------------------------------------------
-- The loop and the single pass
-- ---------------------------------------------------------------------------

theorem squeeze_pair (cs : List Char) : squeeze (' ' :: ' ' :: cs) = squeeze (' ' :: cs) := by
  rw [squeeze, if_pos ⟨rfl, rfl⟩]

theorem squeeze_cons (h : c ≠ ' ') (cs : List Char) : squeeze (c :: cs) = c :: squeeze cs := by
  rw [squeeze, if_neg fun hspace => h hspace.1]

theorem squeeze_space (h : cs.head? ≠ some ' ') : squeeze (' ' :: cs) = ' ' :: squeeze cs := by
  rw [squeeze, if_neg fun hspace => h hspace.2]

theorem squeeze_cons_congr (hhead : cs.head? = rest.head?) (h : squeeze cs = squeeze rest) (c : Char) :
    squeeze (c :: cs) = squeeze (c :: rest) := by
  rw [squeeze, squeeze, hhead, h]

theorem head?_mergePairs (cs : List Char) : (mergePairs cs).head? = cs.head? := by
  induction cs using mergePairs.induct with
  | case1 cs _ => rw [mergePairs]; rfl
  | case2 c cs hne _ =>
    rw [mergePairs]
    · rfl
    · exact hne
  | case3 => rfl

theorem squeeze_mergePairs (cs : List Char) : squeeze (mergePairs cs) = squeeze cs := by
  induction cs using mergePairs.induct with
  | case1 cs ih =>
    rw [mergePairs, squeeze_pair]
    exact squeeze_cons_congr (head?_mergePairs cs) ih ' '
  | case2 c cs hne ih =>
    rw [mergePairs]
    · exact squeeze_cons_congr (head?_mergePairs cs) ih c
    · exact hne
  | case3 => rfl

theorem squeeze_eq_self (h : ¬ hasPair cs = true) : squeeze cs = cs := by
  induction cs using hasPair.induct with
  | case1 cs => exact absurd rfl h
  | case2 c cs hne ih =>
    rw [hasPair] at h
    · rw [squeeze, if_neg, ih h]
      rintro ⟨rfl, hhead⟩
      obtain ⟨tail, rfl⟩ := List.head?_eq_some_iff.mp hhead
      exact hne tail rfl rfl
    · exact hne
  | case3 => rfl

theorem collapse_eq_squeeze (cs : List Char) : collapse cs = squeeze cs := by
  induction cs using collapse.induct with
  | case1 cs hpair ih => rw [collapse, if_pos hpair, ih, squeeze_mergePairs]
  | case2 cs hpair => rw [collapse, if_neg hpair, squeeze_eq_self hpair]

-- ---------------------------------------------------------------------------
-- Pieces of a text
-- ---------------------------------------------------------------------------

theorem squeeze_append (h : ' ' ∉ first) (rest : List Char) :
    squeeze (first ++ rest) = first ++ squeeze rest := by
  induction first with
  | nil => rfl
  | cons c first ih =>
    rw [List.mem_cons, not_or] at h
    rw [List.cons_append, squeeze_cons (Ne.symm h.1), ih h.2, List.cons_append]

theorem squeeze_spaces (count : Nat) (h : rest.head? ≠ some ' ') :
    squeeze (spaces count ++ rest) = spaces (min count 1) ++ squeeze rest := by
  induction count with
  | zero => rfl
  | succ count ih =>
    cases count with
    | zero => exact squeeze_space h
    | succ count =>
      have hpair : spaces (count + 2) ++ rest = ' ' :: ' ' :: (spaces count ++ rest) := rfl
      rw [hpair, squeeze_pair]
      exact ih.trans (by simp)

end EnumBinding.Header.Version
