import EnumBinding.Proofs.Header.SpaceLaws
import Mathlib.Algebra.Group.Nat.Defs
import Mathlib.Data.List.SplitBy

/-!
# Collapsing spaces

The loop over the spaces of an expression makes passes as long as two of them
stand side by side. A pass halves each run of spaces and rounds up
(`spaces_infix_mergePairs`), so another pass follows the first `k` exactly if the
text has a run of more than `2 ^ k` spaces, and one pass is the last. It leaves
the text with a single space for each maximal run, and nothing else happens
between trimming an expression and dropping its zero patch (`normalize_exact`).
-/

namespace EnumBinding.Header.Version

/-- The loop, with the number of its passes: as long as two spaces stand side by side, pairs are merged. -/
inductive Collapses : Nat → List Char → List Char → Prop
  | done {cs : List Char} : ¬ spaces 2 <:+: cs → Collapses 0 cs cs
  | pass {passes : Nat} {cs final : List Char} : spaces 2 <:+: cs →
      Collapses passes (mergePairs cs) final → Collapses (passes + 1) cs final

def alike (c d : Char) : Bool := (c == ' ') == (d == ' ')

/-- A text cut wherever a run of spaces begins or ends. -/
def stretches (cs : List Char) : List (List Char) := cs.splitBy alike

def single (stretch : List Char) : List Char := if ' ' ∈ stretch then [' '] else stretch

/-- A text with a single space in the place of each maximal run of spaces. -/
def singleSpaced (cs : List Char) : List Char := (stretches cs).flatMap single

def Parted (piece next : List Char) : Prop :=
  ∃ hpiece hnext, alike (piece.getLast hpiece) (next.head hnext) = false

def withoutZeroPatch (cs : List Char) : List Char := (zeroPatch.isSuffixOf? cs).getD cs

variable {cs final stretch : List Char} {pieces : List (List Char)} {passes count m : Nat} {c d : Char}

-- ---------------------------------------------------------------------------
-- Runs at the front of a text
-- ---------------------------------------------------------------------------

theorem spaces_prefix_cons : spaces (count + 1) <+: c :: cs ↔ c = ' ' ∧ spaces count <+: cs := by
  rw [spaces, List.replicate_succ, List.cons_prefix_cons, eq_comm, spaces]

theorem spaces_prefix_iff_zero (h : cs.head? ≠ some ' ') : spaces count <+: cs ↔ count = 0 := by
  cases count with
  | zero => simp [spaces]
  | succ count =>
    refine iff_of_false ?_ (Nat.succ_ne_zero count)
    rintro ⟨rest, rfl⟩
    exact h rfl

theorem spaces_prefix_spaces (h : count ≤ m) : spaces count <+: spaces m := by
  rw [spaces, spaces, List.prefix_replicate_iff, List.length_replicate]
  exact ⟨h, rfl⟩

theorem spaces_prefix_space (h : spaces count <+: cs) : spaces count <+: ' ' :: cs := by
  have hone : spaces (count + 1) <+: ' ' :: cs := spaces_prefix_cons.mpr ⟨rfl, h⟩
  exact (spaces_prefix_spaces (Nat.le_succ count)).trans hone

-- ---------------------------------------------------------------------------
-- One pass
-- ---------------------------------------------------------------------------

theorem head?_ne_space_of_unpaired (hne : ∀ tail, c = ' ' → cs = ' ' :: tail → False) (hc : c = ' ') :
    cs.head? ≠ some ' ' := by
  intro hhead
  obtain ⟨tail, htail⟩ := List.head?_eq_some_iff.mp hhead
  exact hne tail hc htail

theorem hasPair_iff : hasPair cs = true ↔ spaces 2 <:+: cs := by
  induction cs using hasPair.induct with
  | case1 cs => exact ⟨fun _ => List.IsPrefix.isInfix ⟨cs, rfl⟩, fun _ => rfl⟩
  | case2 c cs hne ih =>
    have hfront : ¬ spaces 2 <+: c :: cs := by
      rw [spaces_prefix_cons]
      rintro ⟨hc, hsecond⟩
      exact absurd ((spaces_prefix_iff_zero (head?_ne_space_of_unpaired hne hc)).mp hsecond)
        Nat.one_ne_zero
    rw [hasPair, ih, List.infix_cons_iff, or_iff_right hfront]
    exact hne
  | case3 => simp [hasPair, spaces]

theorem spaces_prefix_mergePairs (cs : List Char) (m : Nat) :
    spaces (m + 1) <+: mergePairs cs ↔ spaces (2 * m + 1) <+: cs := by
  induction cs using mergePairs.induct generalizing m with
  | case1 cs ih =>
    rw [mergePairs, spaces_prefix_cons, spaces_prefix_cons]
    refine and_congr_right fun hspace => ?_
    -- The pair gives one space of the new run; the rest of that run is half of what is behind the pair.
    cases m with
    | zero => simp [spaces]
    | succ m => rw [ih, Nat.mul_add_one, spaces_prefix_cons, and_iff_right hspace]
  | case2 c cs hne ih =>
    rw [mergePairs, spaces_prefix_cons, spaces_prefix_cons]
    · refine and_congr_right fun hc => ?_
      have hstop := head?_ne_space_of_unpaired hne hc
      rw [spaces_prefix_iff_zero hstop, spaces_prefix_iff_zero (by rwa [head?_mergePairs])]
      omega
    · exact hne
  | case3 => simp [mergePairs, spaces]

/-- A pass halves each run, rounding up: one of more than `m` spaces comes from one of more than `2 * m`. -/
theorem spaces_infix_mergePairs (cs : List Char) (m : Nat) :
    spaces (m + 1) <:+: mergePairs cs ↔ spaces (2 * m + 1) <:+: cs := by
  induction cs using mergePairs.induct with
  | case1 cs ih =>
    have hfront := spaces_prefix_mergePairs (' ' :: ' ' :: cs) m
    rw [mergePairs] at hfront
    -- What begins with the second space begins with the first one too.
    rw [mergePairs, List.infix_cons_iff, hfront, ih, List.infix_cons_iff, List.infix_cons_iff, ← or_assoc,
      or_iff_left_of_imp spaces_prefix_space]
  | case2 c cs hne ih =>
    have hfront := spaces_prefix_mergePairs (c :: cs) m
    rw [mergePairs] at hfront
    · rw [mergePairs, List.infix_cons_iff, hfront, ih, List.infix_cons_iff]
      exact hne
    · exact hne
  | case3 => simp [mergePairs, spaces]

-- ---------------------------------------------------------------------------
-- The loop
-- ---------------------------------------------------------------------------

theorem exists_collapses (cs : List Char) : ∃ passes, Collapses passes cs (collapse cs) := by
  induction cs using collapse.induct with
  | case1 cs hpair ih =>
    obtain ⟨passes, hlater⟩ := ih
    rw [collapse, if_pos hpair]
    exact ⟨passes + 1, .pass (hasPair_iff.mp hpair) hlater⟩
  | case2 cs hpair =>
    rw [collapse, if_neg hpair]
    exact ⟨0, .done (mt hasPair_iff.mpr hpair)⟩

theorem Collapses.free (h : Collapses passes cs final) : ¬ spaces 2 <:+: final := by
  induction h with
  | done hfree => exact hfree
  | pass _ _ ih => exact ih

/-- The longest run decides how many passes are made. -/
theorem Collapses.lt_passes_iff (h : Collapses passes cs final) (k : Nat) :
    k < passes ↔ spaces (2 ^ k + 1) <:+: cs := by
  induction h generalizing k with
  | done hfree =>
    have hlong : spaces 2 <+: spaces (2 ^ k + 1) :=
      spaces_prefix_spaces (Nat.succ_le_succ Nat.one_le_two_pow)
    exact iff_of_false (Nat.not_lt_zero k) fun hrun => hfree (hlong.isInfix.trans hrun)
  | pass hpair _ ih =>
    -- The passes that are left see runs of half the length.
    cases k with
    | zero => exact iff_of_true (Nat.succ_pos _) hpair
    | succ k => rw [Nat.add_lt_add_iff_right, ih k, spaces_infix_mergePairs, pow_succ']

-- ---------------------------------------------------------------------------
-- Maximal runs
-- ---------------------------------------------------------------------------

theorem single_spaces (count : Nat) : single (spaces (count + 1)) = [' '] := by
  rw [single, if_pos (by simp [spaces])]

theorem alike_iff : alike c d = true ↔ (c = ' ' ↔ d = ' ') := by
  rw [alike, beq_iff_eq, Bool.eq_iff_iff, beq_iff_eq, beq_iff_eq]

theorem eq_space_of_isChain (h : stretch.IsChain fun c d => alike c d = true) (hspace : ' ' ∈ stretch) :
    ∀ c ∈ stretch, c = ' ' := by
  induction h with
  | nil => simp
  | singleton c =>
    intro d hd
    rw [List.mem_singleton.mp hd, List.mem_singleton.mp hspace]
  | @cons_cons c d rest halike _ ih =>
    have hkinds := alike_iff.mp halike
    have hbehind : ' ' ∈ d :: rest := by
      rcases List.mem_cons.mp hspace with hc | hbehind
      · rw [hkinds.mp hc.symm]
        exact List.mem_cons_self
      · exact hbehind
    have hrest := ih hbehind
    exact List.forall_mem_cons.mpr ⟨hkinds.mpr (hrest d List.mem_cons_self), hrest⟩

theorem eq_spaces_of_mem_stretches (h : stretch ∈ stretches cs) (hspace : ' ' ∈ stretch) :
    ∃ count, stretch = spaces (count + 1) := by
  obtain ⟨count, hcount⟩ := Nat.exists_eq_add_one_of_ne_zero (List.length_pos_of_mem hspace).ne'
  exact ⟨count, List.eq_replicate_iff.mpr
    ⟨hcount, eq_space_of_isChain (List.isChain_of_mem_splitBy h) hspace⟩⟩

theorem head?_flatten_ne_space (h : (spaces (count + 1) :: pieces).IsChain Parted) :
    pieces.flatten.head? ≠ some ' ' := by
  cases pieces with
  | nil => simp
  | cons next pieces =>
    obtain ⟨⟨hrun, hnext, hunlike⟩, -⟩ := List.isChain_cons_cons.mp h
    have hlast : (spaces (count + 1)).getLast hrun = ' ' := List.getLast_replicate hrun
    rw [List.flatten_cons, List.head?_append_of_ne_nil _ hnext, List.head?_eq_some_head hnext]
    intro hhead
    rw [hlast, Option.some.inj hhead] at hunlike
    cases hunlike

theorem squeeze_flatten (hpieces : ∀ piece ∈ pieces, ' ' ∈ piece → ∃ count, piece = spaces (count + 1))
    (hchain : pieces.IsChain Parted) : squeeze pieces.flatten = pieces.flatMap single := by
  induction pieces with
  | nil => rfl
  | cons piece pieces ih =>
    have hrest := ih (fun other hother => hpieces other (List.mem_cons_of_mem piece hother)) hchain.tail
    rw [List.flatten_cons, List.flatMap_cons, ← hrest]
    by_cases hspace : ' ' ∈ piece
    · obtain ⟨count, rfl⟩ := hpieces piece List.mem_cons_self hspace
      have hone : min (count + 1) 1 = 1 := Nat.min_eq_right (Nat.le_add_left 1 count)
      rw [squeeze_spaces _ (head?_flatten_ne_space hchain), single_spaces, hone]
      rfl
    · rw [squeeze_append hspace, single, if_neg hspace]

theorem collapse_eq_singleSpaced (cs : List Char) : collapse cs = singleSpaced cs :=
  have hparted : (stretches cs).IsChain Parted := List.isChain_getLast_head_splitBy alike cs
  calc
    collapse cs = squeeze cs := collapse_eq_squeeze cs
    _ = squeeze (stretches cs).flatten := by rw [stretches, List.flatten_splitBy]
    _ = singleSpaced cs := squeeze_flatten (fun _ => eq_spaces_of_mem_stretches) hparted

/-- A tab is left as it is, and parts the runs of spaces around it. -/
example : singleSpaced "1   |  \t 0".toList = "1 | \t 0".toList := rfl

-- ---------------------------------------------------------------------------
-- Normalizing
-- ---------------------------------------------------------------------------

theorem withoutZeroPatch_eq (cs : List Char) :
    withoutZeroPatch cs =
      if zeroPatch.isSuffixOf cs then cs.take (cs.length - zeroPatch.length) else cs := by
  rw [withoutZeroPatch, ← List.isSome_isSuffixOf?_eq_isSuffixOf]
  cases hpatch : zeroPatch.isSuffixOf? cs with
  | none => rfl
  | some kept =>
    obtain rfl := List.isSuffixOf?_eq_some_iff_append_eq.mp hpatch
    rw [List.length_append, Nat.add_sub_cancel_right, List.take_left]
    rfl

theorem normalize_eq (expression : List Char) :
    normalize expression = withoutZeroPatch (collapse (Text.trim expression)) := by
  rw [normalize, withoutZeroPatch_eq]

theorem isPrefix_withoutZeroPatch (cs : List Char) : withoutZeroPatch cs <+: cs := by
  unfold withoutZeroPatch
  cases hpatch : zeroPatch.isSuffixOf? cs with
  | none => exact List.prefix_refl cs
  | some kept => exact ⟨zeroPatch, List.isSuffixOf?_eq_some_iff_append_eq.mp hpatch⟩

/-- On every text the loop ends, and has done what one pass over the maximal runs does. An expression is
trimmed, so single-spaced, and loses one zero patch; no two spaces are left in it. -/
theorem normalize_exact (expression : List Char) :
    (∀ text, collapse text = singleSpaced text ∧
      ∃ passes, Collapses passes text (collapse text) ∧
        ∀ k, k < passes ↔ spaces (2 ^ k + 1) <:+: text) ∧
    normalize expression = withoutZeroPatch (singleSpaced (Text.trim expression)) ∧
    ¬ spaces 2 <:+: normalize expression := by
  refine ⟨fun text => ⟨collapse_eq_singleSpaced text, ?_⟩, ?_, ?_⟩
  · obtain ⟨passes, hloop⟩ := exists_collapses text
    exact ⟨passes, hloop, hloop.lt_passes_iff⟩
  · rw [normalize_eq, collapse_eq_singleSpaced]
  · obtain ⟨passes, hloop⟩ := exists_collapses (Text.trim expression)
    rw [normalize_eq]
    intro hpair
    exact hloop.free (hpair.trans (isPrefix_withoutZeroPatch _).isInfix)

end EnumBinding.Header.Version
