import EnumBinding.Proofs.Text.RunLaws

/-!
# Laws of byte offsets

An offset that cuts a text cuts every text that begins with it, at the same
place. An offset inside a character, or past the end, cuts nothing; passing it
stops at the next place between two characters.
-/

namespace EnumBinding.Text

variable {before rest first cs : List Char} {bytes : Nat}

theorem append_inj_of_width (h : before ++ rest = first ++ cs) (hw : width before = width first) :
    before = first ∧ rest = cs := by
  have hbefore : splitAt? (width first) (first ++ cs) = some (before, rest) :=
    splitAt?_eq_some_iff.mpr ⟨h.symm, hw⟩
  have hfirst : splitAt? (width first) (first ++ cs) = some (first, cs) :=
    splitAt?_eq_some_iff.mpr ⟨rfl, rfl⟩
  exact Prod.mk.inj (Option.some.inj (hbefore.symm.trans hfirst))

theorem splitAt?_append_of_le (hle : bytes ≤ width before) (rest : List Char) :
    splitAt? bytes (before ++ rest) =
      (splitAt? bytes before).map fun (first, second) => (first, second ++ rest) := by
  cases hsplit : splitAt? bytes before with
  | some found =>
    obtain ⟨first, second⟩ := found
    obtain ⟨rfl, hwidth⟩ := splitAt?_eq_some_iff.mp hsplit
    exact splitAt?_eq_some_iff.mpr ⟨by simp, hwidth⟩
  | none =>
    rw [Option.map_none, Option.eq_none_iff_forall_ne_some]
    rintro ⟨first, second⟩ hsome
    obtain ⟨hheader, rfl⟩ := splitAt?_eq_some_iff.mp hsome
    obtain ⟨mid, rfl, -⟩ := exists_append_of_width_le hheader.symm hle
    rw [splitAt?_eq_some_iff.mpr ⟨rfl, rfl⟩] at hsplit
    cases hsplit

theorem slice?_of_le (hle : bytes ≤ width before) (rest : List Char) :
    slice? bytes (width before) (before ++ rest) = (splitAt? bytes before).map (·.2) := by
  unfold slice?
  rw [splitAt?_append_of_le hle]
  cases hsplit : splitAt? bytes before with
  | none => rfl
  | some found =>
    obtain ⟨first, second⟩ := found
    obtain ⟨rfl, rfl⟩ := splitAt?_eq_some_iff.mp hsplit
    have hinner : splitAt? (width second) (second ++ rest) = some (second, rest) :=
      splitAt?_eq_some_iff.mpr ⟨rfl, rfl⟩
    simp [hinner]

/-- The first place between two characters that is not before an offset. -/
theorem seek_eq (passed : List Char) (bytes : Nat) (cs : List Char) :
    ∃ before rest, cs = before ++ rest ∧
      seek passed bytes cs = (before.reverse ++ passed, rest) ∧
      (rest ≠ [] → bytes ≤ width before) ∧
      ∀ first second, cs = first ++ second → bytes ≤ width first → width before ≤ width first := by
  induction cs generalizing passed bytes with
  | nil => exact ⟨[], [], rfl, rfl, fun h => absurd rfl h, fun _ _ _ _ => Nat.zero_le _⟩
  | cons c cs ih =>
    by_cases hzero : bytes = 0
    · refine ⟨[], c :: cs, rfl, by simp [seek, hzero], fun _ => ?_, fun _ _ _ _ => Nat.zero_le _⟩
      rw [hzero]
      exact Nat.zero_le _
    · obtain ⟨before, rest, rfl, hseek, hreach, hleast⟩ := ih (c :: passed) (bytes - c.utf8Size)
      refine ⟨c :: before, rest, rfl, by simp [seek, hzero, hseek], fun hne => ?_, ?_⟩
      · have := hreach hne
        rw [width_cons]
        omega
      · intro first second hsplit hle
        cases first with
        | nil =>
          rw [width_nil] at hle
          omega
        | cons d first =>
          obtain ⟨rfl, htail⟩ := List.cons.inj hsplit
          simp only [width_cons] at hle ⊢
          have := hleast first second htail (by omega)
          omega

/-- The offset falls between two characters of a text, or at one of its ends. -/
def IsOffset (bytes : Nat) (cs : List Char) : Prop :=
  ∃ before rest, cs = before ++ rest ∧ width before = bytes

theorem splitAt?_eq_none_iff : splitAt? bytes cs = none ↔ ¬ IsOffset bytes cs := by
  rw [Option.eq_none_iff_forall_ne_some]
  constructor
  · rintro h ⟨before, rest, hsplit⟩
    exact h (before, rest) (splitAt?_eq_some_iff.mpr hsplit)
  · rintro h ⟨before, rest⟩ hsome
    exact h ⟨before, rest, splitAt?_eq_some_iff.mp hsome⟩

end EnumBinding.Text
