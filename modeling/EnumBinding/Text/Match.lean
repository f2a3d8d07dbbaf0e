/-!
# Reading from the front

A reader takes a text and gives back what it read together with the rest. `after?` reads a literal.
`afterRun?` reads a run of characters and then something that may itself begin with such characters:
the longest run is tried first, so a run and what follows it never fight over a character unless the
longest run leaves nothing to follow.
-/

namespace EnumBinding.Text

def after? : List Char → List Char → Option (List Char)
  | [], cs => some cs
  | _ :: _, [] => none
  | l :: literal, c :: cs => if l = c then after? literal cs else none

theorem after?_eq_some_iff {literal cs rest : List Char} :
    after? literal cs = some rest ↔ cs = literal ++ rest := by
  induction literal generalizing cs with
  | nil => simp [after?]
  | cons l literal ih =>
    cases cs with
    | nil => simp [after?]
    | cons c cs =>
      by_cases h : l = c
      · subst h
        simp [after?, ih]
      · simp [after?, h, Ne.symm h]

@[simp] theorem after?_append (literal rest : List Char) :
    after? literal (literal ++ rest) = some rest :=
  after?_eq_some_iff.2 rfl

/-- Reads characters of a run, then `next`, giving characters back one by one until `next` succeeds. -/
def afterRun? (inRun : Char → Bool) (next : List Char → Option α) : List Char → Option α
  | [] => next []
  | c :: cs =>
    if inRun c then
      match afterRun? inRun next cs with
      | some a => some a
      | none => next (c :: cs)
    else
      next (c :: cs)

theorem afterRun?_eq_some {inRun : Char → Bool} {next : List Char → Option α} {cs : List Char} {a : α}
    (h : afterRun? inRun next cs = some a) :
    ∃ run rest, cs = run ++ rest ∧ run.all inRun = true ∧ next rest = some a := by
  induction cs with
  | nil => exact ⟨[], [], rfl, rfl, h⟩
  | cons c cs ih =>
    simp only [afterRun?] at h
    split at h
    · next hc =>
      split at h
      · next b hb =>
        obtain ⟨run, rest, hs, hr, hn⟩ := ih (hb.trans h)
        exact ⟨c :: run, rest, by simp [hs], by simpa [hc] using hr, hn⟩
      · exact ⟨[], c :: cs, rfl, rfl, h⟩
    · exact ⟨[], c :: cs, rfl, rfl, h⟩

theorem afterRun?_eq_none_iff {inRun : Char → Bool} {next : List Char → Option α} {cs : List Char} :
    afterRun? inRun next cs = none ↔
      ∀ run rest, cs = run ++ rest → run.all inRun = true → next rest = none := by
  induction cs with
  | nil =>
    simp only [afterRun?]
    constructor
    · intro h run rest hs _
      obtain ⟨_, rfl⟩ := List.append_eq_nil_iff.1 hs.symm
      exact h
    · intro h
      exact h [] [] rfl rfl
  | cons c cs ih =>
    simp only [afterRun?]
    constructor
    · intro h run rest hs hr
      split at h
      · next hc =>
        split at h
        · simp at h
        · next hn =>
          cases run with
          | nil => simpa [hs] using h
          | cons d run =>
            simp only [List.cons_append, List.cons.injEq] at hs
            simp only [List.all_cons, Bool.and_eq_true] at hr
            exact ih.1 hn run rest hs.2 hr.2
      · next hc =>
        cases run with
        | nil => simpa [hs] using h
        | cons d run =>
          simp only [List.cons_append, List.cons.injEq] at hs
          simp only [List.all_cons, Bool.and_eq_true] at hr
          exact absurd (hs.1 ▸ hr.1) hc
    · intro h
      have here : next (c :: cs) = none := h [] _ rfl rfl
      split
      · next hc =>
        have below : afterRun? inRun next cs = none :=
          ih.2 fun run rest hs hr => h (c :: run) rest (by simp [hs]) (by simpa [hc] using hr)
        simp [below, here]
      · exact here

/-- If what follows cannot begin inside a run, the longest run is the only one to try. -/
theorem afterRun?_eq_dropWhile {inRun : Char → Bool} {next : List Char → Option α}
    (h : ∀ c cs, inRun c = true → next (c :: cs) = none) (cs : List Char) :
    afterRun? inRun next cs = next (cs.dropWhile inRun) := by
  induction cs with
  | nil => rfl
  | cons c cs ih =>
    by_cases hc : inRun c = true
    · simp only [afterRun?, hc, if_true, List.dropWhile_cons, ih]
      cases next (cs.dropWhile inRun) with
      | none => exact h c cs hc
      | some _ => rfl
    · simp [afterRun?, hc]

end EnumBinding.Text
