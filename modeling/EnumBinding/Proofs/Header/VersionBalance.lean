import EnumBinding.Proofs.Header.SpaceLaws
import EnumBinding.Proofs.Header.VersionPlace
import Mathlib.Data.List.Induction
import Mathlib.Data.List.Infix

/-!
# The parentheses of a version

An expression lies between the first parenthesis behind the name of its macro
and the last character of the line, whether or not these two belong together.
If they do, a balanced line has a balanced version; and if the first of them is
closed before the end of the line, the version is torn out of two expressions
(`version?_balanced_iff`).
-/

namespace EnumBinding.Header

open Text (isBlank)

namespace Version

/-- No beginning closes more parentheses than it opens, and the whole closes as many. -/
structure Balanced (cs : List Char) : Prop where
  opened : ∀ first, first <+: cs → first.count ')' ≤ first.count '('
  closed : cs.count '(' = cs.count ')'

/-- No beginning is balanced but the whole: what the first parenthesis opens the last character closes. -/
def ClosesLast (cs : List Char) : Prop :=
  ∀ first, first <+: cs → first ≠ [] → Balanced first → first = cs

instance (cs : List Char) : Decidable (Balanced cs) :=
  decidable_of_iff ((∀ first ∈ cs.inits, first.count ')' ≤ first.count '(') ∧
      cs.count '(' = cs.count ')')
    ⟨fun h => ⟨fun first hfirst => h.1 first (List.mem_inits first cs |>.mpr hfirst), h.2⟩,
      fun h => ⟨fun first hfirst => h.opened first (List.mem_inits first cs |>.mp hfirst), h.closed⟩⟩

instance (cs : List Char) : Decidable (ClosesLast cs) :=
  decidable_of_iff (∀ first ∈ cs.inits, first ≠ [] → Balanced first → first = cs)
    ⟨fun h first hfirst => h first (List.mem_inits first cs |>.mpr hfirst),
      fun h first hfirst => h first (List.mem_inits first cs |>.mp hfirst)⟩

variable {name text cs first : List Char} {c : Char}

-- ---------------------------------------------------------------------------
-- What normalizing leaves
-- ---------------------------------------------------------------------------

def parens (cs : List Char) : List Char := cs.filter fun c => c == '(' || c == ')'

@[simp] theorem parens_append (first second : List Char) :
    parens (first ++ second) = parens first ++ parens second := List.filter_append ..

theorem parens_blanks (h : cs.all isBlank = true) : parens cs = [] := by
  have hnone : Text.blanks.all (fun c => !(c == '(' || c == ')')) = true := rfl
  rw [parens, List.filter_eq_nil_iff]
  intro c hc
  have hblank : c ∈ Text.blanks := by simpa [isBlank] using List.all_eq_true.mp h c hc
  simpa using List.all_eq_true.mp hnone c hblank

theorem parens_trim (cs : List Char) : parens (Text.trim cs) = parens cs := by
  obtain ⟨lead, trail, hsplit⟩ := Text.exists_trim cs
  have hparens := congrArg parens hsplit
  rw [parens_append, parens_append, parens_blanks lead.2, parens_blanks trail.2] at hparens
  simpa using hparens.symm

theorem parens_squeeze (cs : List Char) : parens (squeeze cs) = parens cs := by
  induction cs with
  | nil => rfl
  | cons c cs ih =>
    rw [squeeze]
    split
    · next hspace =>
      rw [ih, hspace.1]
      rfl
    · rw [parens, List.filter_cons, ← parens, ih, parens, parens, List.filter_cons]

theorem parens_normalize (cs : List Char) : parens (normalize cs) = parens cs := by
  have hcollapse : parens (collapse (Text.trim cs)) = parens cs := by
    rw [collapse_eq_squeeze, parens_squeeze, parens_trim]
  unfold normalize
  simp only
  split
  · next hzero =>
    obtain ⟨kept, hkept⟩ := List.isSuffixOf_iff_suffix.mp hzero
    rw [← hcollapse, ← hkept, List.length_append, Nat.add_sub_cancel_right, List.take_left,
      parens_append]
    exact (List.append_nil _).symm
  · exact hcollapse

theorem balanced_parens : Balanced (parens cs) ↔ Balanced cs := by
  have hcount : ∀ cs, (parens cs).count '(' = cs.count '(' ∧ (parens cs).count ')' = cs.count ')' :=
    fun cs => ⟨List.count_filter rfl, List.count_filter rfl⟩
  constructor
  · rintro ⟨hopened, hclosed⟩
    rw [(hcount cs).1, (hcount cs).2] at hclosed
    refine ⟨fun first hfirst => ?_, hclosed⟩
    rw [← (hcount first).1, ← (hcount first).2]
    exact hopened _ (hfirst.filter _)
  · rintro ⟨hopened, hclosed⟩
    rw [← (hcount cs).1, ← (hcount cs).2] at hclosed
    refine ⟨fun first hfirst => ?_, hclosed⟩
    obtain ⟨whole, hwhole, rfl⟩ := List.prefix_filter_iff.mp hfirst
    rw [← parens, (hcount whole).1, (hcount whole).2]
    exact hopened whole hwhole

theorem balanced_normalize : Balanced (normalize cs) ↔ Balanced cs := by
  rw [← balanced_parens, parens_normalize, balanced_parens]

-- ---------------------------------------------------------------------------
-- The outer parentheses
-- ---------------------------------------------------------------------------

def enclose (cs : List Char) : List Char := '(' :: (cs ++ [')'])

theorem count_open (cs : List Char) : ('(' :: cs).count '(' = cs.count '(' + 1 := by simp

theorem count_close (cs : List Char) : ('(' :: cs).count ')' = cs.count ')' := by simp

theorem ne_enclose_of_prefix (h : first <+: cs) : '(' :: first ≠ enclose cs := by
  intro heq
  have hlength := congrArg List.length heq
  have hle := h.length_le
  simp [enclose] at hlength
  omega

/-- The first character to close too much closes a parenthesis before the text. -/
theorem balanced_of_overclosed (hopened : ∀ inner, inner <+: first → inner.count ')' ≤ inner.count '(')
    (h : (first ++ [c]).count '(' < (first ++ [c]).count ')') : Balanced ('(' :: (first ++ [c])) := by
  have hfirst := hopened first (List.prefix_refl first)
  rw [List.count_append, List.count_append] at h
  have hc : c = ')' := by
    by_contra hne
    have hnone : [c].count ')' = 0 := List.count_eq_zero.mpr (by simpa using Ne.symm hne)
    omega
  subst hc
  have hopen : [')'].count '(' = 0 := rfl
  have hclose : [')'].count ')' = 1 := rfl
  refine ⟨fun whole hwhole => ?_, ?_⟩
  · rcases List.prefix_cons_iff.mp hwhole with rfl | ⟨inner, rfl, hinner⟩
    · rfl
    · rw [count_open, count_close]
      rcases List.prefix_concat_iff.mp hinner with rfl | hinner
      · rw [List.count_append, List.count_append]
        omega
      · have := hopened inner hinner
        omega
  · rw [count_open, count_close, List.count_append, List.count_append]
    omega

/-- As long as the outer parenthesis stays open, nothing inside is closed that was not opened there. -/
theorem opened_of_closesLast (hlast : ClosesLast (enclose cs)) (hfirst : first <+: cs) :
    ∀ inner, inner <+: first → inner.count ')' ≤ inner.count '(' := by
  induction first using List.reverseRecOn with
  | nil =>
    intro inner hinner
    rw [List.prefix_nil.mp hinner]
    rfl
  | append_singleton first c ih =>
    have hopened := ih ((List.prefix_append first [c]).trans hfirst)
    intro inner hinner
    rcases List.prefix_concat_iff.mp hinner with rfl | hinner
    · by_contra hlt
      have hprefix : '(' :: (first ++ [c]) <+: enclose cs :=
        (List.prefix_cons_inj '(').mpr (hfirst.trans (List.prefix_append cs [')']))
      exact ne_enclose_of_prefix hfirst
        (hlast _ hprefix (by simp) (balanced_of_overclosed hopened (Nat.lt_of_not_le hlt)))
    · exact hopened inner hinner

theorem balanced_iff_closesLast (h : Balanced (enclose cs)) :
    Balanced cs ↔ ClosesLast (enclose cs) := by
  constructor
  · rintro ⟨hopened, -⟩ first hfirst hne hbalanced
    obtain ⟨inner, rfl, hinner⟩ := (List.prefix_cons_iff.mp hfirst).resolve_left hne
    rcases List.prefix_concat_iff.mp hinner with rfl | hinner
    · rfl
    · have hclosed := hbalanced.closed
      have := hopened inner hinner
      rw [count_open, count_close] at hclosed
      omega
  · intro hlast
    refine ⟨opened_of_closesLast hlast (List.prefix_refl cs), ?_⟩
    have hclosed := h.closed
    simpa [enclose] using hclosed

def Place.replacement (place : Place name text) : List Char := enclose place.expression

end Version

/-- If the line of a version is balanced, the version is so exactly if the last character of the line
closes the parenthesis behind the name. -/
theorem version?_balanced_iff {header name version : String}
    (place : Version.Place name.toList header.toList) (hfirst : place.IsFirst)
    (hbalanced : Version.Balanced place.replacement) (h : version? header name = some version) :
    Version.Balanced version.toList ↔ Version.ClosesLast place.replacement := by
  have hversion : version = String.ofList (Version.normalize place.expression) := by
    rw [version?_of_isFirst hfirst] at h
    exact (Option.some.inj h).symm
  rw [hversion, String.toList_ofList, Version.balanced_normalize]
  exact Version.balanced_iff_closesLast hbalanced

abbrev onlyLine (expression : Version.Expression) :=
  Version.Place.spaced "" "V" "\n" expression rfl (by simp)

theorem isFirst_onlyLine (expression : Version.Expression) : (onlyLine expression).IsFirst :=
  fun _ => Nat.zero_le _

def inside : Version.Expression := ⟨['(', '1', ')', ' ', '|', ' ', '(', '2', ')'], by decide, by decide⟩

theorem version?_balanced_iff_inside :
    (onlyLine inside).IsFirst ∧ Version.Balanced (onlyLine inside).replacement ∧
      version? "#define V ((1) | (2))\n" "V" = some "(1) | (2)" ∧
      (Version.Balanced "(1) | (2)".toList ↔ Version.ClosesLast "((1) | (2))".toList) := by
  have hbalanced : Version.Balanced (onlyLine inside).replacement := by decide
  have hversion : version? "#define V ((1) | (2))\n" "V" = some "(1) | (2)" := by
    refine (version?_of_isFirst (isFirst_onlyLine inside)).trans ?_
    rw [Version.normalize, Version.collapse_eq_squeeze]
    rfl
  exact ⟨isFirst_onlyLine inside, hbalanced, hversion,
    version?_balanced_iff (onlyLine inside) (isFirst_onlyLine inside) hbalanced hversion⟩

def torn : Version.Expression := ⟨['1', ')', ' ', '|', ' ', '(', '2'], by decide, by decide⟩

/-- A balanced line may have a version that is not. -/
theorem version?_torn : ¬ ∀ (header name version : String), version? header name = some version →
    ∀ place : Version.Place name.toList header.toList, place.IsFirst →
      Version.Balanced place.replacement → Version.Balanced version.toList := by
  intro h
  have hbalanced : Version.Balanced (onlyLine torn).replacement := by decide
  have hversion : version? "#define V (1) | (2)\n" "V" = some "1) | (2" := by
    refine (version?_of_isFirst (isFirst_onlyLine torn)).trans ?_
    rw [Version.normalize, Version.collapse_eq_squeeze]
    rfl
  have htorn : ¬ Version.Balanced "1) | (2".toList := by decide
  exact htorn (h _ _ _ hversion (onlyLine torn) (isFirst_onlyLine torn) hbalanced)

end EnumBinding.Header
