import EnumBinding.Proofs.Header.Formula
import EnumBinding.Proofs.Header.VersionPlace

/-!
# The value of a version

Normalizing the text of a formula leaves a formula: its runs of spaces get
shorter, and an operand `0` may go from its end, which adds nothing to its
value (`normalize_padded`). So a macro that is defined as a formula has a version
of the same value (`version?_value`).
-/

namespace EnumBinding.Header

open Text (isBlank Stops width)

namespace Version

variable {kind : Kind} {name text : List Char} {c : Char}

-- ---------------------------------------------------------------------------
-- Formulas with fewer spaces
-- ---------------------------------------------------------------------------

namespace Formula

/-- The formula with one space in the place of more. -/
def tight : {kind : Kind} → Formula kind → Formula kind
  | _, .number digits => .number digits
  | _, shift before base beforeSign afterSign count after =>
    shift (min before 1) base (min beforeSign 1) (min afterSign 1) count (min after 1)
  | _, group before inner after => group (min before 1) inner.tight (min after 1)
  | _, only operand => only operand.tight
  | _, join operand beforeBar afterBar others =>
    join operand.tight (min beforeBar 1) (min afterBar 1) others.tight

@[simp] theorem value_tight (e : Formula kind) : e.tight.value = e.value := by
  induction e with
  | number digits => rfl
  | shift before base beforeSign afterSign count after => rfl
  | group before inner after ih => exact ih
  | only operand ih => exact ih
  | join operand beforeBar afterBar others ih ihOthers => rw [tight, value, value, ih, ihOthers]

theorem head?_ne_space (e : Formula kind) (rest : List Char) : (e.text ++ rest).head? ≠ some ' ' := by
  intro h
  simpa using e.stops_text rest ' ' h

theorem squeeze_text (e : Formula kind) (rest : List Char) :
    squeeze (e.text ++ rest) = e.tight.text ++ squeeze rest := by
  have hdigits : ∀ (digits : Number) (tail : List Char), (digits.1 ++ tail).head? ≠ some ' ' :=
    fun digits => (Formula.number digits).head?_ne_space
  induction e generalizing rest with
  | number digits => exact squeeze_append (digits.notMem rfl) rest
  | shift before base beforeSign afterSign count after =>
    rw [shift_append, squeeze_cons (by decide), squeeze_spaces _ (hdigits base _),
      squeeze_append (base.notMem rfl), squeeze_spaces _ (by simp), squeeze_cons (by decide),
      squeeze_cons (by decide), squeeze_spaces _ (hdigits count _),
      squeeze_append (count.notMem rfl), squeeze_spaces _ (by simp), squeeze_cons (by decide), tight,
      shift_append]
  | group before inner after ih =>
    rw [group_append, squeeze_cons (by decide), squeeze_spaces _ (inner.head?_ne_space _), ih,
      squeeze_spaces _ (by simp), squeeze_cons (by decide), tight, group_append]
  | only operand ih => exact ih rest
  | join operand beforeBar afterBar others ih ihOthers =>
    rw [join_append, ih, squeeze_spaces _ (by simp), squeeze_cons (by decide),
      squeeze_spaces _ (others.head?_ne_space _), ihOthers, tight, join_append]

-- ---------------------------------------------------------------------------
-- Trimming
-- ---------------------------------------------------------------------------

theorem exists_concat (e : Formula kind) : ∃ cs c, e.text = cs ++ [c] ∧ (c.isDigit = true ∨ c = ')') := by
  induction e with
  | number digits =>
    obtain ⟨cs, c, hsplit⟩ := (List.eq_nil_or_concat' digits.1).resolve_left digits.2.1
    exact ⟨cs, c, hsplit, .inl (List.all_eq_true.mp digits.2.2 c (by simp [hsplit]))⟩
  | shift before base beforeSign afterSign count after =>
    refine ⟨'(' :: (spaces before ++ (base.1 ++ (spaces beforeSign ++ '<' :: '<' ::
      (spaces afterSign ++ (count.1 ++ spaces after))))), ')', by simp [text], .inr rfl⟩
  | group before inner after =>
    exact ⟨'(' :: (spaces before ++ (inner.text ++ spaces after)), ')', by simp [text], .inr rfl⟩
  | only operand ih => exact ih
  | join operand beforeBar afterBar others _ ih =>
    obtain ⟨cs, c, hothers, hc⟩ := ih
    refine ⟨operand.text ++ (spaces beforeBar ++ '|' :: (spaces afterBar ++ cs)), c, ?_, hc⟩
    simp [text, hothers]

theorem isBlank_of_isDigit (h : c.isDigit = true) : isBlank c = false :=
  Text.isBlank_of_isDecimal (Text.isDecimal_of_isDigit h)

def padded (e : Formula kind) (lead trail : Nat) : List Char :=
  spaces lead ++ (e.text ++ spaces trail)

theorem trim_padded (e : Formula kind) (lead trail : Nat) :
    Text.trim (e.padded lead trail) = e.text := by
  have hspaces : ∀ count, (spaces count).all isBlank = true := by simp [spaces, isBlank, Text.blanks]
  have hstart : Text.trimStart (e.text ++ spaces trail) = e.text ++ spaces trail := by
    obtain ⟨c, cs, htext, hc⟩ := e.exists_cons
    refine Text.dropWhile_of_stops ?_
    rw [htext, List.cons_append, Text.stops_cons]
    rcases hc with hdigit | rfl
    · exact isBlank_of_isDigit hdigit
    · rfl
  have hend : Text.trimEnd e.text = e.text := by
    obtain ⟨cs, c, htext, hc⟩ := e.exists_concat
    rw [htext, Text.trimEnd_concat]
    rcases hc with hdigit | rfl
    · exact isBlank_of_isDigit hdigit
    · rfl
  rw [padded, Text.trim_append (hspaces lead), Text.trim, hstart, Text.trimEnd_append (hspaces trail), hend]

-- ---------------------------------------------------------------------------
-- The zero patch
-- ---------------------------------------------------------------------------

def zero : Number := .ofDigits '0' [] rfl

theorem not_zeroPatch_suffix (e : Formula .operand) : ¬ zeroPatch <:+ e.text := by
  rintro ⟨lead, hlead⟩
  have hclosed : ∀ cs, lead ++ zeroPatch ≠ cs ++ [')'] := by
    intro cs h
    have hlast := congrArg List.getLast? h
    rw [List.getLast?_concat, List.getLast?_append] at hlast
    cases hlast
  cases e with
  | number digits =>
    refine digits.notMem (c := ' ') rfl ?_
    rw [text] at hlead
    rw [← hlead]
    simp [zeroPatch]
  | shift before base beforeSign afterSign count after =>
    refine hclosed ('(' :: (spaces before ++ (base.1 ++ (spaces beforeSign ++ '<' :: '<' ::
      (spaces afterSign ++ (count.1 ++ spaces after)))))) ?_
    simpa [text] using hlead
  | group before inner after =>
    refine hclosed ('(' :: (spaces before ++ (inner.text ++ spaces after))) ?_
    simpa [text] using hlead

theorem eq_zero_of_append {lead : List Char} (e : Formula .joined) (h : zeroPatch = lead ++ e.text) :
    e = only (.number zero) ∧ lead = " | ".toList := by
  obtain ⟨c, cs, htext, hc⟩ := e.exists_cons
  have hspace : c ≠ ' ' := by
    rintro rfl
    exact absurd hc (by decide)
  have hbar : c ≠ '|' := by
    rintro rfl
    exact absurd hc (by decide)
  rw [htext] at h
  match lead, h with
  | [], h => exact absurd (List.cons.inj h).1.symm hspace
  | [_], h => exact absurd (List.cons.inj (List.cons.inj h).2).1.symm hbar
  | [_, _], h => exact absurd (List.cons.inj (List.cons.inj (List.cons.inj h).2).2).1.symm hspace
  | [_, _, _], h =>
    cases h
    exact ⟨text_injective htext, rfl⟩
  | _ :: _ :: _ :: _ :: _, h =>
    have hlength := congrArg List.length h
    simp [zeroPatch] at hlength

theorem eq_one_of_append {lead : List Char} {m n : Nat} (operand : Formula .operand) (hm : m ≤ 1)
    (hn : n ≤ 1) (h : operand.text ++ (spaces m ++ '|' :: spaces n) = lead ++ " | ".toList) :
    m = 1 ∧ n = 1 := by
  have hafter : n ≠ 0 := by
    rintro rfl
    have hlast := congrArg List.getLast? h
    simp [spaces, List.getLast?_append] at hlast
  obtain rfl : n = 1 := by omega
  have hbar : operand.text ++ spaces m ++ "| ".toList = lead ++ [' '] ++ "| ".toList := by
    simpa [spaces] using h
  have hlead := List.append_cancel_right hbar
  refine ⟨?_, rfl⟩
  have hbefore : m ≠ 0 := by
    rintro rfl
    obtain ⟨cs, c, htext, hc⟩ := operand.exists_concat
    rw [spaces, List.replicate_zero, List.append_nil, htext] at hlead
    rw [(List.append_singleton_inj.mp hlead).2] at hc
    exact absurd hc (by decide)
  omega

theorem exists_without_zero (e : Formula kind) (h : zeroPatch <:+ e.tight.text) :
    ∃ kept : Formula .joined, e.tight.text = kept.text ++ zeroPatch ∧ kept.value = e.value := by
  induction e with
  | number digits => exact absurd h (not_zeroPatch_suffix _)
  | shift before base beforeSign afterSign count after => exact absurd h (not_zeroPatch_suffix _)
  | group before inner after _ => exact absurd h (not_zeroPatch_suffix _)
  | only operand ih => exact ih h
  | join operand beforeBar afterBar others _ ih =>
    obtain ⟨lead, hlead⟩ := h
    have hsplit : lead ++ zeroPatch = (operand.tight.text ++ (spaces (min beforeBar 1) ++
        '|' :: spaces (min afterBar 1))) ++ others.tight.text := by
      rw [hlead, tight, text]
      simp
    rcases List.append_eq_append_iff.mp hsplit with ⟨mid, hbar, hzero⟩ | ⟨mid, rfl, hothers⟩
    · obtain ⟨hothers, rfl⟩ := eq_zero_of_append _ hzero
      obtain ⟨hbefore, hafter⟩ := eq_one_of_append _ (Nat.min_le_right _ _) (Nat.min_le_right _ _) hbar
      have hnothing : others.value = 0 := by
        rw [← value_tight, hothers]
        rfl
      refine ⟨only operand.tight, ?_, ?_⟩
      · rw [tight, text, hbefore, hafter, hothers, text]
        rfl
      · rw [value, value, value_tight, hnothing, Nat.or_zero]
    · obtain ⟨kept, htext, hvalue⟩ := ih ⟨mid, hothers.symm⟩
      refine ⟨join operand.tight (min beforeBar 1) (min afterBar 1) kept, ?_, ?_⟩
      · rw [tight, text, htext, text]
        simp
      · rw [value, value, hvalue, value_tight]

end Formula

/-- Normalizing a formula leaves a formula of the same value. -/
theorem normalize_padded (e : Formula .joined) (lead trail : Nat) :
    ∃ kept : Formula .joined,
      normalize (e.padded lead trail) = kept.text ∧ kept.value = e.value := by
  have hsqueezed : collapse (Text.trim (e.padded lead trail)) = e.tight.text := by
    rw [e.trim_padded, collapse_eq_squeeze]
    simpa [squeeze] using e.squeeze_text []
  unfold normalize
  rw [hsqueezed]
  simp only
  split
  · next hzero =>
    obtain ⟨kept, htext, hvalue⟩ := e.exists_without_zero (List.isSuffixOf_iff_suffix.mp hzero)
    refine ⟨kept, ?_, hvalue⟩
    rw [htext, List.length_append, Nat.add_sub_cancel_right, List.take_left]
  · exact ⟨e.tight, rfl, e.value_tight⟩

-- ---------------------------------------------------------------------------
-- The macro
-- ---------------------------------------------------------------------------

theorem Place.isFirst_of_free {place : Place name text} (hfree : ¬ keyword <:+: place.before) :
    place.IsFirst := by
  intro other
  by_contra hlt
  obtain ⟨mid, hbefore, hrest⟩ := Text.exists_append_of_width_le
    (other.text_eq.symm.trans place.text_eq) (Nat.le_of_lt (Nat.lt_of_not_le hlt))
  rw [Definition.text, List.append_assoc] at hrest
  rcases List.append_eq_append_iff.mp hrest with ⟨tail, rfl, -⟩ | ⟨tail, hkeyword, -⟩
  · exact hfree ⟨other.before, tail, by rw [hbefore, List.append_assoc]⟩
  · -- The line end before the place would stand inside the keyword.
    rcases List.eq_nil_or_concat' mid with rfl | ⟨init, c, rfl⟩
    · rw [List.append_nil] at hbefore
      rw [hbefore] at hlt
      exact hlt (Nat.le_refl _)
    · have hline := place.lineStart
      rw [hbefore, ← List.append_assoc, List.getLast?_concat, Option.all_some, beq_iff_eq] at hline
      have hmem : '\n' ∈ keyword := by simp [hkeyword, hline]
      simp [keyword_eq] at hmem

theorem Formula.lineEnd_notMem_padded (e : Formula kind) (lead trail : Nat) :
    '\n' ∉ e.padded lead trail := by
  have hspaces : ∀ count, '\n' ∉ spaces count := by simp [spaces]
  have hdigits : ∀ digits : Number, '\n' ∉ digits.1 := fun digits => digits.notMem rfl
  have htext : '\n' ∉ e.text := by
    induction e with
    | number digits => exact hdigits digits
    | shift before base beforeSign afterSign count after => simp [text, hspaces, hdigits]
    | group before inner after ih => simp [text, hspaces, ih]
    | only operand ih => exact ih
    | join operand beforeBar afterBar others ih ihOthers => simp [text, hspaces, ih, ihOthers]
  simp [padded, hspaces, htext]

def Formula.expression (e : Formula kind) (lead trail : Nat) : Expression :=
  ⟨e.padded lead trail, by
    obtain ⟨c, cs, htext, -⟩ := e.exists_cons
    simp [padded, htext], e.lineEnd_notMem_padded lead trail⟩

end Version

/-- A macro that is defined as a formula has a version, and its text is that of formulas of the same
value only. -/
theorem version?_value (above name below : String) (e : Version.Formula .joined) (lead trail : Nat)
    (hfree : ¬ "#define".toList <:+: above.toList)
    (habove : above = "" ∨ above.toList.getLast? = some '\n')
    (hbelow : below = "" ∨ below.toList.head? = some '\n') :
    ∃ kept : Version.Formula .joined,
      version? (above ++ "#define " ++ name ++ " (" ++ String.ofList (e.padded lead trail) ++ ")" ++
        below) name = some (String.ofList kept.text) ∧
      kept.value = e.value ∧
      ∀ other : Version.Formula .joined, other.text = kept.text → other.value = e.value := by
  have hstart : above.toList.getLast?.all (· == '\n') = true := by
    rcases habove with rfl | hlast
    · rfl
    · rw [hlast]
      rfl
  have hend : Stops (· != '\n') below.toList := by
    rcases hbelow with rfl | hhead
    · exact Text.stops_nil
    · intro c hc
      rw [hhead] at hc
      cases hc
      rfl
  have hversion := version?_of_isFirst (Version.Place.isFirst_of_free hfree :
    (Version.Place.spaced above name below (e.expression lead trail) hstart hend).IsFirst)
  obtain ⟨kept, hnormal, hvalue⟩ := Version.normalize_padded e lead trail
  refine ⟨kept, hversion.trans (congrArg (some ∘ String.ofList) hnormal), hvalue, fun other hother => ?_⟩
  rw [Version.Formula.text_injective hother, hvalue]

def patched : Version.Formula .joined :=
  .join (.shift 0 (.ofDigits '1' [] rfl) 0 0 (.ofDigits '2' ['4'] rfl) 0) 3 2
    (.join (.shift 0 (.ofDigits '1' ['8'] rfl) 1 1 (.ofDigits '1' ['6'] rfl) 0) 1 3
      (.only (.number Version.Formula.zero)))

theorem version?_value_patched :
    ¬ "#define".toList <:+: "#if 1\n".toList ∧ "#if 1\n".toList.getLast? = some '\n' ∧
      "\n#endif\n".toList.head? = some '\n' ∧
      ∃ kept : Version.Formula .joined,
        version? "#if 1\n#define V (  (1<<24)   |  (18 << 16) |   0 )\n#endif\n" "V" =
            some (String.ofList kept.text) ∧
          kept.value = 17956864 ∧
          ∀ other : Version.Formula .joined, other.text = kept.text → other.value = 17956864 := by
  have hfree : ¬ "#define".toList <:+: "#if 1\n".toList := by
    intro hinfix
    have hletter : 'd' ∈ "#if 1\n".toList := hinfix.subset (by simp)
    simp at hletter
  have habove : "#if 1\n".toList.getLast? = some '\n' := rfl
  have hbelow : "\n#endif\n".toList.head? = some '\n' := rfl
  have hvalue : patched.value = 17956864 := rfl
  have htext : patched.padded 2 1 = "  (1<<24)   |  (18 << 16) |   0 ".toList := rfl
  have hversion := version?_value "#if 1\n" "V" "\n#endif\n" patched 2 1 hfree (.inr habove)
    (.inr hbelow)
  rw [hvalue, htext, String.ofList_toList] at hversion
  exact ⟨hfree, habove, hbelow, hversion⟩

end EnumBinding.Header
