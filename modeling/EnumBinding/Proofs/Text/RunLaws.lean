import EnumBinding.Text.Blank
import EnumBinding.Text.Bytes
import EnumBinding.Text.Digit
import EnumBinding.Text.Match
import Mathlib.Data.List.TakeWhile

/-!
# Runs of characters

A run of one kind that something of another kind follows is taken whole and
no further. Trimming a text removes the blanks at its ends and nothing else.
The byte offsets of a text order its beginnings.
-/

namespace EnumBinding.Text

variable {p q inRun : Char → Bool} {c d : Char} {cs run first before rest : List Char}

-- ---------------------------------------------------------------------------
-- Kinds of characters
-- ---------------------------------------------------------------------------

theorem ne_of_kind (hc : p c = true) (hd : p d = false) : c ≠ d := by
  rintro rfl
  rw [hd] at hc
  cases hc

theorem notMem_of_all (h : cs.all p = true) (hd : p d = false) : d ∉ cs := by
  intro hmem
  exact ne_of_kind (List.all_eq_true.mp h d hmem) hd rfl

/-- What holds of the ASCII characters can be looked up in their table. -/
theorem forall_ascii {P : Char → Prop} (htable : ∀ code < 128, P (Char.ofNat code))
    (h : c.toNat < 128) : P c := by
  rw [← Char.ofNat_toNat c]
  exact htable c.toNat h

-- ---------------------------------------------------------------------------
-- Runs and what follows them
-- ---------------------------------------------------------------------------

/-- No run of the kind goes on into the text. -/
def Stops (p : Char → Bool) (cs : List Char) : Prop := ∀ c ∈ cs.head?, p c = false

@[simp] theorem stops_nil : Stops p [] := by simp [Stops]

@[simp] theorem stops_cons : Stops p (c :: cs) ↔ p c = false := by simp [Stops]

theorem Stops.append (hr : ∀ c ∈ run, p c = false) (h : Stops p cs) : Stops p (run ++ cs) := by
  cases run with
  | nil => exact h
  | cons c run => simpa using hr c (by simp)

theorem stops_append (hfirst : Stops p first) (hrest : Stops p rest) : Stops p (first ++ rest) := by
  cases first with
  | nil => exact hrest
  | cons c first => exact stops_cons.mpr (stops_cons.mp hfirst)

theorem Stops.of_append (h : Stops p (first ++ rest)) : Stops p first := by
  intro c hc
  apply h c
  rw [List.head?_append, Option.mem_def.mp hc]
  rfl

theorem stops_dropWhile (p : Char → Bool) (cs : List Char) : Stops p (cs.dropWhile p) := by
  intro c hc
  have h := List.head?_dropWhile_not p cs
  rw [Option.mem_def.mp hc] at h
  exact h

theorem takeWhile_of_stops (h : Stops p cs) : cs.takeWhile p = [] := by
  cases cs with
  | nil => rfl
  | cons c cs => simp [stops_cons.mp h]

theorem dropWhile_of_stops (h : Stops p cs) : cs.dropWhile p = cs := by
  cases cs with
  | nil => rfl
  | cons c cs => simp [stops_cons.mp h]

theorem takeWhile_run (hr : run.all p = true) (h : Stops p cs) : (run ++ cs).takeWhile p = run := by
  rw [List.takeWhile_append_of_pos (by simpa using hr), takeWhile_of_stops h, List.append_nil]

theorem dropWhile_run (hr : run.all p = true) (h : Stops p cs) : (run ++ cs).dropWhile p = cs := by
  rw [List.dropWhile_append_of_pos (by simpa using hr), dropWhile_of_stops h]

/-- Two runs that stop where they do are told apart from what follows them in one way only. -/
theorem run_inj {other : List Char} (hrun : run.all p = true) (hother : other.all p = true)
    (hcs : Stops p cs) (hrest : Stops p rest) (h : run ++ cs = other ++ rest) :
    run = other ∧ cs = rest := by
  have htake := congrArg (List.takeWhile p) h
  have hdrop := congrArg (List.dropWhile p) h
  rw [takeWhile_run hrun hcs, takeWhile_run hother hrest] at htake
  rw [dropWhile_run hrun hcs, dropWhile_run hother hrest] at hdrop
  exact ⟨htake, hdrop⟩

theorem stops_dropWhile_append (h : Stops q (run.dropWhile p)) (hp : p c = false) (hq : q c = false)
    (cs : List Char) : Stops q ((run ++ c :: cs).dropWhile p) := by
  rw [List.dropWhile_append]
  split
  · rw [dropWhile_of_stops (stops_cons.mpr hp)]
    exact stops_cons.mpr hq
  · next hne =>
    cases hd : run.dropWhile p with
    | nil => simp [hd] at hne
    | cons d ds => simpa [hd] using h

/-- The longest run is tried first, so it decides if anything can be read behind it. -/
theorem afterRun?_of_dropWhile {next : List Char → Option α}
    (h : next (cs.dropWhile inRun) = some a) :
    afterRun? inRun next cs = some a := by
  induction cs with
  | nil => exact h
  | cons c cs ih =>
    by_cases hc : inRun c = true
    · rw [List.dropWhile_cons_of_pos hc] at h
      simp [afterRun?, hc, ih h]
    · rw [List.dropWhile_cons_of_neg hc] at h
      simp [afterRun?, hc, h]

theorem dropWhile_ne_nil (hc : c ∈ first) (hp : p c = false) : first.dropWhile p ≠ [] := by
  intro hnil
  rw [List.dropWhile_eq_nil_iff.mp hnil c hc] at hp
  cases hp

theorem dropWhile_append_of_ne_nil (h : first.dropWhile p ≠ []) (rest : List Char) :
    (first ++ rest).dropWhile p = first.dropWhile p ++ rest := by
  rw [List.dropWhile_append, if_neg (by simpa using h)]

theorem takeWhile_append_of_ne_nil (h : first.dropWhile p ≠ []) (rest : List Char) :
    (first ++ rest).takeWhile p = first.takeWhile p := by
  rw [List.takeWhile_append, if_neg]
  intro hlen
  have htake := (List.takeWhile_prefix p).eq_of_length hlen
  exact h (List.dropWhile_eq_nil_iff.mpr (List.takeWhile_eq_self_iff.mp htake))

theorem getLast?_dropWhile (h : first.dropWhile p ≠ []) :
    (first.dropWhile p).getLast? = first.getLast? := by
  have hsplit := List.takeWhile_append_dropWhile (p := p) (l := first)
  have hlast := congrArg List.getLast? hsplit
  rw [List.getLast?_append, List.getLast?_eq_some_getLast h] at hlast
  rw [← hlast, List.getLast?_eq_some_getLast h]
  rfl

-- ---------------------------------------------------------------------------
-- Blanks
-- ---------------------------------------------------------------------------

abbrev Blanks := { run : List Char // run.all isBlank = true }

theorem all_isBlank_of_isIndent (h : run.all isIndent = true) : run.all isBlank = true := by
  rw [List.all_eq_true] at h ⊢
  exact fun c hc => isBlank_of_isIndent (h c hc)

@[simp] theorem isBlank_lineEnd : isBlank '\n' = true := by simp [isBlank, blanks]

theorem isBlank_of_isDecimal (h : isDecimal c = true) : isBlank c = false := by
  have hall : blanks.all (!isDecimal ·) = true := rfl
  rw [Bool.eq_false_iff]
  intro hb
  have hmem : c ∈ blanks := by simpa [isBlank] using hb
  simpa [h] using List.all_eq_true.mp hall c hmem

theorem trimStart_append (hr : run.all isBlank = true) (cs : List Char) :
    trimStart (run ++ cs) = trimStart cs :=
  List.dropWhile_append_of_pos (by simpa using hr)

theorem trimEnd_append (hr : run.all isBlank = true) (cs : List Char) :
    trimEnd (cs ++ run) = trimEnd cs := by
  rw [trimEnd, List.reverse_append, List.dropWhile_append_of_pos (by simpa using hr)]
  rfl

theorem trimEnd_concat (hc : isBlank c = false) (cs : List Char) :
    trimEnd (cs ++ [c]) = cs ++ [c] := by
  simp [trimEnd, hc]

theorem trimEnd_cons (hc : isBlank c = false) (cs : List Char) :
    trimEnd (c :: cs) = c :: trimEnd cs := by
  have hl : (cs.reverse ++ [c]).dropWhile isBlank = cs.reverse.dropWhile isBlank ++ [c] := by
    rw [List.dropWhile_append]
    split
    · next he => simp_all
    · rfl
  simp [trimEnd, hl]

theorem trim_eq_nil (h : cs.all isBlank = true) : trim cs = [] := by
  have hd := trimStart_append h []
  rw [List.append_nil] at hd
  rw [trim, hd]
  rfl

theorem trim_append (hr : run.all isBlank = true) (cs : List Char) :
    trim (run ++ cs) = trim cs := by
  rw [trim, trimStart_append hr, trim]

theorem trim_trimStart (cs : List Char) : trim (trimStart cs) = trim cs := by
  rw [trim, trim, trimStart, trimStart, dropWhile_of_stops (stops_dropWhile isBlank cs)]

theorem exists_trimEnd (cs : List Char) : ∃ trail : Blanks, cs = trimEnd cs ++ trail.1 := by
  refine ⟨⟨(cs.reverse.takeWhile isBlank).reverse, by simp⟩, ?_⟩
  rw [trimEnd, ← List.reverse_append, List.takeWhile_append_dropWhile, List.reverse_reverse]

theorem exists_trim (cs : List Char) :
    ∃ lead trail : Blanks, cs = lead.1 ++ (trim cs ++ trail.1) := by
  obtain ⟨trail, htrail⟩ := exists_trimEnd (trimStart cs)
  refine ⟨⟨cs.takeWhile isBlank, List.all_takeWhile⟩, trail, ?_⟩
  rw [trim, ← htrail, trimStart, List.takeWhile_append_dropWhile]

theorem trim_trimEnd (cs : List Char) : trim (trimEnd cs) = trim cs := by
  obtain ⟨trail, hs⟩ := exists_trimEnd cs
  have hstart : trimStart cs =
      if (trimStart (trimEnd cs)).isEmpty then trimStart trail.1
      else trimStart (trimEnd cs) ++ trail.1 :=
    (congrArg trimStart hs).trans List.dropWhile_append
  rw [trim, trim, hstart]
  split
  · next he =>
    have hrun := trim_eq_nil trail.2
    rw [trim] at hrun
    rw [hrun, List.isEmpty_iff.mp he]
    rfl
  · rw [trimEnd_append trail.2]

-- ---------------------------------------------------------------------------
-- Widths
-- ---------------------------------------------------------------------------

theorem width_reverse (cs : List Char) : width cs.reverse = width cs := by
  induction cs with
  | nil => rfl
  | cons c cs ih => simp [ih, Nat.add_comm]

theorem width_pos (h : cs ≠ []) : 0 < width cs := by
  obtain ⟨c, tail, rfl⟩ := List.exists_cons_of_ne_nil h
  have hc := c.utf8Size_pos
  rw [width_cons]
  omega

theorem width_le_of_suffix (h : rest <:+ cs) : width rest ≤ width cs := by
  obtain ⟨text, rfl⟩ := h
  rw [width_append]
  omega

theorem width_le_of_prefix (h : first <+: cs) : width first ≤ width cs := by
  obtain ⟨rest, rfl⟩ := h
  rw [width_append]
  omega

theorem exists_append_of_width_le (h : before ++ rest = first ++ cs)
    (hw : width before ≤ width first) :
    ∃ mid, first = before ++ mid ∧ rest = mid ++ cs := by
  rcases List.append_eq_append_iff.mp h with ⟨mid, hfirst, hrest⟩ | ⟨mid, rfl, rfl⟩
  · exact ⟨mid, hfirst, hrest⟩
  · rw [width_append] at hw
    cases mid with
    | nil => exact ⟨[], by simp, by simp⟩
    | cons c mid =>
      have hpos := width_pos (List.cons_ne_nil c mid)
      omega

end EnumBinding.Text
