import EnumBinding.Proofs.Header.ScanLaws
import EnumBinding.Proofs.Text.LineLaws

/-!
# Reading up to the start of a line

A read that begins above a line on which a name stands ends above that line,
at its start, or with it: names, digits and commas never reach into it, and a
note does so only if nothing but blanks stands between its `//` and the name
(`Ends`). In the last case the whole line is the note.
-/

namespace EnumBinding.Header.Entry

open Text (isBlank isIndent Stops)

def lineStartAfter (lineStart : Bool) (passed : List Char) : Bool :=
  passed.getLast?.elim lineStart (· == '\n')

def EndsLine (cs : List Char) : Prop := cs.getLast? = some '\n'

/-- What was read in `before` has the first visible line of `tail` for its note. -/
structure Over (before tail : List Char) (entry : Entry) (rest : List Char) : Prop where
  blanks : ∃ head run, before = head ++ '/' :: '/' :: run ∧ run.all isBlank = true
  note : entry.note = some ((tail.dropWhile isBlank).takeWhile (· != '\n'))
  rest : rest = (tail.dropWhile isBlank).dropWhile (· != '\n')

/-- Where a read that begins in `before` may end, if a name stands first in `tail`. -/
inductive Ends (before tail : List Char) (entry : Entry) (rest : List Char) : Prop
  | short (left : List Char) : rest = left ++ tail → lineStartAfter entry.endsLine left = true →
      Ends before tail entry rest
  | taken : Over before tail entry rest → Ends before tail entry rest

variable {p : Char → Bool} {stem raw before tail rest note cs passed : List Char} {c : Char}
  {entry : Entry} {lineStart : Bool}

theorem lineStartAfter_cons (c : Char) (before : List Char) :
    lineStartAfter lineStart (c :: before) = lineStartAfter (c == '\n') before :=
  Text.elim_getLast?_cons lineStart c before

theorem Over.prepend (h : Over before tail entry rest) (more : List Char) :
    Over (more ++ before) tail entry rest := by
  obtain ⟨⟨head, run, rfl, hrun⟩, hnote, hrest⟩ := h
  exact ⟨⟨more ++ head, run, by simp, hrun⟩, hnote, hrest⟩

theorem Ends.prepend (h : Ends before tail entry rest) (more : List Char) :
    Ends (more ++ before) tail entry rest := by
  cases h with
  | short left hrest hleft => exact .short left hrest hleft
  | taken h => exact .taken (h.prepend more)

theorem EndsLine.of_cons (h : EndsLine (c :: before)) (hc : c ≠ '\n') : EndsLine before := by
  unfold EndsLine at h ⊢
  cases before with
  | nil => exact absurd (Option.some.inj h) hc
  | cons d before => simpa using h

theorem EndsLine.uncons (h : EndsLine before) (hs : before ++ tail = c :: cs) :
    ∃ left, before = c :: left ∧ cs = left ++ tail := by
  cases before with
  | nil => cases h
  | cons d before =>
    rw [List.cons_append, List.cons.injEq] at hs
    exact ⟨before, by rw [hs.1], hs.2.symm⟩

theorem EndsLine.lineStartAfter (h : EndsLine before) : lineStartAfter lineStart before = true := by
  rw [Entry.lineStartAfter, h]
  rfl

theorem EndsLine.dropWhile (h : EndsLine before) (hne : before.dropWhile p ≠ [])
    (tail : List Char) :
    (before ++ tail).dropWhile p = before.dropWhile p ++ tail ∧ EndsLine (before.dropWhile p) :=
  ⟨Text.dropWhile_append_of_ne_nil hne tail, (Text.getLast?_dropWhile hne).trans h⟩

theorem EndsLine.dropWhile_ne_nil (h : EndsLine before) (hp : p '\n' = false) :
    before.dropWhile p ≠ [] :=
  Text.dropWhile_ne_nil (List.mem_of_getLast? h) hp

-- ---------------------------------------------------------------------------
-- Notes and endings
-- ---------------------------------------------------------------------------

theorem note?_ends (hb : EndsLine before) (ht : tail.dropWhile isBlank ≠ [])
    (h : note? (before ++ tail) = some (note, rest)) :
    Ends ('/' :: '/' :: before) tail ⟨raw, some note, false⟩ rest := by
  by_cases hd : before.dropWhile isBlank = []
  · have hall := List.dropWhile_eq_nil_iff.mp hd
    have hdrop : (before ++ tail).dropWhile isBlank = tail.dropWhile isBlank :=
      List.dropWhile_append_of_pos hall
    rw [note?_eq (by rwa [hdrop]), hdrop] at h
    cases h
    exact .taken ⟨⟨[], before, rfl, List.all_eq_true.mpr hall⟩, rfl, rfl⟩
  · obtain ⟨hdrop, hends⟩ := hb.dropWhile hd tail
    obtain ⟨hnote, hline⟩ :=
      hends.dropWhile (hends.dropWhile_ne_nil (p := (· != '\n')) (by simp)) tail
    rw [note?_eq (by simp [hdrop, hd]), hdrop, hnote] at h
    cases h
    exact .short _ rfl hline.lineStartAfter

theorem close?_ends (hb : EndsLine before) (ht : tail.dropWhile isBlank ≠ [])
    (h : close? raw (before ++ tail) = some (entry, rest)) : Ends before tail entry rest := by
  unfold close? at h
  split at h
  · next cs hcs =>
    obtain ⟨left, rfl, rfl⟩ := hb.uncons hcs
    cases h
    cases left with
    | nil => exact .short [] rfl rfl
    | cons d left => exact .short (d :: left) rfl (EndsLine.lineStartAfter hb)
  · next cs hcs =>
    obtain ⟨left, rfl, rfl⟩ := hb.uncons hcs
    cases h
    exact .short left rfl (hb.of_cons (by simp)).lineStartAfter
  · next cs hcs =>
    obtain ⟨left, rfl, hleft⟩ := hb.uncons hcs
    have hslash := hb.of_cons (by simp)
    obtain ⟨left, rfl, rfl⟩ := hslash.uncons hleft.symm
    obtain ⟨⟨note, after⟩, hnote, heq⟩ := Option.map_eq_some_iff.mp h
    cases heq
    exact note?_ends (hslash.of_cons (by simp)) ht hnote
  · cases h

theorem afterComma_endsLine (hb : EndsLine before) (tail : List Char) :
    ∃ passed left, before = passed ++ left ∧ EndsLine left ∧
      afterComma (before ++ tail) = left ++ tail := by
  unfold afterComma
  split
  · next cs hcs =>
    obtain ⟨left, rfl, rfl⟩ := hb.uncons hcs
    have hb := hb.of_cons (by simp)
    obtain ⟨hdrop, hends⟩ := hb.dropWhile (hb.dropWhile_ne_nil (p := isIndent) rfl) tail
    refine ⟨',' :: left.takeWhile isIndent, left.dropWhile isIndent, ?_, hends, hdrop⟩
    rw [List.cons_append, List.takeWhile_append_dropWhile]
  · exact ⟨[], before, rfl, hb, rfl⟩

theorem ending?_ends (hb : EndsLine before) (ht : tail.dropWhile isBlank ≠ [])
    (h : ending? raw (before ++ tail) = some (entry, rest)) : Ends before tail entry rest := by
  obtain ⟨hdrop, hends⟩ := hb.dropWhile (hb.dropWhile_ne_nil (p := isIndent) rfl) tail
  obtain ⟨passed, left, hleft, hends, hcomma⟩ := afterComma_endsLine hends tail
  rw [ending?, hdrop, hcomma] at h
  rw [← List.takeWhile_append_dropWhile (p := isIndent) (l := before), hleft]
  exact ((close?_ends hends ht h).prepend passed).prepend (before.takeWhile isIndent)

-- ---------------------------------------------------------------------------
-- Members
-- ---------------------------------------------------------------------------

theorem dropWhile_isBlank_cases (hb : EndsLine before) (tail : List Char) :
    (before ++ tail).dropWhile isBlank = tail.dropWhile isBlank ∨
      ∃ passed left, before = passed ++ left ∧ EndsLine left ∧
        (before ++ tail).dropWhile isBlank = left ++ tail := by
  by_cases hd : before.dropWhile isBlank = []
  · exact .inl (List.dropWhile_append_of_pos (List.dropWhile_eq_nil_iff.mp hd))
  · obtain ⟨hdrop, hends⟩ := hb.dropWhile hd tail
    exact .inr ⟨before.takeWhile isBlank, _, List.takeWhile_append_dropWhile.symm, hends, hdrop⟩

section
variable (htail : tail.dropWhile isBlank = c :: cs) (hc : Config.isIdentifierStart c = true)
include htail hc

theorem value?_ends (hb : EndsLine before) (h : value? raw (before ++ tail) = some (entry, rest)) :
    Ends before tail entry rest := by
  have ht : tail.dropWhile isBlank ≠ [] := by simp [htail]
  unfold value? at h
  split at h
  · next ds hequals =>
    rcases dropWhile_isBlank_cases hb tail with hname | ⟨passed, left, rfl, hends, hdrop⟩
    · rw [hname, htail] at hequals
      exact absurd (List.cons.inj hequals).1 (Text.ne_of_kind hc rfl)
    · rw [hdrop] at hequals
      obtain ⟨left, rfl, rfl⟩ := hends.uncons hequals
      have hleft := hends.of_cons (by simp)
      rcases dropWhile_isBlank_cases hleft tail with hname | ⟨blanks, value, rfl, hvalue, hdrop⟩
      · rw [hname, htail] at h
        simp [Config.isDecimal_of_isIdentifierStart hc] at h
      · rw [hdrop] at h
        have hne := hvalue.dropWhile_ne_nil (p := Text.isDecimal) rfl
        obtain ⟨hdigits, hends⟩ := hvalue.dropWhile hne tail
        split at h
        · cases h
        · rw [hdigits] at h
          have := (ending?_ends hends ht h).prepend (value.takeWhile Text.isDecimal)
          rw [List.takeWhile_append_dropWhile] at this
          simpa using this.prepend (passed ++ '=' :: blanks)
  · cases h

theorem named?_ends (hs : IsStem stem) (hb : EndsLine before)
    (h : named? stem (before ++ tail) = some (entry, rest)) : Ends before tail entry rest := by
  obtain ⟨suffix, value, hne, hcs, hsuffix, hvalue⟩ := named?_eq_some h
  have hname : '\n' ∉ stem ++ suffix := by
    rw [List.mem_append, not_or]
    exact ⟨Text.notMem_of_all hs.word rfl, Text.notMem_of_all hsuffix rfl⟩
  rw [← List.append_assoc] at hcs
  rcases List.append_eq_append_iff.mp hcs with ⟨left, hleft, -⟩ | ⟨left, rfl, rfl⟩
  · refine absurd ?_ hname
    rw [hleft]
    exact List.mem_append_left _ (List.mem_of_getLast? hb)
  · have hends : EndsLine left := by
      unfold EndsLine at hb ⊢
      rw [List.getLast?_append] at hb
      cases hl : left.getLast? with
      | none =>
        rw [hl] at hb
        exact absurd (List.mem_of_getLast? hb) hname
      | some last =>
        rw [hl] at hb
        exact hb
    exact (value?_ends htail hc hends hvalue).prepend (stem ++ suffix)

theorem indented?_ends (hs : IsStem stem) (hb : EndsLine before)
    (h : indented? stem (before ++ tail) = some (entry, rest)) : Ends before tail entry rest := by
  obtain ⟨hdrop, hends⟩ := hb.dropWhile (hb.dropWhile_ne_nil (p := isIndent) rfl) tail
  rw [hs.indented?, hdrop] at h
  have := (named?_ends htail hc hs hends h).prepend (before.takeWhile isIndent)
  rwa [List.takeWhile_append_dropWhile] at this

theorem read?_ends (hs : IsStem stem) (hb : EndsLine before)
    (h : read? stem lineStart (before ++ tail) = some (entry, rest)) :
      Ends before tail entry rest := by
  unfold read? at h
  split at h
  · next found hfound =>
    cases h
    cases lineStart with
    | false => cases hfound
    | true => exact indented?_ends htail hc hs hb hfound
  · split at h
    · next cs hcs =>
      obtain ⟨left, rfl, rfl⟩ := hb.uncons hcs
      exact (indented?_ends htail hc hs (hb.of_cons (by simp)) h).prepend ['{']
    · cases h

/-- The next member begins above the line, or with the line if that is a member. -/
theorem next?_ends (hs : IsStem stem) (hb : lineStartAfter lineStart before = true)
    (hline : read? stem true tail = some (found, rest)) (passed : List Char) :
    next? stem lineStart passed (before ++ tail) = some (passed.reverse ++ before, found, rest) ∨
      ∃ gap left entry rest, before = gap ++ left ∧ left ≠ [] ∧ Ends left tail entry rest ∧
        next? stem lineStart passed (before ++ tail) =
          some (passed.reverse ++ gap, entry, rest) := by
  induction before generalizing lineStart passed with
  | nil =>
    left
    obtain rfl : lineStart = true := hb
    cases tail with
    | nil => cases htail
    | cons d tail =>
      rw [List.nil_append, next?, hline, List.append_nil]
  | cons d before ih =>
    rw [List.cons_append, next?]
    cases hread : read? stem lineStart (d :: (before ++ tail)) with
    | some found =>
      right
      have hends : EndsLine (d :: before) := by
        unfold lineStartAfter at hb
        rw [List.getLast?_cons] at hb
        simpa [EndsLine, List.getLast?_cons] using hb
      exact ⟨[], d :: before, found.1, found.2, rfl, by simp, read?_ends htail hc hs hends hread,
        by simp⟩
    | none =>
      have hb : lineStartAfter (d == '\n') before = true := by
        unfold lineStartAfter at hb ⊢
        rw [List.getLast?_cons] at hb
        cases hl : before.getLast? <;> simpa [hl] using hb
      simp only
      rcases ih hb (d :: passed) with h | ⟨gap, left, entry, rest, rfl, hne, hends, h⟩
      · left
        rw [h]
        simp
      · right
        exact ⟨d :: gap, left, entry, rest, rfl, hne, hends, by rw [h]; simp⟩

end

end EnumBinding.Header.Entry
