import EnumBinding.Proofs.Header.Span
import EnumBinding.Proofs.Outcomes
import EnumBinding.Proofs.Text.OffsetLaws

/-!
# Comments looked up by offset

The comment above a member can be looked up in the whole header, between two
byte offsets: a floor, which is the start of the members for the first member
and the end of the member before for all others, and the place where the
member begins. The members of a block are the ones found so (`members_eq_mapM`),
and behind the first of them no lookup fails (`mapM_sites`).
-/

namespace EnumBinding.Header

open Text (slice? splitAt? width)

variable {header before rest cs stem text gap post : List Char} {c : Char} {floor : Nat}
  {spans : List Span} {block : Block}

-- ---------------------------------------------------------------------------
-- Lookups
-- ---------------------------------------------------------------------------

/-- Of these characters one may stand between a comment and the place where its member begins. -/
def margins : List Char := [' ', '\n', '\r', '\t']

def lookupEnd (header : List Char) (start : Nat) : Nat :=
  match splitAt? start header with
  | some (before, _) => if before.getLast?.any margins.contains then start - 1 else start
  | none => start

/-- The comment above a member that begins at the byte `start`, looked up no further than `floor`. -/
def lookup (header : List Char) (floor start : Nat) : Except BadOffset (List (List Char)) :=
  if lookupEnd header start ≤ floor then
    .ok []
  else
    match slice? floor (lookupEnd header start) header with
    | some above => .ok (commentRun (above.splitOn '\n').reverse).reverse
    | none => .error {}

structure Site where
  floor : Nat
  span : Span
deriving DecidableEq, Repr

variable {site : Site}

/-- Behind the first span the floor is where the span before ends. -/
def sites (floor : Nat) : List Span → List Site
  | [] => []
  | span :: spans => ⟨floor, span⟩ :: sites span.last spans

def Site.member? (header : List Char) (site : Site) : Except BadOffset Member :=
  match site.span.entry.note with
  | some note => .ok ⟨String.ofList site.span.entry.name, [String.ofList (Text.trim note)]⟩
  | none => (lookup header site.floor site.span.first).map fun comment =>
      ⟨String.ofList site.span.entry.name, comment.map String.ofList⟩

-- ---------------------------------------------------------------------------
-- Floors
-- ---------------------------------------------------------------------------

theorem mem_sites (hordered : spans.Pairwise fun before after => before.last ≤ after.first)
    (h : site ∈ sites floor spans) : site.span ∈ spans ∧ (site.floor = floor ∨
      ∃ earlier ∈ spans, site.floor = earlier.last ∧ earlier.last ≤ site.span.first) := by
  induction spans generalizing floor with
  | nil => cases h
  | cons span spans ih =>
    obtain ⟨hspan, hordered⟩ := List.pairwise_cons.mp hordered
    rcases List.mem_cons.mp h with rfl | h
    · exact ⟨List.mem_cons_self, .inl rfl⟩
    · obtain ⟨hmem, hfloor⟩ := ih hordered h
      refine ⟨List.mem_cons_of_mem span hmem, .inr ?_⟩
      rcases hfloor with hfloor | ⟨earlier, hearlier, hfloor⟩
      · exact ⟨span, List.mem_cons_self, hfloor, hspan site.span hmem⟩
      · exact ⟨earlier, List.mem_cons_of_mem span hearlier, hfloor⟩

theorem sites_pairwise (hordered : spans.Pairwise fun before after => before.last ≤ after.first)
    (hspans : ∀ span ∈ spans, span.first ≤ span.last) (floor : Nat) :
    (sites floor spans).Pairwise fun before after => before.span.last ≤ after.floor := by
  induction spans generalizing floor with
  | nil => exact .nil
  | cons span spans ih =>
    obtain ⟨hspan, hordered⟩ := List.pairwise_cons.mp hordered
    obtain ⟨-, hspans⟩ := List.forall_mem_cons.mp hspans
    refine .cons (fun site hsite => ?_) (ih hordered hspans span.last)
    rcases (mem_sites hordered hsite).2 with hfloor | ⟨earlier, hearlier, hfloor, -⟩
    · exact Nat.le_of_eq hfloor.symm
    · rw [hfloor]
      exact Nat.le_trans (hspan earlier hearlier) (hspans earlier hearlier)

-- ---------------------------------------------------------------------------
-- What a lookup finds
-- ---------------------------------------------------------------------------

theorem dropLineEnd_margin (hc : c ∈ margins) (cs : List Char) : dropLineEnd (cs ++ [c]) = cs := by
  rw [dropLineEnd, List.getLast?_concat, List.dropLast_concat]
  simp only [margins, List.mem_cons, List.not_mem_nil, or_false] at hc
  simp [hc, or_assoc]

theorem dropLineEnd_of_not (h : ¬ ∃ c ∈ cs.getLast?, c ∈ margins) : dropLineEnd cs = cs := by
  unfold dropLineEnd
  cases hlast : cs.getLast? with
  | none => exact (List.getLast?_eq_none_iff.mp hlast).symm
  | some c =>
    have hc : c ∉ margins := fun hmem => h ⟨c, hlast, hmem⟩
    simp only [margins, List.mem_cons, List.not_mem_nil, or_false] at hc
    simp [hc, or_assoc]

theorem width_margin (hc : c ∈ margins) : width [c] = 1 := by
  simp only [margins, List.mem_cons, List.not_mem_nil, or_false] at hc
  rcases hc with rfl | rfl | rfl | rfl <;> rfl

theorem lookupEnd_margin (hc : c ∈ margins) (before rest : List Char) :
    lookupEnd (before ++ c :: rest) (width (before ++ [c])) = width before := by
  have hsplit : splitAt? (width (before ++ [c])) (before ++ c :: rest) = some (before ++ [c], rest) :=
    Text.splitAt?_eq_some_iff.mpr ⟨by simp, rfl⟩
  have hmargin : (before ++ [c]).getLast?.any margins.contains = true := by
    rw [List.getLast?_concat]
    exact List.contains_iff_mem.mpr hc
  rw [lookupEnd, hsplit]
  simp only [hmargin, if_true]
  rw [Text.width_append, width_margin hc, Nat.add_sub_cancel]

theorem lookupEnd_of_not (h : ¬ ∃ c ∈ before.getLast?, c ∈ margins) (rest : List Char) :
    lookupEnd (before ++ rest) (width before) = width before := by
  have hsplit : splitAt? (width before) (before ++ rest) = some (before, rest) :=
    Text.splitAt?_eq_some_iff.mpr ⟨rfl, rfl⟩
  have hmargin : ¬ before.getLast?.any margins.contains = true := by
    rw [Option.any_eq_true]
    rintro ⟨c, hlast, hc⟩
    exact h ⟨c, hlast, List.contains_iff_mem.mp hc⟩
  rw [lookupEnd, hsplit]
  exact if_neg hmargin

theorem commentAbove_margin (hc : c ∈ margins) : commentAbove [c] = [] := by
  rw [← List.nil_append [c], commentAbove, dropLineEnd_margin hc]
  rfl

theorem lookup_eq (floor : Nat) (before rest : List Char) :
    lookup (before ++ rest) floor (width before) =
      (aboveFirst (before ++ rest) floor (width before)).map commentAbove := by
  -- A lookup ends before the margin; `commentAbove` is given the margin too, and drops it.
  by_cases hmargin : ∃ c ∈ before.getLast?, c ∈ margins
  · obtain ⟨c, hlast, hc⟩ := hmargin
    obtain ⟨init, rfl⟩ := List.getLast?_eq_some_iff.mp hlast
    have hend : lookupEnd (init ++ [c] ++ rest) (width (init ++ [c])) = width init := by
      simpa using lookupEnd_margin hc init rest
    have hwidth : width (init ++ [c]) = width init + 1 := by
      rw [Text.width_append, width_margin hc]
    unfold lookup aboveFirst
    rw [hend]
    by_cases hfloor : width init ≤ floor
    · rw [if_pos hfloor]
      split
      · rfl
      · obtain rfl : width init = floor := by omega
        have hslice := Text.slice?_append init [c] rest
        rw [← Text.width_append, ← List.append_assoc] at hslice
        rw [hslice]
        exact congrArg Except.ok (commentAbove_margin hc).symm
    · have hinit : slice? floor (width init) (init ++ [c] ++ rest) =
          (splitAt? floor init).map (·.2) := by
        rw [List.append_assoc]
        exact Text.slice?_of_le (by omega) _
      rw [if_neg hfloor, if_neg (by omega), hinit, Text.slice?_of_le (by omega),
        Text.splitAt?_append_of_le (by omega)]
      cases splitAt? floor init with
      | none => rfl
      | some found => simp [Except.map, commentAbove, dropLineEnd_margin hc]
  · have hend := lookupEnd_of_not hmargin rest
    unfold lookup aboveFirst
    rw [hend]
    split
    · rfl
    · next hfloor =>
      rw [Text.slice?_of_le (by omega)]
      cases hsplit : splitAt? floor before with
      | none => rfl
      | some found =>
        obtain ⟨first, above⟩ := found
        obtain ⟨rfl, rfl⟩ := Text.splitAt?_eq_some_iff.mp hsplit
        have hne : above ≠ [] := by
          rintro rfl
          simp at hfloor
        have hlast : (first ++ above).getLast? = above.getLast? := by
          simp [List.getLast?_append, List.getLast?_eq_some_getLast hne]
        rw [hlast] at hmargin
        simp [Except.map, commentAbove, dropLineEnd_of_not hmargin]

-- ---------------------------------------------------------------------------
-- The members of a block
-- ---------------------------------------------------------------------------

theorem Site.member?_eq (hheader : header = before ++ rest) (floor last : Nat) (entry : Entry) :
    Site.member? header ⟨floor, width before, last, entry⟩ =
      match entry.note with
      | some _ => .ok (entry.toMember [])
      | none => (aboveFirst header floor (width before)).map entry.toMember := by
  unfold Site.member? Entry.toMember
  cases entry.note with
  | some note => rfl
  | none =>
    simp only [hheader, lookup_eq]
    cases aboveFirst (before ++ rest) floor (width before) <;> rfl

/-- If the floor is where the scan has been, the lookup finds what the scan has passed. -/
theorem Site.member?_gap (hheader : header = before ++ (gap ++ rest)) (last : Nat) (entry : Entry) :
    Site.member? header ⟨width before, width (before ++ gap), last, entry⟩ =
      .ok (entry.toMember gap) := by
  have hsplit : header = before ++ gap ++ rest := by rw [hheader, List.append_assoc]
  have habove : aboveFirst header (width before) (width (before ++ gap)) = .ok gap := by
    simpa using aboveFirst_eq_drop hheader hsplit
  rw [Site.member?_eq hsplit, habove]
  cases hnote : entry.note with
  | some note => exact congrArg Except.ok (Block.toMember_note hnote _ _)
  | none => rfl

theorem mapM_sites (stem : List Char) (lineStart : Bool)
    (hheader : header = before ++ (cs ++ post)) :
    (sites (width before) (Entry.spans stem lineStart (width before) cs)).mapM
        (Site.member? header) =
      .ok ((Entry.all stem lineStart cs).map fun (above, entry) => entry.toMember above) := by
  induction lineStart, cs using Entry.all.induct stem generalizing before with
  | case1 lineStart cs hnone =>
    rw [Entry.spans_of_next?_eq_none hnone, Entry.all_of_next?_eq_none hnone]
    rfl
  | case2 lineStart cs gap entry rest hsome ih =>
    obtain ⟨text, rfl, hspans⟩ := Entry.spans_eq_append hsome before
    have hfirst : header = before ++ (gap ++ (text ++ rest ++ post)) := by simp [hheader]
    have hothers : header = before ++ gap ++ text ++ (rest ++ post) := by simp [hheader]
    rw [hspans, Entry.all_of_next?_eq_some hsome, sites, List.mapM_cons, Site.member?_gap hfirst,
      ih hothers]
    rfl

/-- The members of a block are those of its spans, each looked up from its floor. -/
theorem members_eq_mapM (h : splitAt? block.last header = some (text, post)) :
    block.members stem header =
      (sites block.membersStart (block.spans stem header)).mapM (Site.member? header) := by
  obtain ⟨hheader, -⟩ := Text.splitAt?_eq_some_iff.mp h
  obtain ⟨before, inside, rfl, hseek, -⟩ := Text.seek_eq [] block.first text
  rw [List.append_nil] at hseek
  unfold Block.members Block.spans
  simp only [h, hseek, Text.width_reverse]
  cases hnext : Entry.next? stem (before.reverse.head?.all (· == '\n')) [] inside with
  | none =>
    rw [Entry.spans_of_next?_eq_none hnext, Entry.all_of_next?_eq_none hnext]
    rfl
  | some found =>
    obtain ⟨gap, entry, rest⟩ := found
    obtain ⟨text, rfl, hspans⟩ := Entry.spans_eq_append hnext before
    have hfirst : header = before ++ gap ++ (text ++ rest ++ post) := by simp [hheader]
    have hothers : header = before ++ gap ++ text ++ (rest ++ post) := by simp [hheader]
    rw [hspans, Entry.all_of_next?_eq_some hnext, sites, List.mapM_cons, Site.member?_eq hfirst,
      mapM_sites stem entry.endsLine hothers]
    cases hnote : entry.note with
    | some note =>
      simp only [hnote]
      rfl
    | none =>
      simp only [hnote, ← Text.width_append]
      cases aboveFirst header block.membersStart (width (before ++ gap)) <;> rfl

end EnumBinding.Header
