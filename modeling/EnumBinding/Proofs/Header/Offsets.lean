import EnumBinding.Proofs.Header.Leftmost
import EnumBinding.Proofs.Header.Lookup

/-!
# Blocks of any offsets

A block need not be a located one: its offsets may be any numbers, and names
may begin with any text. The scan still makes progress with every member, and
it fails in two ways only: its end is no offset of the header, or the first
member looks for its comment from an offset inside a character
(`members_any_block`).
-/

namespace EnumBinding.Header

open Text (IsOffset splitAt? width)

variable {header before rest cs stem text post : List Char} {floor start bytes offset : Nat}
  {lineStart : Bool} {span : Span} {others : List Span} {block : Block}

-- ---------------------------------------------------------------------------
-- Lookups that fail
-- ---------------------------------------------------------------------------

theorem exists_lookupEnd (before rest : List Char) : ∃ above tail,
    before ++ rest = above ++ tail ∧ lookupEnd (before ++ rest) (width before) = width above := by
  by_cases hmargin : ∃ c ∈ before.getLast?, c ∈ margins
  · obtain ⟨c, hlast, hc⟩ := hmargin
    obtain ⟨init, rfl⟩ := List.getLast?_eq_some_iff.mp hlast
    exact ⟨init, c :: rest, by simp, by simpa using lookupEnd_margin hc init rest⟩
  · exact ⟨before, rest, rfl, lookupEnd_of_not hmargin rest⟩

theorem lookup_eq_error_iff (floor : Nat) (before rest : List Char) :
    lookup (before ++ rest) floor (width before) = .error {} ↔
      floor < lookupEnd (before ++ rest) (width before) ∧ ¬ IsOffset floor (before ++ rest) := by
  obtain ⟨above, tail, hsplit, hend⟩ := exists_lookupEnd before rest
  unfold lookup
  rw [hend, hsplit]
  by_cases hfloor : width above ≤ floor
  · rw [if_pos hfloor]
    constructor
    · rintro ⟨⟩
    · rintro ⟨hlt, -⟩
      omega
  · have hoffset : splitAt? floor above = none ↔ ¬ IsOffset floor (above ++ tail) := by
      rw [← Text.splitAt?_eq_none_iff, Text.splitAt?_append_of_le (by omega), Option.map_eq_none_iff]
    rw [if_neg hfloor, Text.slice?_of_le (by omega), ← hoffset]
    cases splitAt? floor above with
    | none => simpa using hfloor
    | some found => simp

theorem Site.member?_eq_error_iff (hheader : header = before ++ rest) (floor last : Nat)
    (entry : Entry) :
    Site.member? header ⟨floor, width before, last, entry⟩ = .error {} ↔
      entry.note = none ∧ floor < lookupEnd header (width before) ∧ ¬ IsOffset floor header := by
  subst hheader
  rw [← lookup_eq_error_iff]
  unfold Site.member?
  cases entry.note with
  | some note => simp
  | none =>
    cases lookup (before ++ rest) floor (width before) with
    | error cause => simp [Except.map]
    | ok comment => simp [Except.map]

-- ---------------------------------------------------------------------------
-- The cursor
-- ---------------------------------------------------------------------------

namespace Entry

theorem spans_cursor (stem : List Char) (lineStart : Bool) (offset : Nat) (cs : List Char) :
    ∀ start ≤ offset,
      (start :: (spans stem lineStart offset cs).map Span.last).IsChain (· < ·) := by
  induction lineStart, offset, cs using spans.induct stem with
  | case1 lineStart offset cs hnone =>
    intro start _
    rw [spans_of_next?_eq_none hnone]
    exact .singleton start
  | case2 lineStart offset cs gap entry rest hsome last ih =>
    intro start hstart
    have hwidth := next?_width hsome
    have hlast : start < last := by omega
    rw [spans_of_next?_eq_some hsome]
    exact List.isChain_cons_cons.mpr ⟨hlast, ih last (Nat.le_refl _)⟩

theorem length_spans_le (stem : List Char) (lineStart : Bool) (offset : Nat) (cs : List Char) :
    (spans stem lineStart offset cs).length ≤ width cs := by
  induction lineStart, offset, cs using spans.induct stem with
  | case1 lineStart offset cs hnone =>
    rw [spans_of_next?_eq_none hnone]
    exact Nat.zero_le _
  | case2 lineStart offset cs gap entry rest hsome last ih =>
    have hwidth := next?_width hsome
    have hrest : (spans stem entry.endsLine last rest).length ≤ width rest := ih
    rw [spans_of_next?_eq_some hsome, List.length_cons]
    change (spans stem entry.endsLine last rest).length + 1 ≤ width cs
    omega

theorem spans_eq_cons (hspans : spans stem lineStart (width before) cs = span :: others) :
    ∃ gap text rest, cs = gap ++ (text ++ rest) ∧ span.first = width (before ++ gap) ∧
      span.last = width (before ++ gap ++ text) ∧
      others = spans stem span.entry.endsLine (width (before ++ gap ++ text)) rest := by
  cases hnext : next? stem lineStart [] cs with
  | none =>
    rw [spans_of_next?_eq_none hnext] at hspans
    cases hspans
  | some found =>
    obtain ⟨gap, entry, rest⟩ := found
    obtain ⟨text, rfl, hfirst⟩ := spans_eq_append hnext before
    rw [hfirst] at hspans
    obtain ⟨rfl, rfl⟩ := List.cons.inj hspans
    exact ⟨gap, text, rest, rfl, rfl, rfl, rfl⟩

end Entry

-- ---------------------------------------------------------------------------
-- The spans of a block
-- ---------------------------------------------------------------------------

namespace Block

theorem spans_eq (h : splitAt? block.last header = some (text, post)) (stem : List Char) :
    ∃ before inside, text = before ++ inside ∧
      block.spans stem header = Entry.spans stem (beginsLine before) (width before) inside ∧
      (inside ≠ [] → block.first ≤ width before) ∧
      ∀ first second, text = first ++ second → block.first ≤ width first →
        width before ≤ width first := by
  obtain ⟨before, inside, htext, hseek, hreach, hleast⟩ := Text.seek_eq [] block.first text
  refine ⟨before, inside, htext, ?_, hreach, hleast⟩
  simp only [Block.spans, h, hseek, List.append_nil, List.head?_reverse, Text.width_reverse]
  rfl

theorem spans_of_not (h : ¬ IsOffset block.last header) (stem : List Char) :
    block.spans stem header = [] := by
  rw [Block.spans, Text.splitAt?_eq_none_iff.mpr h]

theorem spans_leftmost (h : splitAt? block.last header = some (text, post)) (stem : List Char) :
    Leftmost stem text block.first (block.spans stem header) := by
  obtain ⟨before, inside, rfl, hspans, hreach, hleast⟩ := spans_eq h stem
  have hleftmost := Entry.spans_leftmost stem before inside
  rw [hspans]
  refine ⟨hleftmost.ordered, fun span hspan => ?_, fun first second hsplit hle => ?_⟩
  · obtain ⟨hstart, hmatch⟩ := hleftmost.matched span hspan
    refine ⟨Nat.le_trans (hreach ?_) hstart, hmatch⟩
    rintro rfl
    rw [Entry.spans_of_next?_eq_none rfl] at hspan
    cases hspan
  · exact hleftmost.complete first second hsplit (hleast first second hsplit hle)

/-- The cursor of the scan, which begins at the first offset of the block, moves on with every member
and so at most as often as the block has bytes. -/
theorem spans_cursor (block : Block) (stem header : List Char) :
    (block.first :: (block.spans stem header).map Span.last).IsChain (· < ·) ∧
      (block.spans stem header).length ≤ block.last - block.first := by
  by_cases hlast : IsOffset block.last header
  · obtain ⟨text, post, hlast⟩ := hlast
    have hsplit : splitAt? block.last header = some (text, post) :=
      Text.splitAt?_eq_some_iff.mpr hlast
    obtain ⟨before, inside, rfl, hspans, hreach, -⟩ := spans_eq hsplit stem
    have hlength := Entry.length_spans_le stem (beginsLine before) (width before) inside
    rw [hspans]
    cases inside with
    | nil =>
      rw [Entry.spans_of_next?_eq_none rfl]
      exact ⟨.singleton _, Nat.zero_le _⟩
    | cons c inside =>
      have hfirst := hreach (List.cons_ne_nil c inside)
      have hwidth := hlast.2
      rw [Text.width_append] at hwidth
      exact ⟨Entry.spans_cursor stem _ _ _ _ hfirst, by omega⟩
  · rw [spans_of_not hlast]
    exact ⟨.singleton _, Nat.zero_le _⟩

theorem exists_members_behind (hspans : block.spans stem header = span :: others) :
    ∃ ms, (sites span.last others).mapM (Site.member? header) = .ok ms := by
  by_cases hlast : IsOffset block.last header
  · obtain ⟨text, post, rfl, hlast⟩ := hlast
    have hsplit : splitAt? block.last (text ++ post) = some (text, post) :=
      Text.splitAt?_eq_some_iff.mpr ⟨rfl, hlast⟩
    obtain ⟨before, inside, rfl, hblock, -, -⟩ := spans_eq hsplit stem
    obtain ⟨gap, taken, rest, rfl, -, hend, rfl⟩ := Entry.spans_eq_cons (hblock.symm.trans hspans)
    have hcut : before ++ (gap ++ (taken ++ rest)) ++ post =
        before ++ gap ++ taken ++ (rest ++ post) := by simp
    rw [hend]
    exact ⟨_, mapM_sites stem _ hcut⟩
  · rw [spans_of_not hlast] at hspans
    cases hspans

theorem first_eq_error_iff (h : splitAt? block.last header = some (text, post))
    (hspans : block.spans stem header = span :: others) (floor : Nat) :
    Site.member? header ⟨floor, span⟩ = .error {} ↔
      span.entry.note = none ∧ floor < lookupEnd header span.first ∧ ¬ IsOffset floor header := by
  obtain ⟨hheader, -⟩ := Text.splitAt?_eq_some_iff.mp h
  obtain ⟨before, inside, rfl, hblock, -, -⟩ := spans_eq h stem
  obtain ⟨gap, taken, rest, rfl, hfirst, -, -⟩ := Entry.spans_eq_cons (hblock.symm.trans hspans)
  have hcut : header = before ++ gap ++ (taken ++ rest ++ post) := by simp [hheader]
  obtain ⟨first, last, entry⟩ := span
  obtain rfl : first = width (before ++ gap) := hfirst
  exact Site.member?_eq_error_iff hcut floor last entry

theorem members_eq_error_iff (block : Block) (stem header : List Char) :
    block.members stem header = .error {} ↔ ¬ IsOffset block.last header ∨
      block.first < block.last ∧ ∃ span ∈ (block.spans stem header).head?,
        span.entry.note = none ∧ block.membersStart < lookupEnd header span.first ∧
          ¬ IsOffset block.membersStart header := by
  by_cases hlast : IsOffset block.last header
  · obtain ⟨text, post, hcut⟩ := hlast
    have hsplit : splitAt? block.last header = some (text, post) :=
      Text.splitAt?_eq_some_iff.mpr hcut
    have hoffset : ¬¬ IsOffset block.last header := not_not_intro ⟨text, post, hcut⟩
    rw [members_eq_mapM hsplit, or_iff_right hoffset]
    cases hspans : block.spans stem header with
    | nil =>
      constructor
      · rintro ⟨⟩
      · rintro ⟨-, span, ⟨⟩, -⟩
    | cons span others =>
      have hlength := (spans_cursor block stem header).2
      rw [hspans, List.length_cons] at hlength
      have hbytes : block.first < block.last := by omega
      obtain ⟨ms, hothers⟩ := exists_members_behind hspans
      have hfirst := first_eq_error_iff hsplit hspans block.membersStart
      rw [sites, List.mapM_cons, hothers, List.head?_cons]
      simp only [hbytes, true_and, Option.mem_some_iff, exists_eq_left', ← hfirst]
      cases Site.member? header ⟨block.membersStart, span⟩ with
      | error cause => exact iff_of_true rfl rfl
      | ok member =>
        constructor
        · rintro ⟨⟩
        · rintro ⟨⟩
  · have hnone := Text.splitAt?_eq_none_iff.mpr hlast
    rw [Block.members, hnone]
    exact iff_of_true rfl (.inl hlast)

theorem exists_member_of_mem_tail (block : Block) (stem header : List Char) :
    ∀ site ∈ (sites block.membersStart (block.spans stem header)).tail,
      ∃ member, site.member? header = .ok member := by
  intro site hsite
  cases hspans : block.spans stem header with
  | nil =>
    rw [hspans] at hsite
    cases hsite
  | cons span others =>
    obtain ⟨ms, hothers⟩ := exists_members_behind hspans
    have hall := Outcomes.mapM_eq_ok.mp hothers
    rw [hspans] at hsite
    obtain ⟨member, -, hmember⟩ := Outcomes.exists_of_forall₂ hall.flip hsite
    exact ⟨member, hmember⟩

end Block

/-- Whatever the offsets of a block and the prefix of its names: its spans are the leftmost shapes from
its first offset on, found with a cursor that moves on with every member; its members are those of
the spans, each with its own lookup; and the extraction fails exactly if the end of the block is no
offset of the header or the lookup for the first member begins inside a character. Blocks that were
located never fail. -/
theorem members_any_block (header memberPrefix : String) (block : Block) :
    let spans := block.spans (stemOf memberPrefix) header.toList
    (∀ text post, splitAt? block.last header.toList = some (text, post) →
      Leftmost (stemOf memberPrefix) text block.first spans ∧
      members header block memberPrefix =
        (sites block.membersStart spans).mapM (Site.member? header.toList)) ∧
    ((block.first :: spans.map Span.last).IsChain (· < ·) ∧
      spans.length ≤ block.last - block.first) ∧
    (members header block memberPrefix = .error {} ↔
      ¬ IsOffset block.last header.toList ∨
      block.first < block.last ∧ ∃ span ∈ spans.head?, span.entry.note = none ∧
        block.membersStart < lookupEnd header.toList span.first ∧
        ¬ IsOffset block.membersStart header.toList) ∧
    (∀ site ∈ (sites block.membersStart spans).tail,
      ∃ member, site.member? header.toList = .ok member) ∧
    ∀ enum, locate? header enum = some block →
      ∃ ms, members header block memberPrefix = .ok ms := by
  let stem := stemOf memberPrefix
  intro spans
  refine ⟨fun text post hsplit => ⟨Block.spans_leftmost hsplit stem, members_eq_mapM hsplit⟩,
    block.spans_cursor stem header.toList, block.members_eq_error_iff stem header.toList,
    block.exists_member_of_mem_tail stem header.toList, fun enum hlocate => ?_⟩
  obtain ⟨ms, hms, -⟩ := members_of_locate? hlocate memberPrefix
  exact ⟨ms, hms⟩

/-- The lookup for the first member begins at the second byte of a character. -/
example : members "é // x\nfoo_a = 1\n" ⟨0, 18, 0, 0, 1⟩ "foo" = .error {} := by
  decide +kernel

end EnumBinding.Header
