import EnumBinding.Proofs.Header.BlockText
import Mathlib.Data.List.Forall2

/-!
# Where the members of a block stand

The scan takes each member from one place of the header. The spans record
these places, one for each member and in the order of the header, and a span
ends before the next one begins (`spans_pairwise`). The members of a located
block are those of its spans (`members_of_locate?`).
-/

namespace EnumBinding.Header

open Text (width)

/-- What the scan takes for one member, from the byte `first` up to the byte `last`. -/
structure Span where
  first : Nat
  last : Nat
  entry : Entry
deriving DecidableEq, Repr

structure Entry.Gives (entry : Entry) (member : Member) : Prop where
  rawName : member.rawName = String.ofList entry.name
  comment : ∀ note ∈ entry.note, member.comment = [String.ofList (Text.trim note)]

namespace Entry

/-- The spans of the members of a text that begins at byte `offset`. -/
def spans (stem : List Char) (lineStart : Bool) (offset : Nat) (cs : List Char) : List Span :=
  match _found : next? stem lineStart [] cs with
  | none => []
  | some (gap, entry, rest) =>
    let last := offset + (width cs - width rest)
    ⟨offset + width gap, last, entry⟩ :: spans stem entry.endsLine last rest
termination_by cs.length
decreasing_by exact next?_length _found

variable {stem cs rest gap : List Char} {lineStart : Bool} {offset : Nat} {entry : Entry}
  {span : Span}

theorem spans_of_next?_eq_none (h : next? stem lineStart [] cs = none) :
    spans stem lineStart offset cs = [] := by
  rw [spans]
  split
  · rfl
  · next hsome =>
    rw [h] at hsome
    cases hsome

theorem spans_of_next?_eq_some (h : next? stem lineStart [] cs = some (gap, entry, rest)) :
    spans stem lineStart offset cs =
      ⟨offset + width gap, offset + (width cs - width rest), entry⟩ ::
        spans stem entry.endsLine (offset + (width cs - width rest)) rest := by
  rw [spans]
  split
  · next hnone =>
    rw [h] at hnone
    cases hnone
  · next hsome =>
    rw [h] at hsome
    cases hsome
    rfl

theorem next?_width (h : next? stem lineStart [] cs = some (gap, entry, rest)) :
    width gap < width cs - width rest := by
  obtain ⟨before, text, hgap, hne, rfl⟩ := next?_eq_append h
  have hpos := Text.width_pos hne
  simp only [List.reverse_nil, List.nil_append] at hgap
  subst hgap
  simp only [Text.width_append]
  omega

theorem spans_eq_append (h : next? stem lineStart [] cs = some (gap, entry, rest))
    (before : List Char) :
    ∃ text, cs = gap ++ (text ++ rest) ∧ spans stem lineStart (width before) cs =
      ⟨width (before ++ gap), width (before ++ gap ++ text), entry⟩ ::
        spans stem entry.endsLine (width (before ++ gap ++ text)) rest := by
  obtain ⟨between, text, hgap, -, rfl⟩ := next?_eq_append h
  obtain rfl : gap = between := by simpa using hgap
  have hlast : width before + (width (gap ++ (text ++ rest)) - width rest) =
      width (before ++ gap ++ text) := by
    simp only [Text.width_append]
    omega
  refine ⟨text, rfl, ?_⟩
  rw [spans_of_next?_eq_some h, hlast, Text.width_append before gap]

theorem spans_entry (stem : List Char) (lineStart : Bool) (offset : Nat) (cs : List Char) :
    (spans stem lineStart offset cs).map Span.entry = (all stem lineStart cs).map (·.2) := by
  induction lineStart, offset, cs using spans.induct stem with
  | case1 lineStart offset cs hnone =>
    rw [spans_of_next?_eq_none hnone, all_of_next?_eq_none hnone, List.map_nil, List.map_nil]
  | case2 lineStart offset cs gap entry rest hsome last ih =>
    rw [spans_of_next?_eq_some hsome, all_of_next?_eq_some hsome, List.map_cons, List.map_cons]
    exact congrArg _ ih

theorem mem_spans (h : span ∈ spans stem lineStart offset cs) :
    offset ≤ span.first ∧ span.first < span.last := by
  induction lineStart, offset, cs using spans.induct stem with
  | case1 lineStart offset cs hnone =>
    rw [spans_of_next?_eq_none hnone] at h
    cases h
  | case2 lineStart offset cs gap entry rest hsome last ih =>
    have hwidth := next?_width hsome
    rw [spans_of_next?_eq_some hsome] at h
    rcases List.mem_cons.mp h with rfl | h
    · simp only
      omega
    · have hrest := ih h
      omega

theorem spans_pairwise (stem : List Char) (lineStart : Bool) (offset : Nat) (cs : List Char) :
    (spans stem lineStart offset cs).Pairwise fun before after => before.last ≤ after.first := by
  induction lineStart, offset, cs using spans.induct stem with
  | case1 lineStart offset cs hnone =>
    rw [spans_of_next?_eq_none hnone]
    exact .nil
  | case2 lineStart offset cs gap entry rest hsome last ih =>
    rw [spans_of_next?_eq_some hsome]
    exact .cons (fun after hafter => (mem_spans hafter).1) ih

theorem gives_toMember (above : List Char) (entry : Entry) :
    entry.Gives (entry.toMember above) := by
  refine ⟨rfl, ?_⟩
  intro note hnote
  simp [toMember, Option.mem_def.mp hnote]

theorem forall₂_gives (found : List (List Char × Entry)) :
    List.Forall₂ Gives (found.map (·.2))
      (found.map fun (above, entry) => entry.toMember above) := by
  induction found with
  | nil => exact .nil
  | cons first found ih => exact .cons (gives_toMember first.1 first.2) ih

end Entry

-- ---------------------------------------------------------------------------
-- The members of a located block
-- ---------------------------------------------------------------------------

def Block.spans (block : Block) (stem header : List Char) : List Span :=
  match Text.splitAt? block.last header with
  | none => []
  | some (text, _) =>
    let (passed, inside) := Text.seek [] block.first text
    Entry.spans stem (passed.head?.all (· == '\n')) (width passed) inside

theorem Block.spans_ofParts (name stem pre post : List Char) (parts : Parts) :
    (ofParts name (width pre) parts).spans stem (pre ++ (parts.text name ++ post)) =
      Entry.spans stem (pre.getLast?.all (· == '\n')) (width pre) (parts.text name) := by
  obtain ⟨text, hsplit, hseek⟩ := seek_ofParts name pre post parts
  simp only [Block.spans, hsplit, hseek, List.head?_reverse, Text.width_reverse]

theorem members_of_locate? {header enum : String} {block : Block}
    (h : locate? header enum = some block)
    (memberPrefix : String) : ∃ ms, members header block memberPrefix = .ok ms ∧
      List.Forall₂ (fun span => span.entry.Gives)
        (block.spans (stemOf memberPrefix) header.toList) ms := by
  obtain ⟨pre, parts, post, hheader, -, rfl⟩ := locate?_eq_some h
  let stem := stemOf memberPrefix
  let lineStart := pre.getLast?.all (· == '\n')
  change ∃ ms, Block.members _ stem _ = .ok ms ∧ _
  rw [hheader, Block.spans_ofParts, Block.members_ofParts]
  refine ⟨_, rfl, ?_⟩
  have hentries := Entry.spans_entry stem lineStart (width pre) (parts.text enum.toList)
  rw [← List.forall₂_map_left_iff, hentries]
  unfold Block.Parts.members
  cases Entry.all stem lineStart (parts.text enum.toList) with
  | nil => exact .nil
  | cons found others => exact .cons (Entry.gives_toMember _ _) (Entry.forall₂_gives others)

end EnumBinding.Header
