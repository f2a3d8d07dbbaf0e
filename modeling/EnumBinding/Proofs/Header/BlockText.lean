import EnumBinding.Proofs.Header.BlockLaws
import EnumBinding.Proofs.Header.ScanLaws

/-!
# Members come from the text of their block

The scan of a located block stops at the end of the block, and the first
comment is cut from between two places of the block (`members_ofParts`). The
block begins with a line end, so what stands before it hides no member either
(`Parts.members_lineStart`), and two headers that share its text share its
members, wherever it stands in them (`members_congr`).
-/

namespace EnumBinding.Header

open Text (width)

variable {stem name pre post : List Char} {parts other : Block.Parts}
  {first second enum memberPrefix : String}

theorem aboveFirst_eq_drop {header before inside passed rest : List Char}
    (hinside : header = before ++ inside) (hrest : header = passed ++ rest) :
    aboveFirst header (width before) (width passed) = .ok (passed.drop before.length) := by
  unfold aboveFirst
  split
  · next hle =>
    obtain ⟨mid, rfl, -⟩ := Text.exists_append_of_width_le (hrest.symm.trans hinside) hle
    rw [List.drop_of_length_le (by simp)]
  · next hlt =>
    obtain ⟨above, rfl, rfl⟩ := Text.exists_append_of_width_le (hinside.symm.trans hrest) (by omega)
    have hslice := Text.slice?_append before above rest
    rw [← Text.width_append, ← hinside] at hslice
    rw [hslice, List.drop_left]

namespace Block

def Parts.lead (name : List Char) (parts : Parts) : List Char :=
  opening name ++ (parts.beforeBrace ++ '{' :: parts.afterBrace)

theorem Parts.text_eq_lead (name : List Char) (parts : Parts) :
    parts.text name = parts.lead name ++ (parts.body ++ closing) := by
  simp [text, lead]

theorem membersStart_ofParts (name pre : List Char) (parts : Parts) :
    (ofParts name (width pre) parts).membersStart = width (pre ++ parts.lead name) := by
  have hbrace : ('{').utf8Size = 1 := rfl
  simp [ofParts, Parts.lead, hbrace, Nat.add_assoc]

def Parts.members (name stem : List Char) (lineStart : Bool) (parts : Parts) : List Member :=
  match Entry.all stem lineStart (parts.text name) with
  | [] => []
  | (gap, entry) :: others =>
    entry.toMember (gap.drop (parts.lead name).length) ::
      others.map fun (above, entry) => entry.toMember above

/-- The members of a block are those of its parts; of what stands around it, the scan sees no more than
whether it begins a line. -/
theorem members_ofParts (name stem pre post : List Char) (parts : Parts) :
    (ofParts name (width pre) parts).members stem (pre ++ (parts.text name ++ post)) =
      .ok (parts.members name stem (pre.getLast?.all (· == '\n'))) := by
  unfold Parts.members
  cases hall : Entry.all stem (pre.getLast?.all (· == '\n')) (parts.text name) with
  | nil => exact members_ofParts_nil hall
  | cons found others =>
    obtain ⟨gap, entry⟩ := found
    obtain ⟨rest, hnext⟩ := Entry.next?_of_all_eq_cons hall
    obtain ⟨_, text, rfl, -, htext⟩ := Entry.next?_eq_append hnext
    refine members_ofParts_cons hall fun _ => ?_
    have hinside : pre ++ (parts.text name ++ post) =
        (pre ++ parts.lead name) ++ (parts.body ++ (closing ++ post)) := by
      simp [Parts.text_eq_lead]
    have hgap : pre ++ (parts.text name ++ post) = pre ++ gap ++ (text ++ (rest ++ post)) := by
      simp [htext]
    rw [membersStart_ofParts, ← Text.width_append, aboveFirst_eq_drop hinside hgap]
    simp

theorem Parts.members_lineStart (hs : IsStem stem) (name : List Char) (lineStart : Bool)
    (parts : Parts) : parts.members name stem lineStart = parts.members name stem true := by
  have hall : Entry.all stem lineStart (parts.text name) = Entry.all stem true (parts.text name) :=
    Entry.all_lineEnd hs _ _
  rw [members, members, hall]

theorem text?_ofParts (name pre post : List Char) (parts : Parts) :
    (ofParts name (width pre) parts).text? (pre ++ (parts.text name ++ post)) =
      some (parts.text name) := by
  rw [text?, ofParts_last]
  exact Text.slice?_append pre (parts.text name) post

theorem Parts.text_injective (hv : parts.Valid) (hother : other.Valid)
    (h : parts.text name = other.text name) : parts = other := by
  have hread : parts? name (parts.text name ++ []) = some parts := parts?_text hv []
  rw [h, parts?_text hother] at hread
  exact (Option.some.inj hread).symm

end Block

-- ---------------------------------------------------------------------------
-- Two headers
-- ---------------------------------------------------------------------------

/-- Neither header defines the enum, or the first definitions in both are the same text. -/
inductive SameDefinition (first second enum : String) : Prop
  | absent : locate? first enum = none → locate? second enum = none →
      SameDefinition first second enum
  | located {block other : Block} {text : List Char} :
      locate? first enum = some block → locate? second enum = some other →
      block.text? first.toList = some text → other.text? second.toList = some text →
      SameDefinition first second enum

theorem members_congr {block other : Block} {text : List Char}
    (hfamily : Config.isIdentifier memberPrefix = true)
    (hblock : locate? first enum = some block) (hother : locate? second enum = some other)
    (htext : block.text? first.toList = some text)
    (hsame : other.text? second.toList = some text) :
    members first block memberPrefix = members second other memberPrefix := by
  have hs := isStem_stemOf hfamily
  obtain ⟨pre, parts, post, hfirst, hv, rfl⟩ := locate?_eq_some hblock
  obtain ⟨before, others, after, hsecond, hw, rfl⟩ := locate?_eq_some hother
  rw [hfirst, Block.text?_ofParts] at htext
  rw [hsecond, Block.text?_ofParts, ← htext] at hsame
  obtain rfl := Block.Parts.text_injective hw hv (Option.some.inj hsame)
  have hlineStart := Block.Parts.members_lineStart hs enum.toList
  rw [members, members, hfirst, hsecond, Block.members_ofParts, Block.members_ofParts]
  exact congrArg Except.ok ((hlineStart _ _).trans (hlineStart _ _).symm)

end EnumBinding.Header
