import EnumBinding.Proofs.Header.Leftmost
import Mathlib.Data.List.DropRight

/-!
# Members that nothing anchors

A name is anchored if only spaces and tabs stand before it, back to the start
of its line or to the brace that opens its block. The scan lets a member begin
with any brace, so a name is anchored exactly if its member does not begin with
a further brace (`anchors_iff`). Such a brace may stand in a comment
(`phantom_member`).
-/

namespace EnumBinding.Header

open Text (isIndent width Stops)

/-- Only spaces and tabs stand at the end of the text, back to the start of a line or to the brace that
opens the block. -/
def Block.Anchors (block : Block) (text : List Char) : Prop :=
  let start := text.rdropWhile isIndent
  beginsLine start = true ∨ start.getLast? = some '{' ∧ width start = block.openBrace + 1

instance (block : Block) (text : List Char) : Decidable (block.Anchors text) :=
  inferInstanceAs (Decidable (_ ∨ _ ∧ _))

variable {stem text before rest indent start : List Char} {shape : Shape} {span : Span}

theorem rdropWhile_indent (hindent : indent.all isIndent = true)
    (hstart : ∀ c, start.getLast? = some c → isIndent c = false) :
    (start ++ indent).rdropWhile isIndent = start := by
  have hstops : Stops isIndent start.reverse := by
    intro c hc
    exact hstart c (by rwa [Option.mem_def, List.head?_reverse] at hc)
  rw [List.rdropWhile, List.reverse_append,
    Text.dropWhile_run (by rwa [List.all_reverse]) hstops, List.reverse_reverse]

theorem anchors_of_beginsLine (block : Block) (hline : beginsLine before = true)
    (hindent : indent.all isIndent = true) : block.Anchors (before ++ indent) := by
  have hstart : (before ++ indent).rdropWhile isIndent = before := by
    refine rdropWhile_indent hindent fun c hc => ?_
    obtain rfl : c = '\n' := by simpa [beginsLine, hc] using hline
    rfl
  left
  rwa [hstart]

theorem anchors_brace_iff (block : Block) (hindent : indent.all isIndent = true) :
    block.Anchors (before ++ '{' :: indent) ↔ width before = block.openBrace := by
  have hstart : (before ++ '{' :: indent).rdropWhile isIndent = before ++ ['{'] := by
    rw [List.append_cons]
    refine rdropWhile_indent hindent fun c hc => ?_
    obtain rfl : '{' = c := by simpa using hc
    rfl
  have hbrace : ('{').utf8Size = 1 := rfl
  simp [Block.Anchors, hstart, beginsLine, hbrace]

theorem Span.Matches.anchors_iff (h : span.Matches stem text shape before rest) (block : Block) :
    block.Anchors (before ++ shape.lead) ↔ (shape.brace = true → span.first = block.openBrace) := by
  rw [h.first]
  cases hbrace : shape.brace with
  | false =>
    have hline := h.fits hbrace
    simpa [Shape.lead, hbrace] using anchors_of_beginsLine block hline shape.indent.2
  | true => simpa [Shape.lead, hbrace] using anchors_brace_iff block shape.indent.2

/-- The text before the name of a member is spaces and tabs back to the start of its line or to the
brace that opens the block, unless the member begins with a brace behind that one. -/
theorem members_anchored_iff {header enum memberPrefix : String} {block : Block}
    (hlocate : locate? header enum = some block) (henum : Config.isIdentifier enum = true)
    (hfamily : Config.isIdentifier memberPrefix = true) :
    ∃ (text after : List Char) (spans : List Span) (ms : List Member),
      header.toList = text ++ after ∧ width text = block.last ∧
      members header block memberPrefix = .ok ms ∧
      List.Forall₂ (fun span => span.entry.Gives) spans ms ∧
      ∀ span ∈ spans, ∃ shape before rest,
        span.Matches (stemOf memberPrefix) text shape before rest ∧
        (¬ block.Anchors (before ++ shape.lead) ↔
          shape.brace = true ∧ block.openBrace < span.first) := by
  obtain ⟨ms, hms, hgives⟩ := members_of_locate? hlocate memberPrefix
  obtain ⟨text, after, hheader, hlast, hleftmost, hbounds⟩ :=
    leftmost_of_locate? hlocate henum hfamily
  refine ⟨text, after, _, ms, hheader, hlast, hms, hgives, fun span hspan => ?_⟩
  obtain ⟨hopen, -, -⟩ := hbounds span hspan
  obtain ⟨-, shape, before, rest, hmatch⟩ := hleftmost.matched span hspan
  refine ⟨shape, before, rest, hmatch, ?_⟩
  rw [hmatch.anchors_iff block, Classical.not_imp]
  exact and_congr_right fun _ => ⟨fun hne => Nat.lt_of_le_of_ne hopen (Ne.symm hne), Nat.ne_of_gt⟩

def braceNoteHeader : String := "\nenum foo\n\x7b\nfoo_a = 1,\n// \x7b foo_x = 3\n\x7d;\n"

theorem members_braceNoteHeader :
    members braceNoteHeader ⟨0, 41, 10, 38, 12⟩ "foo" = .ok [⟨"foo_a", []⟩, ⟨"foo_x", [""]⟩] := by
  decide +kernel

theorem members_anchored_iff_braceNote :
    locate? braceNoteHeader "foo" = some ⟨0, 41, 10, 38, 12⟩ ∧ Config.isIdentifier "foo" = true ∧
      ∃ (text after : List Char) (spans : List Span),
        braceNoteHeader.toList = text ++ after ∧ width text = 41 ∧
        List.Forall₂ (fun span => span.entry.Gives) spans [⟨"foo_a", []⟩, ⟨"foo_x", [""]⟩] ∧
        ∀ span ∈ spans, ∃ shape before rest,
          span.Matches (stemOf "foo") text shape before rest ∧
          (¬ Block.Anchors ⟨0, 41, 10, 38, 12⟩ (before ++ shape.lead) ↔
            shape.brace = true ∧ 10 < span.first) := by
  have hlocate : locate? braceNoteHeader "foo" = some ⟨0, 41, 10, 38, 12⟩ := rfl
  have hname : Config.isIdentifier "foo" = true := rfl
  obtain ⟨text, after, spans, ms, hheader, hlast, hms, hgives, hanchors⟩ :=
    members_anchored_iff hlocate hname hname
  obtain rfl := Except.ok.inj (members_braceNoteHeader.symm.trans hms)
  exact ⟨hlocate, hname, text, after, spans, hheader, hlast, hgives, hanchors⟩

/-- What the comment names is read as a member, though nothing anchors its name there. -/
theorem phantom_member :
    ¬ ∀ (header enum memberPrefix : String) (block : Block) (ms : List Member),
      locate? header enum = some block → Config.isIdentifier enum = true →
      Config.isIdentifier memberPrefix = true → members header block memberPrefix = .ok ms →
      ∀ member ∈ ms, ∃ text rest,
        header.toList = text ++ (member.rawName.toList ++ rest) ∧ block.Anchors text := by
  intro hclaim
  obtain ⟨text, rest, htext, hanchors⟩ :=
    hclaim braceNoteHeader "foo" "foo" _ _ rfl rfl rfl members_braceNoteHeader ⟨"foo_x", [""]⟩
      (by simp)
  -- The header holds the last letter of the name only once, so the text before the name is known.
  let found := "\nenum foo\n\x7b\nfoo_a = 1,\n// \x7b ".toList
  have hsplit : found ++ "foo_".toList ++ 'x' :: " = 3\n\x7d;\n".toList =
      text ++ "foo_".toList ++ 'x' :: rest := by
    rw [List.append_assoc text]
    exact htext
  obtain ⟨hbefore, -, -⟩ := (List.append_cons_inj_of_notMem (by decide) (by decide)).mp hsplit
  obtain rfl : found = text := List.append_cancel_right hbefore
  exact absurd hanchors (by decide)

end EnumBinding.Header
