import EnumBinding.Proofs.Header.MemberShape
import EnumBinding.Proofs.Header.RoundTrip
import EnumBinding.Proofs.Header.Span
import EnumBinding.Proofs.Outcomes

/-!
# Members are the leftmost shapes

The spans of a text are its shapes from left to right: each span is one, they
do not overlap, and no shape begins between them, before the first or after
the last (`spans_leftmost`). In a located block they all begin at its opening
brace or behind it, and no name reaches over its closing brace
(`members_leftmost`).
-/

namespace EnumBinding.Header

open Text (Blanks isBlank width)

def beginsLine (before : List Char) : Bool := before.getLast?.all (· == '\n')

/-- The span is a shape of the text, with what stands before and behind it. -/
structure Span.Matches (stem text : List Char) (span : Span) (shape : Shape)
    (before rest : List Char) : Prop where
  split : text = before ++ (shape.text stem ++ rest)
  fits : shape.Fits (beginsLine before)
  whole : shape.ending.Whole rest
  first : span.first = width before
  last : span.last = width (before ++ shape.text stem)
  entry : span.entry = shape.entry stem

/-- The spans are the shapes of a text from the byte `start` on, one after the other: where none of
them is, none begins. -/
structure Leftmost (stem text : List Char) (start : Nat) (spans : List Span) : Prop where
  ordered : spans.Pairwise fun before after => before.last ≤ after.first
  matched : ∀ span ∈ spans, start ≤ span.first ∧
    ∃ shape before rest, span.Matches stem text shape before rest
  complete : ∀ before rest, text = before ++ rest → start ≤ width before →
    (∀ span ∈ spans, width before < span.first ∨ span.last ≤ width before) →
      ¬ ∃ (shape : Shape) (after : List Char),
        shape.Fits (beginsLine before) ∧ rest = shape.text stem ++ after

variable {stem name text cs pre gap before rest passed found : List Char} {entry : Entry}
  {lineStart : Bool} {offset : Nat} {shape : Shape} {span : Span} {parts : Block.Parts}

theorem Shape.text_ne_nil (stem : List Char) (shape : Shape) : shape.text stem ≠ [] := by
  simp [Shape.text, Shape.name, shape.suffix.2.1]

theorem Span.Matches.lead_le (h : span.Matches stem text shape before rest) :
    span.first ≤ width (before ++ shape.lead) ∧ width (before ++ shape.lead) ≤ span.last := by
  rw [h.first, h.last, Shape.text, ← List.append_assoc, Text.width_append (before ++ shape.lead),
    Text.width_append before]
  exact ⟨Nat.le_add_right _ _, Nat.le_add_right _ _⟩

theorem Span.Matches.name_le (h : span.Matches stem text shape before rest) :
    width (before ++ shape.lead ++ shape.name stem) ≤ span.last := by
  rw [h.last, Shape.text, ← List.append_assoc, ← List.append_assoc, Text.width_append _ shape.value]
  exact Nat.le_add_right _ _

theorem Span.Matches.first_le (h : span.Matches stem text shape before rest) :
    span.first ≤ span.last :=
  Nat.le_trans h.lead_le.1 h.lead_le.2

theorem Shape.isNameChar_of_mem (hs : IsStem stem) (shape : Shape) {c : Char}
    (hc : c ∈ shape.name stem) : isBlank c = false ∧ c ≠ '=' := by
  have hkind : Entry.isNameChar c = true := by
    rcases List.mem_append.mp hc with hc | hc
    · exact isNameChar_of_isIdentifierRest (List.all_eq_true.mp hs.word c hc)
    · exact List.all_eq_true.mp shape.suffix.2.2 c hc
  simpa [Entry.isNameChar, and_comm] using hkind

theorem Ending.getLast?_text (ending : Ending) :
    ∃ c, ending.text.getLast? = some c ∧ (c == '\n') = ending.endsLine := by
  cases ending with
  | line => exact ⟨'\n', rfl, rfl⟩
  | brace => exact ⟨'\x7d', rfl, rfl⟩
  | note blanks text =>
    obtain ⟨cs, hne, hline⟩ := text
    refine ⟨cs.getLast hne, ?_, ?_⟩
    · simp [Ending.text, List.getLast?_cons, List.getLast?_append,
        List.getLast?_eq_some_getLast hne]
    · have hlast : cs.getLast hne ≠ '\n' := by
        intro hlast
        exact hline (hlast ▸ List.getLast_mem hne)
      simpa [Ending.endsLine] using hlast

theorem beginsLine_append_text (before : List Char) (shape : Shape) :
    beginsLine (before ++ shape.text stem) = shape.ending.endsLine := by
  obtain ⟨c, hlast, hc⟩ := shape.ending.getLast?_text
  simp [beginsLine, Shape.text, Shape.value, List.getLast?_cons, List.getLast?_append, hlast, hc]

namespace Entry

theorem lineStartAfter_beginsLine (pre before : List Char) :
    lineStartAfter (beginsLine pre) before = beginsLine (pre ++ before) := by
  unfold lineStartAfter beginsLine
  rw [List.getLast?_append]
  cases before.getLast? <;> rfl

-- ---------------------------------------------------------------------------
-- The next member
-- ---------------------------------------------------------------------------

theorem read?_nil (stem : List Char) (lineStart : Bool) : read? stem lineStart [] = none := by
  rw [read?_eq_none_iff]
  rintro ⟨shape, after, -, hnil⟩
  exact shape.text_ne_nil stem (List.append_eq_nil_iff.mp hnil.symm).1

theorem read?_of_next?_eq_none (h : next? stem lineStart passed (before ++ rest) = none) :
    read? stem (lineStartAfter lineStart before) rest = none := by
  induction before generalizing lineStart passed with
  | nil =>
    cases rest with
    | nil => exact read?_nil stem _
    | cons c rest =>
      rw [List.nil_append, next?] at h
      change read? stem lineStart (c :: rest) = none
      cases hread : read? stem lineStart (c :: rest) with
      | none => rfl
      | some found => simp [hread] at h
  | cons c before ih =>
    rw [List.cons_append, next?] at h
    rw [lineStartAfter_cons]
    split at h
    · cases h
    · exact ih h

theorem next?_eq_some (h : next? stem lineStart passed cs = some (gap, entry, rest)) :
    ∃ before found, gap = passed.reverse ++ before ∧ cs = before ++ found ∧
      read? stem (lineStartAfter lineStart before) found = some (entry, rest) ∧
      ∀ first second, before = first ++ second → second ≠ [] →
        read? stem (lineStartAfter lineStart first) (second ++ found) = none := by
  induction cs generalizing lineStart passed with
  | nil => cases h
  | cons c cs ih =>
    unfold next? at h
    split at h
    · next hread =>
      cases h
      refine ⟨[], c :: cs, by simp, rfl, hread, fun first second hnil hne => ?_⟩
      exact absurd (List.append_eq_nil_iff.mp hnil.symm).2 hne
    · next hread =>
      obtain ⟨before, found, rfl, rfl, hfound, hbefore⟩ := ih h
      refine ⟨c :: before, found, by simp, rfl, by rwa [lineStartAfter_cons], ?_⟩
      intro first second hsplit hne
      cases first with
      | nil =>
        rw [List.nil_append] at hsplit
        rw [← hsplit]
        exact hread
      | cons d first =>
        obtain ⟨rfl, htail⟩ := List.cons.inj hsplit
        rw [lineStartAfter_cons]
        exact hbefore first second htail hne

-- ---------------------------------------------------------------------------
-- All members
-- ---------------------------------------------------------------------------

theorem no_shape_of_read?_eq_none
    (h : read? stem (lineStartAfter (beginsLine pre) before) rest = none) :
    ¬ ∃ (shape : Shape) (after : List Char),
      shape.Fits (beginsLine (pre ++ before)) ∧ rest = shape.text stem ++ after := by
  rwa [lineStartAfter_beginsLine, read?_eq_none_iff] at h

theorem leftmost_nil (h : next? stem (beginsLine pre) [] cs = none) :
    Leftmost stem (pre ++ cs) (width pre) [] := by
  refine ⟨.nil, by simp, fun before rest hsplit hle _ => ?_⟩
  obtain ⟨mid, rfl, rfl⟩ := Text.exists_append_of_width_le hsplit hle
  exact no_shape_of_read?_eq_none (read?_of_next?_eq_none h)

theorem leftmost_cons {spans : List Span} (hfits : shape.Fits (beginsLine (pre ++ gap)))
    (hwhole : shape.ending.Whole rest)
    (hgap : ∀ first second, gap = first ++ second → second ≠ [] →
      read? stem (lineStartAfter (beginsLine pre) first) (second ++ (shape.text stem ++ rest)) = none)
    (h : Leftmost stem (pre ++ gap ++ shape.text stem ++ rest)
      (width (pre ++ gap ++ shape.text stem)) spans) :
    Leftmost stem (pre ++ (gap ++ (shape.text stem ++ rest))) (width pre)
      (⟨width (pre ++ gap), width (pre ++ gap ++ shape.text stem), shape.entry stem⟩ :: spans) := by
  have htext : pre ++ (gap ++ (shape.text stem ++ rest)) = pre ++ gap ++ shape.text stem ++ rest := by
    simp
  refine ⟨.cons (fun after hafter => (h.matched after hafter).1) h.ordered, ?_, ?_⟩
  · refine List.forall_mem_cons.mpr ⟨⟨by simp, shape, pre ++ gap, rest, ?_⟩, ?_⟩
    · exact ⟨by simp, hfits, hwhole, rfl, rfl, rfl⟩
    · intro span hspan
      obtain ⟨hle, hmatch⟩ := h.matched span hspan
      rw [htext]
      refine ⟨?_, hmatch⟩
      simp only [Text.width_append] at hle
      omega
  · intro before after hsplit hle hapart
    obtain ⟨hfirst, hothers⟩ := List.forall_mem_cons.mp hapart
    rcases hfirst with hbefore | hbehind
    · obtain ⟨first, rfl, hfirst⟩ := Text.exists_append_of_width_le hsplit hle
      simp only [Text.width_append, Nat.add_lt_add_iff_left] at hbefore
      obtain ⟨second, rfl, rfl⟩ := Text.exists_append_of_width_le hfirst.symm (by omega)
      refine no_shape_of_read?_eq_none (hgap first second rfl ?_)
      rintro rfl
      simp at hbefore
    · exact h.complete before after (htext ▸ hsplit) hbehind hothers

/-- The spans of a text are its leftmost shapes. -/
theorem spans_leftmost (stem pre cs : List Char) :
    Leftmost stem (pre ++ cs) (width pre) (spans stem (beginsLine pre) (width pre) cs) := by
  obtain ⟨size, hsize⟩ : ∃ size, cs.length = size := ⟨_, rfl⟩
  -- Each member found leaves a shorter text behind it.
  induction size using Nat.strong_induction_on generalizing pre cs with
  | _ size ih =>
    cases hnext : next? stem (beginsLine pre) [] cs with
    | none =>
      rw [spans_of_next?_eq_none hnext]
      exact leftmost_nil hnext
    | some result =>
      obtain ⟨gap, entry, rest⟩ := result
      obtain ⟨before, found, hgap, rfl, hread, hbefore⟩ := next?_eq_some hnext
      obtain rfl : gap = before := by simpa using hgap
      obtain ⟨shape, hfits, rfl, hwhole, rfl⟩ := read?_eq_some hread
      rw [lineStartAfter_beginsLine] at hfits
      obtain ⟨text, htext, hspans⟩ := spans_eq_append hnext pre
      obtain rfl : shape.text stem = text := by simpa using htext
      have hshort : rest.length < size := by
        have hlength := next?_length hnext
        omega
      have hrest := ih rest.length hshort (pre ++ gap ++ shape.text stem) rest rfl
      rw [beginsLine_append_text] at hrest
      rw [hspans]
      exact leftmost_cons hfits hwhole hbefore hrest

end Entry

-- ---------------------------------------------------------------------------
-- Between the braces of a block
-- ---------------------------------------------------------------------------

theorem openBrace_le_of_mem_spans (hs : IsStem stem)
    (hname : name.all Config.isIdentifierRest = true) (hv : parts.Valid)
    (h : span ∈ Entry.spans stem lineStart offset (parts.text name)) :
    offset + width (Block.opening name ++ parts.beforeBrace) ≤ span.first := by
  let inside := parts.afterBrace ++ (parts.body ++ Block.closing)
  have hopening : Entry.next? stem lineStart [] (parts.text name) =
      Entry.next? stem (Entry.lineStartAfter false parts.beforeBrace)
        ((Block.opening name ++ parts.beforeBrace).reverse ++ []) ('{' :: inside) :=
    next?_opening hs hname ⟨parts.beforeBrace, hv.beforeBrace⟩ [] inside
  cases hnext : Entry.next? stem lineStart [] (parts.text name) with
  | none =>
    rw [Entry.spans_of_next?_eq_none hnext] at h
    cases h
  | some found =>
    obtain ⟨gap, entry, rest⟩ := found
    obtain ⟨before, -, hgap, -⟩ := Entry.next?_eq_append (hopening.symm.trans hnext)
    have hpassed : width (Block.opening name ++ parts.beforeBrace) ≤ width gap := by
      rw [hgap, List.append_nil, List.reverse_reverse, Text.width_append _ before]
      omega
    have hwidth := Entry.next?_width hnext
    rw [Entry.spans_of_next?_eq_some hnext] at h
    rcases List.mem_cons.mp h with rfl | h
    · simp only
      omega
    · have hbehind := (Entry.mem_spans h).1
      omega

theorem Block.Parts.text_eq_closed (name : List Char) (parts : Block.Parts) :
    parts.text name = parts.lead name ++ parts.body ++ '\x7d' :: [';', '\n'] := by
  simp [Block.Parts.text_eq_lead, Block.closing]

theorem Block.Parts.lead_open (hname : name.all Config.isIdentifierRest = true) (hv : parts.Valid) :
    '\x7d' ∉ parts.lead name ++ parts.body := by
  have hkeyword : '\x7d' ∉ "\nenum ".toList := by decide
  have hword : '\x7d' ∉ name := Text.notMem_of_all hname rfl
  have hbefore : '\x7d' ∉ parts.beforeBrace := Text.notMem_of_all hv.beforeBrace rfl
  have hafter : '\x7d' ∉ parts.afterBrace := Text.notMem_of_all hv.afterBrace rfl
  have hbrace : '\x7d' ≠ '{' := by decide
  have hopening : '\x7d' ∉ Block.opening name := fun h =>
    (List.mem_append.mp h).elim hkeyword hword
  simp only [Block.Parts.lead, List.mem_append, List.mem_cons, not_or]
  exact ⟨⟨hopening, hbefore, hbrace, hafter⟩, hv.body_open⟩

theorem Span.Matches.name_open (hname : name.all Config.isIdentifierRest = true) (hv : parts.Valid)
    (h : span.Matches stem (pre ++ parts.text name) shape before rest)
    (hle : width pre ≤ width before) : '\x7d' ∉ shape.name stem := by
  intro hmem
  have hlead := parts.lead_open hname hv
  obtain ⟨first, second, hsplit⟩ := List.append_of_mem hmem
  obtain ⟨mid, -, htext⟩ := Text.exists_append_of_width_le h.split hle
  have hclosed : parts.lead name ++ parts.body ++ '\x7d' :: [';', '\n'] =
      mid ++ shape.lead ++ first ++ '\x7d' :: (second ++ (shape.value ++ rest)) := by
    rw [← Block.Parts.text_eq_closed, htext, Shape.text, hsplit]
    simp
  obtain ⟨-, -, hbehind⟩ := (List.append_cons_inj_of_notMem hlead (by simp)).mp hclosed
  have hequals : '=' ∈ [';', '\n'] := by
    rw [hbehind]
    simp [Shape.value]
  simp at hequals

theorem leftmost_of_locate? {header enum memberPrefix : String} {block : Block}
    (hlocate : locate? header enum = some block) (henum : Config.isIdentifier enum = true)
    (hfamily : Config.isIdentifier memberPrefix = true) :
    ∃ text after, header.toList = text ++ after ∧ width text = block.last ∧
      Leftmost (stemOf memberPrefix) text block.first
        (block.spans (stemOf memberPrefix) header.toList) ∧
      ∀ span ∈ block.spans (stemOf memberPrefix) header.toList,
        block.openBrace ≤ span.first ∧ span.last ≤ block.last ∧ '\x7d' ∉ span.entry.name := by
  have hs := isStem_stemOf hfamily
  have hname := Config.all_isIdentifierRest henum
  obtain ⟨pre, parts, post, hheader, hv, rfl⟩ := locate?_eq_some hlocate
  have hspans := Block.spans_ofParts enum.toList (stemOf memberPrefix) pre post parts
  rw [← hheader] at hspans
  have hleftmost := Entry.spans_leftmost (stemOf memberPrefix) pre (parts.text enum.toList)
  have hlast : width (pre ++ parts.text enum.toList) =
      (Block.ofParts enum.toList (width pre) parts).last := by
    rw [Block.ofParts_last, Text.width_append]
  rw [hspans]
  refine ⟨pre ++ parts.text enum.toList, post, by simp [hheader], hlast, hleftmost, ?_⟩
  intro span hspan
  obtain ⟨hstart, shape, before, rest, hmatch⟩ := hleftmost.matched span hspan
  refine ⟨?_, ?_, ?_⟩
  · have hopen := openBrace_le_of_mem_spans hs hname hv hspan
    simpa [Block.ofParts, Nat.add_assoc] using hopen
  · rw [hmatch.last, ← hlast, hmatch.split]
    simp only [Text.width_append]
    omega
  · rw [hmatch.entry]
    exact hmatch.name_open hname hv (hmatch.first ▸ hstart)

/-- The members of a located block are the leftmost shapes behind its opening brace, one for each and
in their order; their names are those of the family and hold no blank, equals sign or brace that
closes. -/
theorem members_leftmost {header enum memberPrefix : String} {block : Block}
    (hlocate : locate? header enum = some block) (henum : Config.isIdentifier enum = true)
    (hfamily : Config.isIdentifier memberPrefix = true) :
    ∃ text after spans ms, header.toList = text ++ after ∧ width text = block.last ∧
      members header block memberPrefix = .ok ms ∧
      List.Forall₂ (fun span => span.entry.Gives) spans ms ∧
      Leftmost (stemOf memberPrefix) text block.first spans ∧
      (∀ span ∈ spans,
        block.openBrace ≤ span.first ∧ span.first < span.last ∧ span.last ≤ block.last) ∧
      ∀ member ∈ ms, ∃ suffix, suffix ≠ [] ∧
        member.rawName.toList = stemOf memberPrefix ++ suffix ∧
        ∀ c ∈ member.rawName.toList, isBlank c = false ∧ c ≠ '=' ∧ c ≠ '\x7d' := by
  obtain ⟨ms, hms, hgives⟩ := members_of_locate? hlocate memberPrefix
  obtain ⟨text, after, hheader, hlast, hleftmost, hbounds⟩ :=
    leftmost_of_locate? hlocate henum hfamily
  refine ⟨text, after, _, ms, hheader, hlast, hms, hgives, hleftmost, ?_, ?_⟩
  · intro span hspan
    obtain ⟨hopen, hend, -⟩ := hbounds span hspan
    obtain ⟨-, shape, before, rest, hmatch⟩ := hleftmost.matched span hspan
    have hpos := Text.width_pos (shape.text_ne_nil (stemOf memberPrefix))
    refine ⟨hopen, ?_, hend⟩
    rw [hmatch.first, hmatch.last, Text.width_append]
    omega
  · intro member hmember
    obtain ⟨span, hspan, hname, -⟩ := Outcomes.exists_of_forall₂ hgives hmember
    obtain ⟨-, -, hopen⟩ := hbounds span hspan
    obtain ⟨-, shape, before, rest, hmatch⟩ := hleftmost.matched span hspan
    rw [hmatch.entry] at hname hopen
    refine ⟨shape.suffix.1, shape.suffix.2.1, by rw [hname]; simp [Shape.entry, Shape.name], ?_⟩
    rw [hname, String.toList_ofList]
    intro c hc
    have hchar : isBlank c = false ∧ c ≠ '=' := shape.isNameChar_of_mem (isStem_stemOf hfamily) hc
    refine ⟨hchar.1, hchar.2, ?_⟩
    rintro rfl
    exact hopen hc

/-- Three shapes, of which the first stands on the line of the brace, and a line that is none. -/
def marginHeader : String :=
  "enum edge;\nenum edge\n\x7b edge_a = 1, // left\nedge_b = 2 3,\n\tedge_c= 4,\nedge_d =5\x7d;\n"

theorem members_leftmost_margin :
    locate? marginHeader "edge" = some ⟨10, 81, 21, 78, 23⟩ ∧
      Config.isIdentifier "edge" = true ∧
      ∃ text after spans, marginHeader.toList = text ++ after ∧ width text = 81 ∧
        List.Forall₂ (fun span => span.entry.Gives) spans
          [⟨"edge_a", ["left"]⟩, ⟨"edge_c", []⟩, ⟨"edge_d", []⟩] ∧
        Leftmost (stemOf "edge") text 10 spans := by
  have hlocate : locate? marginHeader "edge" = some ⟨10, 81, 21, 78, 23⟩ := rfl
  have hname : Config.isIdentifier "edge" = true := rfl
  have hmembers : members marginHeader ⟨10, 81, 21, 78, 23⟩ "edge" =
      .ok [⟨"edge_a", ["left"]⟩, ⟨"edge_c", []⟩, ⟨"edge_d", []⟩] := by
    decide +kernel
  obtain ⟨text, after, spans, ms, hheader, hlast, hms, hgives, hleftmost, -⟩ :=
    members_leftmost hlocate hname hname
  obtain rfl := Except.ok.inj (hmembers.symm.trans hms)
  exact ⟨hlocate, hname, text, after, spans, hheader, hlast, hgives, hleftmost⟩

end EnumBinding.Header
