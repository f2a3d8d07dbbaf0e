import EnumBinding.Proofs.Header.LineStart
import EnumBinding.Proofs.Header.Span

/-!
# Which member lines are kept

A note may begin below its `//`: blanks behind `//` run over line ends. So
the line of a member is lost if, and only if, the `//` of a member above it
has nothing but blanks between itself and the line; the line is then the note
of that member. Every other member line gives exactly one member
(`memberLine_kept_iff`).
-/

namespace EnumBinding.Header

open Text (isBlank isIndent width)

namespace Span

def beginsIn (start size : Nat) (span : Span) : Bool :=
  start ≤ span.first && span.first < start + size

theorem beginsIn_iff {start size : Nat} {span : Span} :
    span.beginsIn start size = true ↔ start ≤ span.first ∧ span.first < start + size := by
  simp [beginsIn]

/-- The span is the member that the line at byte `start` stands for. -/
structure Reads (start : Nat) (stem : List Char) (line : MemberLine) (span : Span) : Prop where
  first : span.first = start
  last : start + width (line.text stem) ≤ span.last
  name : span.entry.name = line.name stem
  note : ∀ note ∈ line.note, note.1.all isBlank = false →
    span.entry.note.map Text.trim = some (Text.trim note.1)

/-- The span begins above the line and ends with it: the line is its note. -/
structure Takes (before stem : List Char) (line : MemberLine) (span : Span) : Prop where
  first : span.first < width before
  last : span.last = width before + width (line.text stem)
  note : span.entry.note = some (line.unindented stem)
  blanks : ∃ head run, before = head ++ '/' :: '/' :: run ∧ run.all isBlank = true

end Span

variable {stem raw pre before after cs : List Char} {line : MemberLine} {lineStart : Bool}

theorem MemberLine.width_pos (hs : IsStem stem) (line : MemberLine) :
    0 < width (line.text stem) := by
  obtain ⟨c, tail, rfl, -⟩ := hs.start
  exact Text.width_pos (by simp [text, unindented, name])

theorem MemberLine.lineEnd_notMem (hs : IsStem stem) (line : MemberLine) :
    '\n' ∉ line.text stem := by
  intro hmem
  rcases line.mem_text hs hmem with h | h | h | h | h | ⟨note, -, h⟩
  all_goals first
    | exact note.2 h
    | exact absurd h (by simp [isIndent, Config.isIdentifierRest])

theorem MemberLine.dropWhile_isBlank (hs : IsStem stem) (line : MemberLine) (cs : List Char) :
    (line.text stem ++ cs).dropWhile isBlank = line.unindented stem ++ cs := by
  rw [text, List.append_assoc, Text.dropWhile_run (Text.all_isBlank_of_isIndent line.indent.2)]
  simp only [unindented, name, List.append_assoc]
  exact hs.stops (fun _ => Config.isBlank_of_isIdentifierStart) _

theorem MemberLine.read?_text (hs : IsStem stem) (hafter : after.dropWhile isBlank ≠ []) :
    ∃ entry rest, Entry.read? stem true (line.text stem ++ '\n' :: after) = some (entry, rest) ∧
      rest <:+ '\n' :: after ∧ entry.name = line.name stem ∧
      ∀ note ∈ line.note, note.1.all isBlank = false →
        entry.note.map Text.trim = some (Text.trim note.1) := by
  obtain ⟨entry, rest, hread, hprops⟩ : ∃ entry rest,
      Entry.indented? stem (line.text stem ++ '\n' :: after) = some (entry, rest) ∧
      rest <:+ '\n' :: after ∧ entry.name = line.name stem ∧
      ∀ note ∈ line.note, note.1.all isBlank = false →
        entry.note.map Text.trim = some (Text.trim note.1) := by
    rw [MemberLine.indented?_text hs, MemberLine.ending?_ending]
    cases hn : line.note with
    | none => exact ⟨_, _, rfl, List.suffix_cons _ _, rfl, by simp⟩
    | some own =>
      obtain ⟨note, rest, hnote, hsuffix, htrim⟩ := Entry.note?_line own.2 hafter
      simp only [hnote, Option.map_some]
      refine ⟨_, _, rfl, hsuffix, rfl, ?_⟩
      intro other hother hvisible
      cases hother
      exact congrArg some (htrim hvisible)
  exact ⟨entry, rest, by simp [Entry.read?, hread], hprops⟩

theorem MemberLine.takeWhile_unindented (hs : IsStem stem) (line : MemberLine) (after : List Char) :
    (line.unindented stem ++ '\n' :: after).takeWhile (· != '\n') = line.unindented stem ∧
      (line.unindented stem ++ '\n' :: after).dropWhile (· != '\n') = '\n' :: after := by
  have hrun : (line.unindented stem).all (· != '\n') = true := by
    rw [List.all_eq_true]
    intro c hc
    have hend : c ≠ '\n' := by
      rintro rfl
      exact line.lineEnd_notMem hs (List.mem_append_right _ hc)
    simpa using hend
  exact ⟨Text.takeWhile_run hrun (by simp), Text.dropWhile_run hrun (by simp)⟩

theorem Entry.next?_short {gap below tail : List Char} {entry : Entry} (pre : List Char)
    (h : next? stem lineStart [] (before ++ tail) = some (gap, entry, below ++ tail)) :
    ∃ text, text ≠ [] ∧ before = gap ++ (text ++ below) ∧
      width pre + (width (before ++ tail) - width (below ++ tail)) = width (pre ++ (gap ++ text)) := by
  obtain ⟨_, text, rfl, htext, hsplit⟩ := next?_eq_append h
  obtain rfl : before = gap ++ (text ++ below) := by simpa [← List.append_assoc] using hsplit
  refine ⟨text, htext, rfl, ?_⟩
  simp only [Text.width_append]
  omega

/-- The scan comes to the start of the line, or reads over it as a note: it never stops inside. -/
theorem exists_span {tail rest : List Char} {c : Char} {found : Entry} (hs : IsStem stem)
    (htail : tail.dropWhile isBlank = c :: cs) (hc : Config.isIdentifierStart c = true)
    (hread : Entry.read? stem true tail = some (found, rest))
    (hb : Entry.lineStartAfter lineStart before = true) (pre : List Char) :
    ∃ span ∈ Entry.spans stem lineStart (width pre) (before ++ tail),
      span = ⟨width (pre ++ before), width (pre ++ before) + (width tail - width rest), found⟩ ∨
        span.first < width (pre ++ before) ∧
          ∃ rest, Entry.Over (pre ++ before) tail span.entry rest ∧
            span.last = width (pre ++ before) + (width tail - width rest) := by
  obtain ⟨size, hsize⟩ : ∃ size, before.length = size := ⟨_, rfl⟩
  -- Each member read above the line leaves less text above it, and may be of any length.
  induction size using Nat.strong_induction_on generalizing before lineStart pre with
  | _ size ih =>
    rcases Entry.next?_ends htail hc hs hb hread [] with
      hnext | ⟨gap, left, entry, rest, rfl, hne, hends, hnext⟩
    · rw [List.reverse_nil, List.nil_append] at hnext
      obtain ⟨text, -, rfl⟩ := Entry.read?_eq_append hread
      rw [Entry.spans_of_next?_eq_some hnext]
      refine ⟨_, List.mem_cons_self, .inl ?_⟩
      simp only [Text.width_append, Span.mk.injEq, true_and, and_true]
      omega
    · rw [List.reverse_nil, List.nil_append] at hnext
      rw [Entry.spans_of_next?_eq_some hnext]
      cases hends with
      | short below hrest hbelow =>
        subst hrest
        obtain ⟨text, htext, hleft, hlast⟩ := Entry.next?_short pre hnext
        have hshort : below.length < size := by
          have hpos := List.length_pos_iff.mpr htext
          simp only [hleft, List.length_append] at hsize
          omega
        obtain ⟨span, hmem, hspan⟩ := ih _ hshort hbelow (pre ++ (gap ++ text)) rfl
        have hpre : pre ++ (gap ++ text) ++ below = pre ++ (gap ++ left) := by simp [hleft]
        rw [hpre] at hspan
        rw [hlast]
        exact ⟨span, List.mem_cons_of_mem _ hmem, hspan⟩
      | taken hover =>
        have hpos := Text.width_pos hne
        have hrest : width rest ≤ width tail := by
          rw [hover.rest]
          exact Text.width_le_of_suffix ((List.dropWhile_suffix _).trans (List.dropWhile_suffix _))
        refine ⟨_, List.mem_cons_self, .inr ⟨?_, rest, ?_, ?_⟩⟩
        · simp only [Text.width_append]
          omega
        · rw [← List.append_assoc]
          exact hover.prepend (pre ++ gap)
        · simp only [Text.width_append]
          omega

theorem exists_reads_or_takes (line : MemberLine) (hs : IsStem stem)
    (hafter : after.dropWhile isBlank ≠ []) (hb : Entry.lineStartAfter lineStart before = true)
    (pre : List Char) :
    ∃ span ∈ Entry.spans stem lineStart (width pre) (before ++ (line.text stem ++ '\n' :: after)),
      span.Reads (width (pre ++ before)) stem line ∨ span.Takes (pre ++ before) stem line := by
  obtain ⟨first, name, hstem, hfirst⟩ := hs.start
  have hdrop := line.dropWhile_isBlank hs ('\n' :: after)
  have htail : (line.text stem ++ '\n' :: after).dropWhile isBlank =
      first :: (name ++ (line.suffix.1 ++
      (line.beforeEquals.1 ++ '=' :: (line.afterEquals.1 ++ (line.digits.1 ++ line.ending))) ++
        '\n' :: after)) := by
    rw [hdrop]
    simp [MemberLine.unindented, MemberLine.name, hstem]
  obtain ⟨found, rest, hread, hsuffix, hname, hnote⟩ := line.read?_text hs hafter
  obtain ⟨span, hmem, rfl | ⟨hbegin, rest, hover, hlast⟩⟩ :=
    exists_span hs htail hfirst hread hb pre
  · refine ⟨_, hmem, .inl ⟨rfl, ?_, hname, hnote⟩⟩
    have hrest := Text.width_le_of_suffix hsuffix
    simp only [Text.width_append]
    omega
  · obtain ⟨htake, hend⟩ := line.takeWhile_unindented hs after
    have hentry := hover.note
    have hrest := hover.rest
    rw [hdrop, htake] at hentry
    rw [hdrop, hend] at hrest
    refine ⟨span, hmem, .inr ⟨hbegin, ?_, hentry, hover.blanks⟩⟩
    rw [hlast, hrest]
    simp only [Text.width_append]
    omega

-- ---------------------------------------------------------------------------
-- Exactly one member
-- ---------------------------------------------------------------------------

section
variable {spans : List Span} {span : Span} {ms : List Member}
  (hpair : spans.Pairwise fun above below => above.last ≤ below.first)
  (hsize : ∀ span ∈ spans, span.first < span.last)
include hpair hsize

theorem filter_of_reads {start : Nat} (hs : IsStem stem) (hmem : span ∈ spans)
    (h : span.Reads start stem line) :
    spans.filter (·.beginsIn start (width (line.text stem))) = [span] := by
  have hpos := line.width_pos hs
  have hfirst := h.first
  have hlast := h.last
  obtain ⟨above, below, rfl⟩ := List.append_of_mem hmem
  obtain ⟨-, hbelow, habove⟩ := List.pairwise_append.mp hpair
  have hin : span.beginsIn start (width (line.text stem)) = true := by
    rw [Span.beginsIn_iff]
    omega
  rw [List.filter_append, List.filter_cons_of_pos hin, List.filter_eq_nil_iff.mpr,
    List.filter_eq_nil_iff.mpr, List.nil_append]
  · intro other hother
    have := (List.pairwise_cons.mp hbelow).1 other hother
    rw [Span.beginsIn_iff]
    omega
  · intro other hother
    have := habove other hother span List.mem_cons_self
    have := hsize other (List.mem_append_left _ hother)
    rw [Span.beginsIn_iff]
    omega

theorem filter_of_takes (hmem : span ∈ spans) (h : span.Takes before stem line) :
    spans.filter (·.beginsIn (width before) (width (line.text stem))) = [] := by
  -- The span itself begins above the line and reaches its end, so no other one can begin inside.
  have hfirst := h.first
  have hlast := h.last
  rw [List.filter_eq_nil_iff]
  intro other hother
  obtain ⟨above, below, rfl⟩ := List.append_of_mem hmem
  obtain ⟨-, hbelow, habove⟩ := List.pairwise_append.mp hpair
  rw [Span.beginsIn_iff]
  rcases List.mem_append.mp hother with hother | hother
  · have := habove other hother span List.mem_cons_self
    have := hsize other (List.mem_append_left _ hother)
    omega
  · rcases List.mem_cons.mp hother with rfl | hother
    · omega
    · have := (List.pairwise_cons.mp hbelow).1 other hother
      omega

/-- Of the members found, each with its span, exactly one begins in the line, and it is the member
that the line stands for. -/
def Kept (found : List (Span × Member)) (before stem : List Char) (line : MemberLine) : Prop :=
  ∃ span member,
    found.filter (·.1.beginsIn (width before) (width (line.text stem))) = [(span, member)] ∧
    member.rawName = String.ofList (line.name stem) ∧
    ∀ note ∈ line.note, note.1.all isBlank = false →
      member.comment = [String.ofList (Text.trim note.1)]

theorem kept_iff (hs : IsStem stem) (hgives : List.Forall₂ (fun span => span.entry.Gives) spans ms)
    (h : ∃ span ∈ spans, span.Reads (width before) stem line ∨ span.Takes before stem line) :
    Kept (spans.zip ms) before stem line ↔ ¬ ∃ span ∈ spans, span.Takes before stem line := by
  let inLine := Span.beginsIn (width before) (width (line.text stem))
  have hfst : ((spans.zip ms).filter (inLine ·.1)).map Prod.fst = spans.filter inLine := by
    conv_rhs => rw [← List.map_fst_zip hgives.length_eq.le, List.filter_map]
    rfl
  constructor
  · rintro ⟨span, member, hfilter, -⟩ ⟨taker, hmem, htakes⟩
    rw [hfilter, filter_of_takes hpair hsize hmem htakes] at hfst
    cases hfst
  · intro hnot
    obtain ⟨span, hmem, hreads | htakes⟩ := h
    · rw [filter_of_reads hpair hsize hs hmem hreads, List.map_eq_singleton_iff] at hfst
      obtain ⟨⟨found, member⟩, hfilter, hfound⟩ := hfst
      obtain rfl : found = span := hfound
      have hzip : (found, member) ∈ spans.zip ms := by
        have : (found, member) ∈ [(found, member)] := List.mem_singleton_self _
        rw [← hfilter] at this
        exact (List.mem_filter.mp this).1
      obtain ⟨hname, hcomment⟩ := List.forall₂_zip hgives hzip
      refine ⟨found, member, hfilter, by rw [hname, hreads.name], ?_⟩
      intro note hnote hvisible
      obtain ⟨text, htext, htrim⟩ := Option.map_eq_some_iff.mp (hreads.note note hnote hvisible)
      rw [hcomment text (Option.mem_def.mpr htext), htrim]
    · exact absurd ⟨span, hmem, htakes⟩ hnot

end

-- ---------------------------------------------------------------------------
-- Lines of a located block
-- ---------------------------------------------------------------------------

theorem Block.Parts.split_line {name : List Char} {parts : Block.Parts} {post : List Char}
    (h : pre ++ (parts.text name ++ post) = before ++ (cs ++ '\n' :: after))
    (hopen : (Block.ofParts name (width pre) parts).openBrace < width before)
    (hclose : width before + width cs < (Block.ofParts name (width pre) parts).closeBrace) :
    ∃ inner rest, inner ≠ [] ∧ before = pre ++ inner ∧
      parts.text name = inner ++ (cs ++ '\n' :: (rest ++ Block.closing)) := by
  have hbrace : ('{').utf8Size = 1 := rfl
  let lead := Block.opening name ++ (parts.beforeBrace ++ ['{'])
  have hlead : lead ≠ [] := by simp [lead]
  have hinside : pre ++ lead ++ (parts.afterBrace ++ parts.body ++ (Block.closing ++ post)) =
      before ++ (cs ++ '\n' :: after) := by simpa [Block.Parts.text, lead] using h
  have hlead_le : width (pre ++ lead) ≤ width before := by
    simp [lead, Block.ofParts, hbrace] at hopen ⊢
    omega
  obtain ⟨inner, rfl, hinner⟩ := Text.exists_append_of_width_le hinside hlead_le
  have hline : inner ++ cs ++ '\n' :: after =
      parts.afterBrace ++ parts.body ++ (Block.closing ++ post) := by
    rw [hinner, List.append_assoc]
  have hline_le : width (inner ++ cs) ≤ width (parts.afterBrace ++ parts.body) := by
    simp [lead, Block.ofParts, hbrace] at hclose ⊢
    omega
  obtain ⟨mid, hmid, hafter⟩ := Text.exists_append_of_width_le hline hline_le
  cases mid with
  | nil => simp [Block.closing] at hafter
  | cons c rest =>
    obtain ⟨rfl, rfl⟩ : c = '\n' ∧ after = rest ++ (Block.closing ++ post) := by
      simpa [eq_comm] using List.cons.inj hafter
    refine ⟨lead ++ inner, rest, by simp [lead], by simp, ?_⟩
    calc parts.text name = lead ++ (parts.afterBrace ++ parts.body ++ Block.closing) := by
          simp [Block.Parts.text, lead]
      _ = lead ++ (inner ++ cs ++ '\n' :: rest ++ Block.closing) := by rw [hmid]
      _ = _ := by simp

/-- The members of a located block come in the order of the header, and a full line between its
braces that holds a member gives exactly one of them, unless it is the note of a member above. -/
theorem memberLine_kept_iff {header enum memberPrefix : String} {block : Block}
    (hlocate : locate? header enum = some block) (hfamily : Config.isIdentifier memberPrefix = true)
    (hheader : header.toList = before ++ (line.text (stemOf memberPrefix) ++ '\n' :: after))
    (hstart : before.getLast? = some '\n') (hopen : block.openBrace < width before)
    (hclose : width before + width (line.text (stemOf memberPrefix)) < block.closeBrace) :
    ∃ spans ms, spans = block.spans (stemOf memberPrefix) header.toList ∧
      members header block memberPrefix = .ok ms ∧
      List.Forall₂ (fun span => span.entry.Gives) spans ms ∧
      spans.Pairwise (fun above below => above.last ≤ below.first) ∧
      (Kept (spans.zip ms) before (stemOf memberPrefix) line ↔
        ¬ ∃ span ∈ spans, span.Takes before (stemOf memberPrefix) line) := by
  have hs := isStem_stemOf hfamily
  obtain ⟨ms, hms, hgives⟩ := members_of_locate? hlocate memberPrefix
  obtain ⟨pre, parts, post, hparts, -, rfl⟩ := locate?_eq_some hlocate
  obtain ⟨inner, rest, hne, rfl, htext⟩ :=
    Block.Parts.split_line (hparts.symm.trans hheader) hopen hclose
  have hspans := Block.spans_ofParts enum.toList (stemOf memberPrefix) pre post parts
  rw [← hparts] at hspans
  have hpair :=
    Entry.spans_pairwise (stemOf memberPrefix) (pre.getLast?.all (· == '\n')) (width pre)
      (parts.text enum.toList)
  have hsize : ∀ span ∈ Entry.spans (stemOf memberPrefix) (pre.getLast?.all (· == '\n')) (width pre)
      (parts.text enum.toList), span.first < span.last :=
        fun span hspan => (Entry.mem_spans hspan).2
  have hvisible : (rest ++ Block.closing).dropWhile isBlank ≠ [] :=
    Text.dropWhile_ne_nil (c := '\x7d') (by simp [Block.closing]) rfl
  have hinner : Entry.lineStartAfter (pre.getLast?.all (· == '\n')) inner = true := by
    rw [List.getLast?_append_of_ne_nil _ hne] at hstart
    exact Entry.EndsLine.lineStartAfter hstart
  have hline := exists_reads_or_takes line hs hvisible hinner pre
  rw [← htext] at hline
  rw [← hspans] at hpair hsize hline
  exact ⟨_, ms, rfl, hms, hgives, hpair, kept_iff hpair hsize hs hgives hline⟩

def blankNoteHeader : String := "\nenum foo\n\x7b\nfoo_a = 0, //\nfoo_b = 1,\n\x7d;\n"

def blankNoteBlock : Block :=
  { first := 0, last := 40, openBrace := 10, closeBrace := 37, membersStart := 12 }

def blankNoteLine : MemberLine where
  indent := .none
  suffix := ⟨['a'], by simp, rfl⟩
  beforeEquals := .space
  afterEquals := .space
  digits := ⟨['0'], by simp, rfl⟩
  afterDigits := .none
  comma := true
  afterComma := .space
  note := some ⟨[], by simp⟩

def lostLine : MemberLine where
  indent := .none
  suffix := ⟨['b'], by simp, rfl⟩
  beforeEquals := .space
  afterEquals := .space
  digits := ⟨['1'], by simp, rfl⟩
  afterDigits := .none
  comma := true
  afterComma := .none
  note := none

theorem memberLine_kept_iff_blankNote : ∃ spans ms,
    spans = blankNoteBlock.spans (stemOf "foo") blankNoteHeader.toList ∧
      members blankNoteHeader blankNoteBlock "foo" = .ok ms ∧
      List.Forall₂ (fun span => span.entry.Gives) spans ms ∧
      spans.Pairwise (fun above below => above.last ≤ below.first) ∧
      (Kept (spans.zip ms) "\nenum foo\n\x7b\n".toList (stemOf "foo") blankNoteLine ↔
        ¬ ∃ span ∈ spans, span.Takes "\nenum foo\n\x7b\n".toList (stemOf "foo") blankNoteLine) := by
  have hlocate : locate? blankNoteHeader "foo" = some blankNoteBlock := rfl
  have hheader : blankNoteHeader.toList = "\nenum foo\n\x7b\n".toList ++
      (blankNoteLine.text (stemOf "foo") ++ '\n' :: "foo_b = 1,\n\x7d;\n".toList) := rfl
  exact memberLine_kept_iff hlocate rfl hheader rfl (by decide) (by decide)

theorem members_blankNoteHeader :
    members blankNoteHeader blankNoteBlock "foo" = .ok [⟨"foo_a", ["foo_b = 1,"]⟩] := by
  let entry : Entry := ⟨"foo_a".toList, some "foo_b = 1,".toList, false⟩
  let parts : Block.Parts := ⟨['\n'], ['\n'], "foo_a = 0, //\nfoo_b = 1,\n".toList⟩
  have hnext : Entry.next? (stemOf "foo") true [] (parts.text "foo".toList) =
      some ("\nenum foo\n\x7b\n".toList, entry, '\n' :: Block.closing) := rfl
  have hend : Entry.next? (stemOf "foo") false [] ('\n' :: Block.closing) = none := rfl
  have hall : Entry.all (stemOf "foo") (([] : List Char).getLast?.all (· == '\n'))
      (parts.text "foo".toList) = [("\nenum foo\n\x7b\n".toList, entry)] := by
    change Entry.all _ true _ = _
    rw [Entry.all_of_next?_eq_some hnext, Entry.all_of_next?_eq_none hend]
  have hmembers : (Block.ofParts "foo".toList (width []) parts).members (stemOf "foo")
      ([] ++ (parts.text "foo".toList ++ [])) = .ok [entry.toMember []] := by
    refine Block.members_ofParts_cons hall ?_
    rintro ⟨⟩
  exact hmembers

/-- The line below a note without text is lost. -/
theorem memberLine_lost :
    ¬ ∀ (header enum memberPrefix : String) (block : Block) (before after : List Char)
    (line : MemberLine), locate? header enum = some block → Config.isIdentifier enum = true →
      Config.isIdentifier memberPrefix = true →
      header.toList = before ++ (line.text (stemOf memberPrefix) ++ '\n' :: after) →
      before.getLast? = some '\n' → block.openBrace < width before →
      width before + width (line.text (stemOf memberPrefix)) < block.closeBrace →
      ∃ ms, members header block memberPrefix = .ok ms ∧
        String.ofList (line.name (stemOf memberPrefix)) ∈ ms.map Member.rawName := by
  intro hclaim
  obtain ⟨ms, hms, hmem⟩ := hclaim blankNoteHeader "foo" "foo" blankNoteBlock
    "\nenum foo\n\x7b\nfoo_a = 0, //\n".toList "\x7d;\n".toList lostLine
    rfl rfl rfl rfl rfl (by decide) (by decide)
  rw [members_blankNoteHeader] at hms
  cases hms
  simp [lostLine, MemberLine.name, stemOf] at hmem

end EnumBinding.Header
