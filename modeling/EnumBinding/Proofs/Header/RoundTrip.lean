import EnumBinding.Proofs.Header.BlockLaws
import EnumBinding.Proofs.Header.CommentLaws
import EnumBinding.Proofs.Header.LineStart

/-!
# Printed definitions are read back

A definition is printed from its items: blank lines, comment lines and one
member line each. Whatever stands around the definition, it is located and
its members come back in their order, each with the note of its own line or
else with the comment lines right above it (`members_definition`).
-/

namespace EnumBinding.Header

open Text (Blanks endLines isBlank isIndent Stops width)

-- ---------------------------------------------------------------------------
-- Items
-- ---------------------------------------------------------------------------

def IsPlain (cs : List Char) : Prop := ∀ c ∈ cs, c ≠ '{' ∧ c ≠ '\x7d'

/-- One member with the lines above it. -/
structure Item where
  blankLines : List { line : Blanks // '\n' ∉ line.1 }
  comments : List CommentLine
  line : MemberLine
  comments_plain : ∀ comment ∈ comments, IsPlain comment.body.1
  note_plain : ∀ note ∈ line.note, IsPlain note.1
  note_visible : ∀ note ∈ line.note, note.1.all isBlank = false

namespace Item

def linesAbove (item : Item) : List (List Char) :=
  item.blankLines.map (·.1.1) ++ item.comments.map CommentLine.line

def text (stem : List Char) (item : Item) : List Char :=
  endLines item.linesAbove ++ (item.line.text stem ++ ['\n'])

def comment (item : Item) : List (List Char) :=
  match item.line.note with
  | some note => [Text.trim note.1]
  | none => item.comments.map CommentLine.text

def member (stem : List Char) (item : Item) : Member where
  rawName := String.ofList (item.line.name stem)
  comment := item.comment.map String.ofList

end Item

def beforeItems (name : List Char) (blanks : Blanks) : List Char :=
  Block.opening name ++ (blanks.1 ++ ['{', '\n'])

/-- A definition of `name`, from the line end before it to the line end after it. -/
def definition (name stem : List Char) (blanks : Blanks) (items : List Item) : List Char :=
  beforeItems name blanks ++ (items.flatMap (Item.text stem) ++ Block.closing)

-- ---------------------------------------------------------------------------
-- The scan of a printed definition
-- ---------------------------------------------------------------------------

def Item.entry (stem : List Char) (item : Item) : Entry :=
  match item.line.note with
  | none => ⟨item.line.name stem, none, true⟩
  | some note => ⟨item.line.name stem, some (note.1.dropWhile isBlank), false⟩

def Item.left (item : Item) : List Char :=
  match item.line.note with
  | none => []
  | some _ => ['\n']

def scanned (stem lead : List Char) : List Item → List (List Char × Entry)
  | [] => []
  | item :: items =>
    (lead ++ endLines item.linesAbove, item.entry stem) :: scanned stem item.left items

variable {stem name lead above pre cs rest : List Char} {lineStart : Bool} {blanks : Blanks}
  {item : Item} {items : List Item}

theorem Item.read?_line (hs : IsStem stem) (item : Item) (rest : List Char) :
    Entry.read? stem true (item.line.text stem ++ '\n' :: rest) =
      some (item.entry stem, item.left ++ rest) := by
  have hread : Entry.indented? stem (item.line.text stem ++ '\n' :: rest) =
      some (item.entry stem, item.left ++ rest) := by
    rw [MemberLine.indented?_text hs, MemberLine.ending?_ending]
    cases hn : item.line.note with
    | none => simp [Item.entry, Item.left, hn]
    | some note =>
      have hvisible := item.note_visible note (Option.mem_def.mpr hn)
      simp [Item.entry, Item.left, hn, Entry.note?_visible hvisible note.2]
  simp [Entry.read?, hread]

theorem stops_of_all_isBlank (h : cs.all isBlank = true) :
    Stops Config.isIdentifierStart (cs.dropWhile isIndent) := by
  intro c hc
  have hmem : c ∈ cs := List.dropWhile_subset _ (List.mem_of_mem_head? hc)
  rw [Bool.eq_false_iff]
  intro hstart
  have hvisible := Config.isBlank_of_isIdentifierStart hstart
  exact Text.ne_of_kind (List.all_eq_true.mp h c hmem) hvisible rfl

theorem Item.blankLine (h : above ∈ item.blankLines.map (·.1.1)) :
    above.all isBlank = true ∧ '\n' ∉ above := by
  obtain ⟨blankLine, -, rfl⟩ := List.mem_map.mp h
  exact ⟨blankLine.1.2, blankLine.2⟩

theorem Item.lineAbove_plain (h : above ∈ item.linesAbove) :
    (∀ c ∈ above, c ≠ '\n' ∧ c ≠ '{' ∧ c ≠ '\x7d') ∧
      Stops Config.isIdentifierStart (above.dropWhile isIndent) := by
  rcases List.mem_append.mp h with h | h
  · obtain ⟨hblank, hend⟩ := Item.blankLine h
    refine ⟨?_, stops_of_all_isBlank hblank⟩
    intro c hc
    have hb := List.all_eq_true.mp hblank c hc
    exact ⟨fun he => hend (he ▸ hc), Text.ne_of_kind hb rfl, Text.ne_of_kind hb rfl⟩
  · obtain ⟨comment, hcomment, rfl⟩ := List.mem_map.mp h
    constructor
    · intro c hc
      refine ⟨fun he => comment.lineEnd_notMem (he ▸ hc), ?_⟩
      rcases List.mem_append.mp hc with hindent | hc
      · have hi := List.all_eq_true.mp comment.indent.2 c hindent
        exact ⟨Text.ne_of_kind hi rfl, Text.ne_of_kind hi rfl⟩
      · rcases List.mem_cons.mp hc with rfl | hc
        · simp
        · rcases List.mem_cons.mp hc with rfl | hc
          · simp
          · exact item.comments_plain comment hcomment c hc
    · rw [CommentLine.line, Text.dropWhile_run comment.indent.2 (Text.stops_cons.mpr rfl)]
      exact Text.stops_cons.mpr rfl

theorem Item.passes_linesAbove (hs : IsStem stem) :
    Entry.Passes stem true (endLines item.linesAbove) := by
  have hlines : ∀ line ∈ item.linesAbove, (∀ c ∈ line, c ≠ '\n' ∧ c ≠ '{') ∧
      Stops Config.isIdentifierStart (line.dropWhile isIndent) := by
    intro line hline
    obtain ⟨hplain, hstops⟩ := Item.lineAbove_plain hline
    exact ⟨fun c hc => ⟨(hplain c hc).1, (hplain c hc).2.1⟩, hstops⟩
  generalize item.linesAbove = lines at hlines
  induction lines with
  | nil => exact Entry.passes_nil stem
  | cons line lines ih =>
    obtain ⟨⟨hplain, hstops⟩, hlines⟩ := List.forall_mem_cons.mp hlines
    have := (Entry.passes_line hs hplain hstops).append (ih hlines)
    simpa using this

theorem next?_closing (hs : IsStem stem) (passed : List Char) :
    Entry.next? stem true passed Block.closing = none := by
  have hstops : Stops Config.isIdentifierStart (['\x7d', ';'].dropWhile isIndent) := by
    rw [Text.dropWhile_of_stops (Text.stops_cons.mpr rfl)]
    exact Text.stops_cons.mpr rfl
  have hpass : Entry.Passes stem true (['\x7d', ';'] ++ ['\n']) :=
    Entry.passes_line hs (by simp) hstops
  simpa [Block.closing, Entry.next?] using hpass passed []

/-- From the start of a line on, the scan finds the items one after the other. -/
theorem all_items (hs : IsStem stem) (h : Entry.Passes stem lineStart lead) (items : List Item) :
    Entry.all stem lineStart (lead ++ (items.flatMap (Item.text stem) ++ Block.closing)) =
      scanned stem lead items := by
  induction items generalizing lineStart lead with
  | nil =>
    apply Entry.all_of_next?_eq_none
    rw [List.flatMap_nil, List.nil_append, h]
    exact next?_closing hs _
  | cons item items ih =>
    let rest := items.flatMap (Item.text stem) ++ Block.closing
    have htext : lead ++ ((item :: items).flatMap (Item.text stem) ++ Block.closing) =
        lead ++ endLines item.linesAbove ++ (item.line.text stem ++ '\n' :: rest) := by
      simp [Item.text, rest]
    have hnext : Entry.next? stem lineStart [] (lead ++ endLines item.linesAbove ++
        (item.line.text stem ++ '\n' :: rest)) =
          some (lead ++ endLines item.linesAbove, item.entry stem, item.left ++ rest) := by
      have hread := item.read?_line hs rest
      rw [h.append (Item.passes_linesAbove hs)]
      cases hc : item.line.text stem ++ '\n' :: rest with
      | nil => simp at hc
      | cons c cs =>
        rw [hc] at hread
        rw [Entry.next?, hread]
        simp
    -- A note leaves the end of its line behind, which then stands before the next item.
    have hleft : Entry.Passes stem (item.entry stem).endsLine item.left := by
      unfold Item.entry Item.left
      cases item.line.note with
      | none => exact Entry.passes_nil stem
      | some note => exact Entry.passes_lineEnd hs
    rw [htext, Entry.all_of_next?_eq_some hnext, ih hleft, scanned]

-- ---------------------------------------------------------------------------
-- What stands before the items
-- ---------------------------------------------------------------------------

/-- The keyword begins a line like a member, but holds no underscore as the names of a family do. -/
theorem indented?_keyword (hs : IsStem stem) (cs : List Char) :
    Entry.indented? stem ("enum".toList ++ ' ' :: cs) = none := by
  have hafter : Text.after? stem ("enum".toList ++ ' ' :: cs) = none := by
    rw [Option.eq_none_iff_forall_ne_some]
    intro rest h
    rw [Text.after?_eq_some_iff, List.append_eq_append_iff] at h
    rcases h with ⟨tail, htail, hrest⟩ | ⟨tail, htail, -⟩
    · cases tail with
      | nil =>
        have hmem := hs.underscore
        simp [htail] at hmem
      | cons c tail =>
        obtain rfl : ' ' = c := (List.cons.inj hrest).1
        exact absurd (by simp [htail]) (Text.notMem_of_all (d := ' ') hs.word rfl)
    · have hmem : '_' ∈ "enum".toList := by
        rw [htail]
        exact List.mem_append_left _ hs.underscore
      simp at hmem
  rw [hs.indented?]
  have hdrop : ("enum".toList ++ ' ' :: cs).dropWhile isIndent = "enum".toList ++ ' ' :: cs :=
    Text.dropWhile_of_stops (Text.stops_cons.mpr rfl)
  rw [hdrop, Entry.named?, hafter]

theorem next?_blanks (hs : IsStem stem) (blanks : Blanks) (passed cs : List Char) :
    Entry.next? stem lineStart passed (blanks.1 ++ '{' :: cs) =
      Entry.next? stem (Entry.lineStartAfter lineStart blanks.1) (blanks.1.reverse ++ passed)
        ('{' :: cs) := by
  obtain ⟨blanks, hb⟩ := blanks
  induction blanks generalizing lineStart passed with
  | nil => rfl
  | cons c blanks ih =>
    have hnone : Entry.indented? stem (c :: (blanks ++ '{' :: cs)) = none :=
      Entry.indented?_eq_none hs (Text.stops_dropWhile_append (stops_of_all_isBlank hb) rfl rfl _)
    simp only [List.all_cons, Bool.and_eq_true] at hb
    simp only [List.cons_append]
    rw [Entry.next?, Entry.read?_eq_none (Text.ne_of_kind hb.1 rfl) fun _ => hnone]
    simp only
    rw [ih _ hb.2, Entry.lineStartAfter_cons]
    simp

theorem next?_brace (hs : IsStem stem) (passed cs : List Char) :
    Entry.next? stem lineStart passed ('{' :: '\n' :: cs) =
      Entry.next? stem true ('\n' :: '{' :: passed) cs := by
  have hbrace : Entry.indented? stem ('{' :: '\n' :: cs) = none := by
    refine Entry.indented?_eq_none hs ?_
    rw [Text.dropWhile_of_stops (Text.stops_cons.mpr rfl)]
    exact Text.stops_cons.mpr rfl
  have hread : Entry.read? stem lineStart ('{' :: '\n' :: cs) = none := by
    cases lineStart <;> simp [Entry.read?, hbrace, Entry.indented?_lineEnd hs]
  rw [Entry.next?, hread]
  exact Entry.passes_lineEnd hs ('{' :: passed) cs

theorem next?_opening (hs : IsStem stem) (hname : name.all Config.isIdentifierRest = true)
    (blanks : Blanks) (passed cs : List Char) :
    Entry.next? stem lineStart passed (Block.opening name ++ (blanks.1 ++ '{' :: cs)) =
      Entry.next? stem (Entry.lineStartAfter false blanks.1)
        ((Block.opening name ++ blanks.1).reverse ++ passed) ('{' :: cs) := by
  have hrun : ∀ c ∈ "num ".toList ++ name, c ≠ '\n' ∧ c ≠ '{' := by
    intro c hc
    rcases List.mem_append.mp hc with hc | hc
    · have hkeyword : ∀ c ∈ "num ".toList, c ≠ '\n' ∧ c ≠ '{' := by simp
      exact hkeyword c hc
    · have hword := List.all_eq_true.mp hname c hc
      exact ⟨Text.ne_of_kind hword rfl, Text.ne_of_kind hword rfl⟩
  have hline : Entry.next? stem lineStart passed (Block.opening name ++ (blanks.1 ++ '{' :: cs)) =
      Entry.next? stem true ('\n' :: passed)
        ('e' :: ("num ".toList ++ name ++ (blanks.1 ++ '{' :: cs))) := by
    have hend : Entry.Passes stem lineStart ['\n'] := Entry.passes_lineEnd hs
    have := hend passed ('e' :: ("num ".toList ++ name ++ (blanks.1 ++ '{' :: cs)))
    simpa [Block.opening_eq_cons] using this
  have hread := indented?_keyword hs (name ++ (blanks.1 ++ '{' :: cs))
  rw [hline, Entry.next?, Entry.read?_eq_none (by simp) fun _ => by simpa using hread]
  simp only
  rw [show ('e' == '\n') = false from rfl, Entry.next?_run hrun, next?_blanks hs]
  simp [Block.opening_eq_cons]

theorem passes_beforeItems (hs : IsStem stem) (hname : name.all Config.isIdentifierRest = true)
    (blanks : Blanks) : Entry.Passes stem lineStart (beforeItems name blanks) := by
  intro passed cs
  have htext : beforeItems name blanks ++ cs =
      Block.opening name ++ (blanks.1 ++ '{' :: '\n' :: cs) := by simp [beforeItems]
  rw [htext, next?_opening hs hname blanks passed ('\n' :: cs), next?_brace hs]
  simp [beforeItems]

-- ---------------------------------------------------------------------------
-- Where the definition is found
-- ---------------------------------------------------------------------------

def itemParts (stem : List Char) (blanks : Blanks) (items : List Item) : Block.Parts where
  beforeBrace := blanks.1
  afterBrace := ('\n' :: items.flatMap (Item.text stem)).takeWhile isBlank
  body := ('\n' :: items.flatMap (Item.text stem)).dropWhile isBlank

theorem definition_eq_text (name stem : List Char) (blanks : Blanks) (items : List Item) :
    definition name stem blanks items = (itemParts stem blanks items).text name := by
  simp only [Block.Parts.text, itemParts]
  rw [← List.append_assoc (List.takeWhile _ _), List.takeWhile_append_dropWhile]
  simp [definition, beforeItems]

theorem Item.text_open (hs : IsStem stem) (item : Item) : '\x7d' ∉ item.text stem := by
  intro hmem
  simp only [text, endLines, List.mem_append, List.mem_flatMap, List.mem_singleton] at hmem
  rcases hmem with ⟨above, habove, hmem | hmem⟩ | hmem | hmem
  · exact ((Item.lineAbove_plain habove).1 _ hmem).2.2 rfl
  · simp at hmem
  · rcases item.line.mem_text hs hmem with h | h | h | h | h | ⟨note, hnote, h⟩
    all_goals first
      | exact (item.note_plain note hnote _ h).2 rfl
      | exact absurd h (by simp [isIndent, Config.isIdentifierRest])
  · simp at hmem

theorem itemParts_valid (hs : IsStem stem) (blanks : Blanks) (items : List Item) :
    (itemParts stem blanks items).Valid := by
  refine ⟨blanks.2, List.all_takeWhile, Text.stops_dropWhile _ _, ?_⟩
  intro hmem
  have hinside := List.dropWhile_subset _ hmem
  rcases List.mem_cons.mp hinside with h | h
  · simp at h
  · obtain ⟨item, -, hitem⟩ := List.mem_flatMap.mp h
    exact item.text_open hs hitem

theorem locate?_definition (hname : enum.toList.all Config.isIdentifierRest = true)
    (hs : IsStem stem) (hpre : ¬ Block.Opens enum.toList pre) (blanks : Blanks) (items : List Item)
    (post : List Char) :
    locate? (String.ofList (pre ++ (definition enum.toList stem blanks items ++ post))) enum =
      some (Block.ofParts enum.toList (width pre) (itemParts stem blanks items)) := by
  let parts := itemParts stem blanks items
  have hparts : Block.parts? enum.toList (parts.text enum.toList ++ post) = some parts :=
    Block.parts?_text (itemParts_valid hs blanks items) post
  -- A definition that begins in `pre` would have to run into this one.
  have hfirst : ∀ before tail, pre = before ++ tail → tail ≠ [] → Block.parts? enum.toList
      (tail ++ (parts.text enum.toList ++ post)) = none := by
    intro before tail hsplit hne
    rw [hsplit] at hpre
    rw [Block.Parts.text, List.append_assoc]
    exact Block.parts?_overlap (Text.notMem_of_all hname rfl) hpre hne _
  rw [locate?, definition_eq_text, String.toList_ofList, Block.find?_of_first hfirst hparts,
    Nat.zero_add]

-- ---------------------------------------------------------------------------
-- The members of a printed definition
-- ---------------------------------------------------------------------------

theorem Item.toMember_of_above (h : item.line.note = none →
      commentAbove above = item.comments.map CommentLine.text) :
    (item.entry stem).toMember above = item.member stem := by
  unfold Entry.toMember Item.entry Item.member Item.comment
  cases hn : item.line.note with
  | none => simp [h hn]
  | some note => simp [← Text.trim_trimStart note.1, Text.trimStart]

theorem Item.commentAbove_linesAbove (item : Item) :
    commentAbove (endLines item.linesAbove) = item.comments.map CommentLine.text :=
  commentAbove_comments (fun _ => Item.blankLine) item.comments

theorem Item.commentAbove_left (before item : Item) :
    commentAbove (before.left ++ endLines item.linesAbove) =
      item.comments.map CommentLine.text := by
  unfold Item.left
  split
  · exact item.commentAbove_linesAbove
  · have hblank : ∀ above ∈ [] :: item.blankLines.map (·.1.1),
        above.all isBlank = true ∧ '\n' ∉ above := by
      simp only [List.forall_mem_cons]
      exact ⟨by simp, fun _ => Item.blankLine⟩
    simpa [linesAbove] using commentAbove_comments hblank item.comments

theorem Item.commentAbove_dropWhile (item : Item) :
    commentAbove (('\n' :: endLines item.linesAbove).dropWhile isBlank) =
      item.comments.map CommentLine.text := by
  have hblank : ('\n' :: endLines (item.blankLines.map (·.1.1))).all isBlank = true := by
    simp only [List.all_cons, Text.isBlank_lineEnd, Bool.true_and, List.all_eq_true, endLines,
      List.mem_flatMap, List.mem_append, List.mem_singleton]
    rintro c ⟨above, habove, hc | rfl⟩
    · exact List.all_eq_true.mp (Item.blankLine habove).1 c hc
    · exact Text.isBlank_lineEnd
  rw [linesAbove, Text.endLines_append, ← List.cons_append,
    List.dropWhile_append_of_pos (by simpa using hblank)]
  cases item.comments with
  | nil => rfl
  | cons comment comments =>
    let first : CommentLine := { comment with indent := .none }
    have hdrop : (endLines ((comment :: comments).map CommentLine.line)).dropWhile isBlank =
        endLines ([] ++ (first :: comments).map CommentLine.line) := by
      simp only [List.map_cons, Text.endLines_cons, CommentLine.line, List.append_assoc,
        List.cons_append]
      rw [Text.dropWhile_run (Text.all_isBlank_of_isIndent comment.indent.2)
        (Text.stops_cons.mpr rfl)]
      simp [first, Indent.none]
    rw [hdrop, commentAbove_comments (by simp)]
    rfl

theorem scanned_members (before : Item) (items : List Item) :
    (scanned stem before.left items).map (fun (above, entry) => entry.toMember above) =
      items.map (Item.member stem) := by
  induction items generalizing before with
  | nil => rfl
  | cons item items ih =>
    rw [scanned, List.map_cons, ih item]
    simp only [List.map_cons]
    rw [Item.toMember_of_above fun _ => Item.commentAbove_left before item]

theorem aboveFirst_definition (hs : IsStem stem) (name pre : List Char) (blanks : Blanks)
    (item : Item) (items : List Item) (post : List Char) :
    aboveFirst (pre ++ ((itemParts stem blanks (item :: items)).text name ++ post))
      (Block.ofParts name (width pre) (itemParts stem blanks (item :: items))).membersStart
      (width pre + width (beforeItems name blanks ++ endLines item.linesAbove)) =
        .ok (('\n' :: endLines item.linesAbove).dropWhile isBlank) := by
  let inside := '\n' :: (item :: items).flatMap (Item.text stem)
  let rest := item.line.text stem ++ '\n' :: items.flatMap (Item.text stem)
  have hinside : inside = '\n' :: endLines item.linesAbove ++ rest := by
    simp [inside, rest, Item.text]
  have hvisible : inside.dropWhile isBlank ≠ [] := by
    obtain ⟨c, tail, hstem, hc⟩ := hs.start
    refine Text.dropWhile_ne_nil (c := c) ?_ (Config.isBlank_of_isIdentifierStart hc)
    simp [hinside, rest, MemberLine.text, MemberLine.unindented, MemberLine.name, hstem]
  have habove := aboveFirst_eq (pre ++ (Block.opening name ++ (blanks.1 ++ ['{'])))
    ('\n' :: endLines item.linesAbove) (rest ++ (Block.closing ++ post))
  rw [← List.append_assoc (_ :: _), ← hinside, Text.takeWhile_append_of_ne_nil hvisible] at habove
  have hheader : pre ++ ((itemParts stem blanks (item :: items)).text name ++ post) =
      pre ++ (Block.opening name ++ (blanks.1 ++ ['{'])) ++
        (inside ++ (Block.closing ++ post)) := by
    rw [← definition_eq_text]
    simp [definition, beforeItems, inside]
  have hstart :
      (Block.ofParts name (width pre) (itemParts stem blanks (item :: items))).membersStart =
        width (pre ++ (Block.opening name ++ (blanks.1 ++ ['{']))) +
          width (inside.takeWhile isBlank) := by
    have hbrace : ('{').utf8Size = 1 := rfl
    simp [Block.ofParts, itemParts, inside, hbrace, Nat.add_assoc]
  have hgap : width pre + width (beforeItems name blanks ++ endLines item.linesAbove) =
      width (pre ++ (Block.opening name ++ (blanks.1 ++ ['{']))) +
        width ('\n' :: endLines item.linesAbove) := by
    simp [beforeItems, Nat.add_assoc]
  rw [hheader, hstart, hgap, habove]

/-- A definition that stands in a header by itself, or behind a text in which none opens, is
located and gives back its items. -/
theorem members_definition {enum memberPrefix : String} (hname : Config.isIdentifier enum = true)
    (hfamily : Config.isIdentifier memberPrefix = true) (hpre : ¬ Block.Opens enum.toList pre)
    (blanks : Blanks) (items : List Item) (post : List Char) :
    ∃ block, locate? (String.ofList (pre ++
          (definition enum.toList (stemOf memberPrefix) blanks items ++ post))) enum = some block ∧
      members (String.ofList (pre ++
          (definition enum.toList (stemOf memberPrefix) blanks items ++ post))) block memberPrefix =
        .ok (items.map (Item.member (stemOf memberPrefix))) := by
  have hs := isStem_stemOf hfamily
  have hword := Config.all_isIdentifierRest hname
  refine ⟨_, locate?_definition hword hs hpre blanks items post, ?_⟩
  let parts := itemParts (stemOf memberPrefix) blanks items
  have hall : ∀ lineStart, Entry.all (stemOf memberPrefix) lineStart (parts.text enum.toList) =
      scanned (stemOf memberPrefix) (beforeItems enum.toList blanks) items := by
    intro lineStart
    rw [← definition_eq_text, definition]
    exact all_items hs (passes_beforeItems hs hword blanks) items
  rw [members, String.toList_ofList, definition_eq_text]
  change Block.members _ (stemOf memberPrefix) _ = _
  cases items with
  | nil => exact Block.members_ofParts_nil (hall _)
  | cons item items =>
    have habove := aboveFirst_definition hs enum.toList pre blanks item items post
    rw [Block.members_ofParts_cons (hall _) fun _ => habove, scanned_members, List.map_cons,
      Item.toMember_of_above fun _ => item.commentAbove_dropWhile]

/-- A member with a comment above its line, and one with a comment both above and on its line. -/
def channelItems : List Item := [
  { blankLines := [⟨⟨[' '], rfl⟩, by simp⟩]
    comments := [{ indent := ⟨['\t'], rfl⟩, body := ⟨" luma ".toList, by simp⟩ }]
    line := {
      indent := .space
      suffix := ⟨['Y'], by simp, rfl⟩
      beforeEquals := .space
      afterEquals := .none
      digits := ⟨['1', '0'], by simp, rfl⟩
      afterDigits := .none
      comma := true
      afterComma := .none
      note := none }
    comments_plain := by simp [IsPlain]
    note_plain := by simp
    note_visible := by simp },
  { blankLines := []
    comments := [{ indent := .none, body := ⟨['-'], by simp⟩ }]
    line := {
      indent := .none
      suffix := ⟨['A'], by simp, rfl⟩
      beforeEquals := .none
      afterEquals := .space
      digits := ⟨['1', '1'], by simp, rfl⟩
      afterDigits := .none
      comma := false
      afterComma := .space
      note := some ⟨" alpha".toList, by simp⟩ }
    comments_plain := by simp [IsPlain]
    note_plain := by simp [IsPlain]
    note_visible := by simp [isBlank, Text.blanks] }]

def channelHeader : String :=
  "int x;\nenum channel\n\x7b\n \n\t// luma \n channel_Y =10,\n//-\nchannel_A= 11 // alpha\n\x7d;\n"

theorem members_definition_channel :
    Config.isIdentifier "channel" = true ∧ ¬ Block.Opens "channel".toList "int x;".toList ∧
      ∃ block, locate? channelHeader "channel" = some block ∧
        members channelHeader block "channel" =
          .ok [⟨"channel_Y", ["luma"]⟩, ⟨"channel_A", ["alpha"]⟩] := by
  have hname : Config.isIdentifier "channel" = true := rfl
  have hpre : ¬ Block.Opens "channel".toList "int x;".toList := by
    rintro ⟨before, after, blanks, h⟩
    have hmem : '{' ∈ "int x;".toList := by simp [h]
    simp at hmem
  have hheader : String.ofList ("int x;".toList ++ (definition "channel".toList (stemOf "channel")
      ⟨['\n'], rfl⟩ channelItems ++ [])) = channelHeader := rfl
  have hmembers : channelItems.map (Item.member (stemOf "channel")) =
      [⟨"channel_Y", ["luma"]⟩, ⟨"channel_A", ["alpha"]⟩] := rfl
  refine ⟨hname, hpre, ?_⟩
  rw [← hheader, ← hmembers]
  exact members_definition hname hname hpre ⟨['\n'], rfl⟩ channelItems []

end EnumBinding.Header
