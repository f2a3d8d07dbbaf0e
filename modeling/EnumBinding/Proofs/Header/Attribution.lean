import EnumBinding.Proofs.Header.BlockPlace
import EnumBinding.Proofs.Header.Offsets
import EnumBinding.Proofs.Header.Quote

/-!
# Who a comment belongs to

The lines that document the members of a located block are quoted from its
text, and no two quotes share a byte (`comments_attributed`). The quotes of a
member lie between the end of the member before it and its own end, which is
all that keeps them apart (`quotes_pairwise`).
-/

namespace EnumBinding.Header

open Text (splitAt? width)

/-- What `before` holds from the byte `floor` on: nothing if it does not reach that far. -/
inductive Above (floor : Nat) : (before above : List Char) → Prop
  | within (pre above : List Char) : width pre = floor → Above floor (pre ++ above) above
  | short (before : List Char) : width before ≤ floor → Above floor before []

structure Attribution where
  site : Site
  member : Member
  quotes : List Quote

/-- The comment is quoted from between the floor and the end of the member. If the member has no note
and begins a line, its comment is the run of comment lines right above that line, no further up than
the floor. -/
structure Attribution.Exact (found : Attribution) (header : List Char) : Prop where
  gives : found.site.span.entry.Gives found.member
  quoted : Quoted header found.site.floor found.site.span.last
    (found.member.comment.map String.toList) found.quotes
  run : found.site.span.entry.note = none → ∀ before rest, header = before ++ rest →
    width before = found.site.span.first → beginsLine before = true →
      ∃ above, Above found.site.floor before above ∧
        EndsInRun above (found.member.comment.map String.toList)

variable {header before rest stem text after above : List Char} {floor : Nat} {span : Span}
  {shape : Shape} {block : Block} {member : Member} {ms : List Member}

-- ---------------------------------------------------------------------------
-- The text above a member
-- ---------------------------------------------------------------------------

theorem above_of_aboveFirst (h : aboveFirst (before ++ rest) floor (width before) = .ok above) :
    Above floor before above := by
  unfold aboveFirst at h
  split at h
  · next hle =>
    cases h
    exact .short before hle
  · next hlt =>
    rw [Text.slice?_of_le (by omega)] at h
    cases hsplit : splitAt? floor before with
    | none =>
      rw [hsplit] at h
      cases h
    | some found =>
      obtain ⟨pre, behind⟩ := found
      obtain ⟨rfl, hwidth⟩ := Text.splitAt?_eq_some_iff.mp hsplit
      rw [hsplit] at h
      cases h
      exact .within pre _ hwidth

theorem Above.exists_quotes (h : Above floor before above) (hheader : header = before ++ rest) :
    ∃ quotes, Quoted header floor (width before) (commentAbove above) quotes := by
  cases h with
  | within pre above hwidth =>
    rw [← hwidth]
    exact exists_quotes_above (hheader.trans (List.append_assoc _ _ _))
  | short before hle => exact ⟨[], quoted_nil _ _ _⟩

theorem Above.endsInRun (h : Above floor before above) (hline : beginsLine before = true) :
    EndsInRun above (commentAbove above) := by
  apply endsInRun_of_lineEnd
  cases h with
  | within pre above hwidth =>
    intro c hc
    have hlast : (pre ++ above).getLast? = some c := by
      rw [List.getLast?_append, Option.mem_def.mp hc]
      rfl
    simpa [beginsLine, hlast] using hline
  | short before hle =>
    intro c hc
    cases hc

-- ---------------------------------------------------------------------------
-- One member
-- ---------------------------------------------------------------------------

theorem Span.Matches.exists_quotes_note (h : span.Matches stem text shape before rest)
    {note : List Char} (hnote : span.entry.note = some note) (after : List Char) :
    ∃ quotes, Quoted (text ++ after) (width (before ++ shape.lead)) span.last
      [Text.trim note] quotes := by
  have hending : shape.ending.note? = some note := by
    rw [← hnote, h.entry]
    rfl
  cases hshape : shape.ending with
  | line => simp [hshape, Ending.note?] at hending
  | brace => simp [hshape, Ending.note?] at hending
  | note blanks found =>
    obtain rfl : found.1 = note := by simpa [hshape, Ending.note?] using hending
    let behind := shape.name stem ++ (shape.beforeEquals.1 ++
      '=' :: (shape.afterEquals.1 ++ (shape.digits.1 ++ shape.afterValue)))
    have htaken : before ++ shape.text stem =
        before ++ shape.lead ++ behind ++ '/' :: '/' :: (blanks.1 ++ found.1) := by
      simp [Shape.text, Shape.value, hshape, Ending.text, behind]
    have hheader : text ++ after =
        before ++ shape.lead ++ behind ++ '/' :: '/' :: (blanks.1 ++ found.1 ++ (rest ++ after)) := by
      rw [h.split, ← List.append_assoc, htaken]
      simp
    obtain ⟨quotes, hquotes⟩ := Header.exists_quotes_note found.2.2
      (before ++ shape.lead ++ behind) (rest ++ after) blanks
    rw [hheader, h.last, htaken]
    refine ⟨quotes, hquotes.mono ?_ (Nat.le_refl _)⟩
    rw [Text.width_append _ behind]
    exact Nat.le_add_right _ _

theorem Site.exists_quotes (hheader : header = text ++ after)
    (hmatch : span.Matches stem text shape before rest)
    (hfloor : floor ≤ width (before ++ shape.lead))
    (hmember : Site.member? header ⟨floor, span⟩ = .ok member) :
    ∃ quotes, Attribution.Exact ⟨⟨floor, span⟩, member, quotes⟩ header := by
  have hsplit : header = before ++ (shape.text stem ++ rest ++ after) := by
    rw [hheader, hmatch.split]
    simp
  obtain ⟨first, last, entry⟩ := span
  obtain rfl : first = width before := hmatch.first
  rw [Site.member?_eq hsplit] at hmember
  cases hnote : entry.note with
  | some note =>
    rw [hnote] at hmember
    cases hmember
    obtain ⟨quotes, hquotes⟩ := hmatch.exists_quotes_note hnote after
    refine ⟨quotes, Entry.gives_toMember [] entry, ?_, ?_⟩
    · rw [hheader]
      simpa [Entry.toMember, hnote] using hquotes.mono hfloor (Nat.le_refl _)
    · intro hnone
      rw [hnote] at hnone
      cases hnone
  | none =>
    rw [hnote] at hmember
    cases habove : aboveFirst header floor (width before) with
    | error cause =>
      rw [habove] at hmember
      cases hmember
    | ok above =>
      rw [habove] at hmember
      cases hmember
      have hfound : Above floor before above := by
        rw [hsplit] at habove
        exact above_of_aboveFirst habove
      have hcomment : (entry.toMember above).comment.map String.toList = commentAbove above := by
        simp [Entry.toMember, hnote]
      obtain ⟨quotes, hquotes⟩ := hfound.exists_quotes hsplit
      refine ⟨quotes, Entry.gives_toMember above entry, ?_, ?_⟩
      · rw [hcomment]
        exact hquotes.mono (Nat.le_refl _) hmatch.first_le
      · intro _ other behind hother hwidth hline
        obtain ⟨rfl, -⟩ := Text.append_inj_of_width (hother.symm.trans hsplit) hwidth
        rw [hcomment]
        exact ⟨above, hfound, hfound.endsInRun hline⟩

-- ---------------------------------------------------------------------------
-- All members
-- ---------------------------------------------------------------------------

theorem quotes_pairwise {found : List Attribution} (hfound : ∀ one ∈ found, one.Exact header)
    (h : (found.map Attribution.site).Pairwise fun before after => before.span.last ≤ after.floor) :
    (found.flatMap Attribution.quotes).Pairwise fun before after => before.last ≤ after.first := by
  rw [List.pairwise_map] at h
  rw [List.pairwise_flatMap]
  refine ⟨fun one hone => (hfound one hone).quoted.ordered, h.imp_of_mem ?_⟩
  intro one other hone hother hle quote hquote behind hbehind
  have hlast := ((hfound one hone).quoted.standing quote hquote).last
  have hfirst := ((hfound other hother).quoted.standing behind hbehind).first
  exact Nat.le_trans hlast (Nat.le_trans hle hfirst)

theorem exists_attributions {found : List Site} (h : found.mapM (Site.member? header) = .ok ms)
    (hfound : ∀ site ∈ found, ∀ member, site.member? header = .ok member →
      ∃ quotes, Attribution.Exact ⟨site, member, quotes⟩ header) :
    ∃ attributions : List Attribution, attributions.map Attribution.site = found ∧
      attributions.map Attribution.member = ms ∧ ∀ one ∈ attributions, one.Exact header := by
  have hmembers := Outcomes.mapM_eq_ok.mp h
  clear h
  induction hmembers with
  | nil => exact ⟨[], rfl, rfl, by simp⟩
  | @cons site member found ms hmember _ ih =>
    obtain ⟨hsite, hfound⟩ := List.forall_mem_cons.mp hfound
    obtain ⟨quotes, hquotes⟩ := hsite member hmember
    obtain ⟨attributions, rfl, rfl, hall⟩ := ih hfound
    exact ⟨⟨site, member, quotes⟩ :: attributions, rfl, rfl, List.forall_mem_cons.mpr ⟨hquotes, hall⟩⟩

-- ---------------------------------------------------------------------------
-- Located blocks
-- ---------------------------------------------------------------------------

theorem Block.Place.Located.membersStart_le {place : Block.Place} {name : List Char}
    (h : place.Located name header block) (hs : IsStem stem) (hheader : header = text ++ after)
    (hmatch : span.Matches stem text shape before rest) (hopen : block.openBrace ≤ span.first) :
    block.membersStart ≤ width (before ++ shape.lead) := by
  obtain ⟨blanks, c, tail, -, -, hstart⟩ := h.membersStart
  obtain ⟨hcut, hwidth⟩ := Text.splitAt?_eq_some_iff.mp hstart
  obtain ⟨-, hlead⟩ := Text.splitAt?_eq_some_iff.mp h.openBrace
  obtain ⟨letter, letters, rfl, hletter⟩ := hs.start
  by_contra hlt
  have hsplit : before ++ shape.lead ++
      letter :: (letters ++ (shape.suffix.1 ++ (shape.value ++ (rest ++ after)))) = header := by
    rw [hheader, hmatch.split]
    simp [Shape.text, Shape.name]
  obtain ⟨mid, hmid, hname⟩ := Text.exists_append_of_width_le (hsplit.trans hcut) (by omega)
  cases mid with
  | nil =>
    rw [List.append_nil] at hmid
    rw [← hwidth, hmid] at hlt
    exact hlt (Nat.le_refl _)
  | cons d mid =>
    obtain ⟨rfl, -⟩ := List.cons.inj hname
    -- The first letter of the name would be the opening brace or one of the blanks behind it.
    have hmem : letter ∈ '{' :: blanks.1 := by
      rw [hmatch.first, ← hlead] at hopen
      rw [List.append_assoc] at hmid
      obtain ⟨gap, -, hgap⟩ := Text.exists_append_of_width_le hmid hopen
      rw [hgap]
      simp
    rcases List.mem_cons.mp hmem with rfl | hblank
    · cases hletter
    · have hnot := Config.isBlank_of_isIdentifierStart hletter
      rw [List.all_eq_true.mp blanks.2 letter hblank] at hnot
      cases hnot

/-- The sites of a located block are shapes of its text, and each floor is between the start of the
members and the name of its own member. -/
theorem sites_of_locate? {header enum memberPrefix : String} (hlocate : locate? header enum = some block)
    (henum : Config.isIdentifier enum = true) (hfamily : Config.isIdentifier memberPrefix = true) :
    ∃ text after, header.toList = text ++ after ∧ width text = block.last ∧
      Leftmost (stemOf memberPrefix) text block.first
        (block.spans (stemOf memberPrefix) header.toList) ∧
      ∀ site ∈ sites block.membersStart (block.spans (stemOf memberPrefix) header.toList),
        ∃ shape before rest, site.span.Matches (stemOf memberPrefix) text shape before rest ∧
          block.membersStart ≤ site.floor ∧ site.floor ≤ width (before ++ shape.lead) ∧
          site.span.last ≤ block.last := by
  obtain ⟨place, hplace⟩ := located_of_locate? hlocate
  obtain ⟨text, after, hheader, hlast, hleftmost, hbounds⟩ :=
    leftmost_of_locate? hlocate henum hfamily
  have hstart : ∀ span ∈ block.spans (stemOf memberPrefix) header.toList, ∃ shape before rest,
      span.Matches (stemOf memberPrefix) text shape before rest ∧
        block.membersStart ≤ width (before ++ shape.lead) := by
    intro span hspan
    obtain ⟨-, shape, before, rest, hmatch⟩ := hleftmost.matched span hspan
    exact ⟨shape, before, rest, hmatch, hplace.membersStart_le (isStem_stemOf hfamily) hheader hmatch
      (hbounds span hspan).1⟩
  refine ⟨text, after, hheader, hlast, hleftmost, fun site hsite => ?_⟩
  obtain ⟨hspan, hfloor⟩ := mem_sites hleftmost.ordered hsite
  obtain ⟨shape, before, rest, hmatch, hname⟩ := hstart site.span hspan
  refine ⟨shape, before, rest, hmatch, ?_⟩
  rcases hfloor with hfloor | ⟨earlier, hearlier, hfloor, hle⟩
  · rw [hfloor]
    exact ⟨Nat.le_refl _, hname, (hbounds site.span hspan).2.1⟩
  · obtain ⟨_, _, _, hmatchEarlier, hnameEarlier⟩ := hstart earlier hearlier
    rw [hfloor]
    exact ⟨Nat.le_trans hnameEarlier hmatchEarlier.lead_le.2, Nat.le_trans hle hmatch.lead_le.1,
      (hbounds site.span hspan).2.1⟩

/-- In a located block the comment of each member is quoted from the text between the start of the
members, or the end of the member before, and the end of its own member; above a member that begins
a line and has no note it is the longest run of comment lines there. No two quotes overlap, and none
begins before the members do or ends behind the block. -/
theorem comments_attributed {header enum memberPrefix : String} {block : Block}
    (hlocate : locate? header enum = some block) (henum : Config.isIdentifier enum = true)
    (hfamily : Config.isIdentifier memberPrefix = true) :
    ∃ (text after : List Char) (spans : List Span) (found : List Attribution),
      header.toList = text ++ after ∧ width text = block.last ∧
      Leftmost (stemOf memberPrefix) text block.first spans ∧
      found.map Attribution.site = sites block.membersStart spans ∧
      members header block memberPrefix = .ok (found.map Attribution.member) ∧
      (∀ one ∈ found, one.Exact header.toList) ∧
      (found.flatMap Attribution.quotes).Pairwise (fun before after => before.last ≤ after.first) ∧
      ∀ quote ∈ found.flatMap Attribution.quotes,
        quote.StandsIn header.toList block.membersStart block.last := by
  obtain ⟨ms, hms, -⟩ := members_of_locate? hlocate memberPrefix
  obtain ⟨text, after, hheader, hlast, hleftmost, hbounds⟩ :=
    sites_of_locate? hlocate henum hfamily
  let spans := block.spans (stemOf memberPrefix) header.toList
  have hmapM : (sites block.membersStart spans).mapM (Site.member? header.toList) = .ok ms :=
    (members_eq_mapM (Text.splitAt?_eq_some_iff.mpr ⟨hheader, hlast⟩)).symm.trans hms
  have hquotes : ∀ site ∈ sites block.membersStart spans, ∀ member,
      site.member? header.toList = .ok member →
        ∃ quotes, Attribution.Exact ⟨site, member, quotes⟩ header.toList := by
    intro site hsite member hmember
    obtain ⟨shape, before, rest, hmatch, -, hfloor, -⟩ := hbounds site hsite
    exact Site.exists_quotes hheader hmatch hfloor hmember
  obtain ⟨found, hsites, rfl, hexact⟩ := exists_attributions hmapM hquotes
  have hfirst : ∀ span ∈ spans, span.first ≤ span.last := by
    intro span hspan
    obtain ⟨-, shape, before, rest, hmatch⟩ := hleftmost.matched span hspan
    exact hmatch.first_le
  have hpairwise := sites_pairwise hleftmost.ordered hfirst block.membersStart
  rw [← hsites] at hpairwise
  refine ⟨text, after, spans, found, hheader, hlast, hleftmost, hsites, hms, hexact,
    quotes_pairwise hexact hpairwise, fun quote hquote => ?_⟩
  obtain ⟨one, hone, hquote⟩ := List.mem_flatMap.mp hquote
  have hsite : one.site ∈ sites block.membersStart spans := by
    rw [← hsites]
    exact List.mem_map_of_mem hone
  obtain ⟨_, _, _, -, hstart, -, hend⟩ := hbounds one.site hsite
  exact ((hexact one hone).quoted.standing quote hquote).mono hstart hend

/-- A comment on the line of the brace, a run above a member, a note, and a run that begins behind it. -/
def runHeader : String :=
  "\nenum foo\n\x7b // brace\n// one\n  //  two \nfoo_a = 1,\n\nfoo_b = 2, // note\n// three\n\tfoo_c = 3\n\x7d;\n"

theorem comments_attributed_run :
    locate? runHeader "foo" = some ⟨0, 93, 10, 90, 12⟩ ∧ Config.isIdentifier "foo" = true ∧
      ∃ found : List Attribution, found.map Attribution.member =
          [⟨"foo_a", ["brace", "one", "two"]⟩, ⟨"foo_b", ["note"]⟩, ⟨"foo_c", ["three"]⟩] ∧
        (∀ one ∈ found, one.Exact runHeader.toList) ∧
        (found.flatMap Attribution.quotes).Pairwise (fun before after => before.last ≤ after.first) ∧
        ∀ quote ∈ found.flatMap Attribution.quotes, quote.StandsIn runHeader.toList 12 93 := by
  have hlocate : locate? runHeader "foo" = some ⟨0, 93, 10, 90, 12⟩ := rfl
  have hname : Config.isIdentifier "foo" = true := rfl
  have hmembers : members runHeader ⟨0, 93, 10, 90, 12⟩ "foo" =
      .ok [⟨"foo_a", ["brace", "one", "two"]⟩, ⟨"foo_b", ["note"]⟩, ⟨"foo_c", ["three"]⟩] := by
    decide +kernel
  obtain ⟨text, after, spans, found, -, -, -, -, hms, hexact, hpairwise, hstanding⟩ :=
    comments_attributed hlocate hname hname
  exact ⟨hlocate, hname, found, (Except.ok.inj (hmembers.symm.trans hms)).symm, hexact, hpairwise,
    hstanding⟩

end EnumBinding.Header
