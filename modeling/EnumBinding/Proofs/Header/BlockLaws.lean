import EnumBinding.Header.Member
import EnumBinding.Proofs.Text.RunLaws

/-!
# Located blocks

`Block.Parts.text` prints the parts of a definition, and `parts?` reads what it
prints (`parts?_text`) and nothing else (`parts?_eq_some`). The block that is
found is the first definition of the header (`find?_of_first`,
`find?_eq_some`), so a located block always fits its header, and the scan for
its members sees the text of the definition alone.
-/

namespace EnumBinding.Header

open Text (Blanks isBlank Stops width)

namespace Block

-- ---------------------------------------------------------------------------
-- The parts of a definition
-- ---------------------------------------------------------------------------

theorem opening_eq_cons (name : List Char) : opening name = '\n' :: 'e' :: ("num ".toList ++ name) := rfl

/-- The definition of `name` with these parts, from the line end before it to the line end after. -/
def Parts.text (name : List Char) (parts : Parts) : List Char :=
  opening name ++ (parts.beforeBrace ++ '{' :: (parts.afterBrace ++ (parts.body ++ closing)))

structure Parts.Valid (parts : Parts) : Prop where
  beforeBrace : parts.beforeBrace.all isBlank = true
  afterBrace : parts.afterBrace.all isBlank = true
  body_stops : Stops isBlank parts.body
  body_open : '\x7d' ∉ parts.body

variable {stem name cs pre rest post before tail run word gap above : List Char} {parts : Parts}
  {entry : Entry} {offset : Nat}

theorem parts?_eq_some (h : parts? name cs = some parts) :
    parts.Valid ∧ ∃ post, cs = parts.text name ++ post := by
  unfold parts? at h
  split at h
  · cases h
  · next named hnamed =>
    rw [Text.after?_eq_some_iff] at hnamed
    split at h
    · next inside hinside =>
      simp only at h
      split at h
      · next post hpost =>
        rw [Text.after?_eq_some_iff] at hpost
        cases h
        refine ⟨⟨List.all_takeWhile, List.all_takeWhile, ?_, ?_⟩, post, ?_⟩
        · intro c hc
          rw [Option.mem_def, List.head?_takeWhile] at hc
          exact Text.stops_dropWhile isBlank inside c (Option.eq_some_of_filter_eq_some hc)
        · intro hmem
          simpa using List.all_eq_true.mp List.all_takeWhile _ hmem
        · calc cs = opening name ++ named := hnamed
            _ = opening name ++ (named.takeWhile isBlank ++ '{' ::
                  (inside.takeWhile isBlank ++ inside.dropWhile isBlank)) := by
              rw [List.takeWhile_append_dropWhile, ← hinside, List.takeWhile_append_dropWhile]
            _ = opening name ++ (named.takeWhile isBlank ++ '{' :: (inside.takeWhile isBlank ++
                  ((inside.dropWhile isBlank).takeWhile (· != '\x7d') ++ (closing ++ post)))) := by
              rw [← hpost, List.takeWhile_append_dropWhile (p := (· != '\x7d'))]
            _ = _ := by simp [Parts.text]
      · cases h
    · cases h

theorem parts?_text (hv : parts.Valid) (post : List Char) :
    parts? name (parts.text name ++ post) = some parts := by
  have hnamed : Stops isBlank ('{' :: (parts.afterBrace ++ (parts.body ++ closing)) ++ post) :=
    Text.stops_cons.mpr rfl
  have hinside : Stops isBlank (parts.body ++ closing ++ post) := by
    cases hb : parts.body with
    | nil => exact Text.stops_cons.mpr rfl
    | cons c body =>
      have hs := hv.body_stops
      rw [hb] at hs
      simpa using hs
  have hbody : Stops (· != '\x7d') (closing ++ post) := by simp [closing]
  have hopen : parts.body.all (· != '\x7d') = true := by
    rw [List.all_eq_true]
    intro c hc
    have hne : c ≠ '\x7d' := by
      rintro rfl
      exact hv.body_open hc
    simpa using hne
  unfold parts?
  simp only [Parts.text, List.append_assoc, Text.after?_append, List.cons_append] at *
  rw [Text.dropWhile_run hv.beforeBrace hnamed, Text.takeWhile_run hv.beforeBrace hnamed]
  simp only
  rw [Text.dropWhile_run hv.afterBrace hinside, Text.takeWhile_run hv.afterBrace hinside,
    Text.dropWhile_run hopen hbody, Text.takeWhile_run hopen hbody, Text.after?_append]

-- ---------------------------------------------------------------------------
-- The first definition
-- ---------------------------------------------------------------------------

theorem find?_eq_some (h : find? name offset cs = some block) :
    ∃ pre parts post, cs = pre ++ (Parts.text name parts ++ post) ∧ parts.Valid ∧
      block = ofParts name (offset + width pre) parts := by
  induction cs generalizing offset with
  | nil => cases h
  | cons c cs ih =>
    unfold find? at h
    split at h
    · next parts hparts =>
      cases h
      obtain ⟨hv, post, hs⟩ := parts?_eq_some hparts
      exact ⟨[], parts, post, hs, hv, rfl⟩
    · obtain ⟨pre, parts, post, hs, hv, hb⟩ := ih h
      refine ⟨c :: pre, parts, post, by simp [hs], hv, ?_⟩
      rw [hb, Text.width_cons, Nat.add_assoc]

theorem find?_of_first (hpre : ∀ before tail, pre = before ++ tail → tail ≠ [] →
      parts? name (tail ++ rest) = none) (h : parts? name rest = some parts) :
    find? name offset (pre ++ rest) = some (ofParts name (offset + width pre) parts) := by
  induction pre generalizing offset with
  | nil =>
    obtain ⟨-, post, hs⟩ := parts?_eq_some h
    rw [List.nil_append, Text.width_nil, Nat.add_zero]
    cases rest with
    | nil => simp [Parts.text] at hs
    | cons c rest => rw [find?, h]
  | cons c pre ih =>
    have hnone := hpre [] (c :: pre) rfl (by simp)
    rw [List.cons_append] at hnone ⊢
    rw [find?, hnone]
    simp only
    rw [ih fun before tail hs hne => hpre (c :: before) tail (by simp [hs]) hne,
      Text.width_cons, Nat.add_assoc]

-- ---------------------------------------------------------------------------
-- Whether there is a definition
-- ---------------------------------------------------------------------------

/-- Somewhere in the text stands a whole definition of `name`, from the line end before it to the line
end after it. -/
def Defines (name text : List Char) : Prop :=
  ∃ (before : List Char) (blanks : Blanks) (body after : List Char), '\x7d' ∉ body ∧
    text = before ++ (opening name ++ (blanks.1 ++ '{' :: (body ++ (closing ++ after))))

theorem find?_eq_none_iff : find? name offset cs = none ↔
    ∀ before rest, cs = before ++ rest → parts? name rest = none := by
  induction cs generalizing offset with
  | nil =>
    refine iff_of_true rfl fun before rest hsplit => ?_
    obtain ⟨-, rfl⟩ := List.append_eq_nil_iff.mp hsplit.symm
    rfl
  | cons c cs ih =>
    have hsearch : find? name offset (c :: cs) = none ↔
        parts? name (c :: cs) = none ∧ find? name (offset + c.utf8Size) cs = none := by
      rw [find?]
      cases parts? name (c :: cs) <;> simp
    rw [hsearch, ih]
    constructor
    · rintro ⟨hfirst, hothers⟩ before rest hsplit
      cases before with
      | nil =>
        rw [List.nil_append] at hsplit
        exact hsplit ▸ hfirst
      | cons d before => exact hothers before rest (List.cons.inj hsplit).2
    · intro h
      exact ⟨h [] _ rfl, fun before rest hsplit => h (c :: before) rest (by rw [hsplit]; rfl)⟩

theorem exists_parts_iff : (∃ parts, parts? name cs = some parts) ↔
    ∃ (blanks : Blanks) (body after : List Char), '\x7d' ∉ body ∧
      cs = opening name ++ (blanks.1 ++ '{' :: (body ++ (closing ++ after))) := by
  constructor
  · rintro ⟨parts, hparts⟩
    obtain ⟨hv, after, rfl⟩ := parts?_eq_some hparts
    refine ⟨⟨_, hv.beforeBrace⟩, parts.afterBrace ++ parts.body, after, ?_, by simp [Parts.text]⟩
    rw [List.mem_append, not_or]
    exact ⟨Text.notMem_of_all hv.afterBrace rfl, hv.body_open⟩
  · rintro ⟨blanks, body, after, hbody, rfl⟩
    let parts : Parts := ⟨blanks.1, body.takeWhile isBlank, body.dropWhile isBlank⟩
    have hv : parts.Valid := ⟨blanks.2, List.all_takeWhile, Text.stops_dropWhile _ _,
      fun hmem => hbody (List.dropWhile_subset _ hmem)⟩
    have htext : parts.text name ++ after =
        opening name ++ (blanks.1 ++ '{' :: (body ++ (closing ++ after))) := by
      simp only [Parts.text, parts, List.append_assoc, List.cons_append]
      rw [← List.append_assoc (body.takeWhile isBlank), List.takeWhile_append_dropWhile]
    exact ⟨parts, htext ▸ parts?_text hv after⟩

-- ---------------------------------------------------------------------------
-- Where a definition may open
-- ---------------------------------------------------------------------------

theorem brace_before (hb : run.all isBlank = true)
    (h : tail ++ '\n' :: 'e' :: more = run ++ '{' :: after) :
    ∃ between, tail = run ++ '{' :: between := by
  induction run generalizing tail with
  | nil =>
    cases tail with
    | nil => exact absurd (List.cons.inj h).1 (by simp)
    | cons c tail => exact ⟨tail, by rw [(List.cons.inj h).1]; rfl⟩
  | cons b run ih =>
    simp only [List.all_cons, Bool.and_eq_true] at hb
    cases tail with
    | nil =>
      have hkeyword : 'e' :: more = run ++ '{' :: after := (List.cons.inj h).2
      cases run with
      | nil => exact absurd (List.cons.inj hkeyword).1 (by simp)
      | cons d run =>
        have hd : isBlank d = true := by
          simp only [List.all_cons, Bool.and_eq_true] at hb
          exact hb.2.1
        exact absurd (List.cons.inj hkeyword).1.symm (Text.ne_of_kind hd rfl)
    | cons c tail =>
      obtain ⟨rfl, htail⟩ := List.cons.inj h
      obtain ⟨between, rfl⟩ := ih hb.2 htail
      exact ⟨between, rfl⟩

theorem opening_before (hw : '\n' ∉ word) (hb : run.all isBlank = true)
    (h : tail ++ '\n' :: 'e' :: more = word ++ (run ++ '{' :: after)) :
    ∃ between, tail = word ++ (run ++ '{' :: between) := by
  induction word generalizing tail with
  | nil => exact brace_before hb h
  | cons c word ih =>
    simp only [List.mem_cons, not_or] at hw
    cases tail with
    | nil => exact absurd (List.cons.inj h).1 hw.1
    | cons d tail =>
      obtain ⟨rfl, htail⟩ := List.cons.inj h
      obtain ⟨between, rfl⟩ := ih hw.2 htail
      exact ⟨between, rfl⟩

/-- Somewhere in the text a definition of `name` opens. -/
def Opens (name cs : List Char) : Prop :=
  ∃ before after, ∃ blanks : Blanks, cs = before ++ (opening name ++ (blanks.1 ++ '{' :: after))

/-- No definition begins before another one and runs into it. -/
theorem parts?_overlap (hname : '\n' ∉ name) (hpre : ¬ Opens name (before ++ tail))
    (hne : tail ≠ []) (rest : List Char) : parts? name (tail ++ (opening name ++ rest)) = none := by
  rw [Option.eq_none_iff_forall_ne_some]
  intro parts hparts
  obtain ⟨hv, post, hs⟩ := parts?_eq_some hparts
  obtain ⟨first, tail, rfl⟩ := List.exists_cons_of_ne_nil hne
  have hword : '\n' ∉ "enum ".toList ++ name := by simp [hname]
  have hkeyword : first = '\n' ∧ tail ++ '\n' :: 'e' :: ("num ".toList ++ (name ++ rest)) =
      "enum ".toList ++ name ++ (parts.beforeBrace ++
        '{' :: (parts.afterBrace ++ (parts.body ++ (closing ++ post)))) := by
    simpa [Parts.text, opening_eq_cons] using hs
  obtain ⟨rfl, hkeyword⟩ := hkeyword
  obtain ⟨between, rfl⟩ := opening_before hword hv.beforeBrace hkeyword
  exact hpre ⟨before, between, ⟨parts.beforeBrace, hv.beforeBrace⟩, by simp [opening_eq_cons]⟩

-- ---------------------------------------------------------------------------
-- The text of a located block
-- ---------------------------------------------------------------------------

theorem ofParts_last (name : List Char) (first : Nat) (parts : Parts) :
    (ofParts name first parts).last = first + width (parts.text name) := by
  have hbrace : ('{').utf8Size = 1 := rfl
  simp only [ofParts, Parts.text, Text.width_append, Text.width_cons, hbrace]
  omega

theorem seek_ofParts (name pre post : List Char) (parts : Parts) :
    ∃ text, Text.splitAt? (ofParts name (width pre) parts).last (pre ++ (parts.text name ++ post)) =
        some (text, post) ∧
      Text.seek [] (ofParts name (width pre) parts).first text =
        (pre.reverse, parts.text name) := by
  refine ⟨pre ++ parts.text name, ?_, ?_⟩
  · rw [Text.splitAt?_eq_some_iff, ofParts_last, Text.width_append]
    simp
  · simpa [ofParts] using Text.seek_append [] pre (parts.text name)

-- ---------------------------------------------------------------------------
-- The members of a located block
-- ---------------------------------------------------------------------------

theorem toMember_note (h : entry.note = some note) (above other : List Char) :
    entry.toMember above = entry.toMember other := by
  simp [Entry.toMember, h]

theorem members_ofParts_nil
    (h : Entry.all stem (pre.getLast?.all (· == '\n')) (parts.text name) = []) :
    (ofParts name (width pre) parts).members stem (pre ++ (parts.text name ++ post)) = .ok [] := by
  obtain ⟨text, hsplit, hseek⟩ := seek_ofParts name pre post parts
  unfold Block.members
  simp [hsplit, hseek, h]

theorem members_ofParts_cons
    (h : Entry.all stem (pre.getLast?.all (· == '\n')) (parts.text name) = (gap, entry) :: others)
    (habove : entry.note = none → aboveFirst (pre ++ (parts.text name ++ post))
      (ofParts name (width pre) parts).membersStart (width pre + width gap) = .ok above) :
    (ofParts name (width pre) parts).members stem (pre ++ (parts.text name ++ post)) =
      .ok (entry.toMember above :: others.map fun (above, entry) => entry.toMember above) := by
  obtain ⟨text, hsplit, hseek⟩ := seek_ofParts name pre post parts
  unfold Block.members
  rw [hsplit]
  simp only [hseek, List.head?_reverse, h, Text.width_reverse]
  cases hn : entry.note with
  | none =>
    rw [habove hn]
    rfl
  | some note =>
    rw [toMember_note hn above []]
    rfl

end Block

theorem locate?_eq_some (h : locate? header name = some block) :
    ∃ pre parts post, header.toList = pre ++ (Block.Parts.text name.toList parts ++ post) ∧
      parts.Valid ∧ block = Block.ofParts name.toList (width pre) parts := by
  simpa using Block.find?_eq_some h

theorem locate?_eq_none_iff :
    locate? header name = none ↔ ¬ Block.Defines name.toList header.toList := by
  rw [locate?, Block.find?_eq_none_iff]
  constructor
  · rintro h ⟨before, hdefined⟩
    obtain ⟨blanks, body, after, hbody, htext⟩ := hdefined
    obtain ⟨parts, hparts⟩ := Block.exists_parts_iff.mpr ⟨blanks, body, after, hbody, rfl⟩
    rw [h before _ htext] at hparts
    cases hparts
  · intro h before rest htext
    rw [Option.eq_none_iff_forall_ne_some]
    intro parts hparts
    obtain ⟨blanks, body, after, hbody, rfl⟩ := Block.exists_parts_iff.mp ⟨parts, hparts⟩
    exact h ⟨before, blanks, body, after, hbody, htext⟩

end EnumBinding.Header
