import EnumBinding.Proofs.Generation.SourceLaws

/-!
# Where a definition stands

A place is a way to read a header as one that defines a name. A name has a
block exactly if its header has a place for it, and the block is cut from the
place with the shortest text before it: each of its five offsets is said by
what stands before and behind it there (`locate?_exact`). The name may hold
any characters.
-/

namespace EnumBinding.Header

open Text (Blanks isBlank splitAt? width)

namespace Block

/-- A definition in a text: what stands before it, its free parts, and what stands behind it. The
blanks behind the brace need not be all that there are. -/
structure Place where
  before : List Char
  beforeBrace : Blanks
  afterBrace : Blanks
  body : { cs : List Char // '\x7d' ∉ cs }
  after : List Char

namespace Place

def lead (name : List Char) (place : Place) : List Char :=
  place.before ++ (opening name ++ place.beforeBrace.1)

def inside (place : Place) : List Char :=
  place.afterBrace.1 ++ (place.body.1 ++ (closing ++ place.after))

def text (name : List Char) (place : Place) : List Char := place.lead name ++ '{' :: place.inside

/-- The block that is cut from a place: each offset falls between two characters of the header, and
no part of the block is out of its reach. -/
structure Located (place : Place) (name header : List Char) (block : Block) : Prop where
  text : header = place.text name
  shortest : ∀ other : Place, header = other.text name → width place.before ≤ width other.before
  first : splitAt? block.first header =
    some (place.before, opening name ++ (place.beforeBrace.1 ++ '{' :: place.inside))
  openBrace : splitAt? block.openBrace header = some (place.lead name, '{' :: place.inside)
  /-- The first character behind the opening brace that is not blank. -/
  membersStart : ∃ (blanks : Blanks) (c : Char) (rest : List Char),
    place.inside = blanks.1 ++ c :: rest ∧ isBlank c = false ∧
      splitAt? block.membersStart header = some (place.lead name ++ '{' :: blanks.1, c :: rest)
  /-- The first closing brace behind the opening one. -/
  closeBrace : ∃ between rest, place.inside = between ++ '\x7d' :: rest ∧ '\x7d' ∉ between ∧
    splitAt? block.closeBrace header = some (place.lead name ++ '{' :: between, '\x7d' :: rest)
  last : block.last = block.closeBrace + 3
  last_cut : ∃ before, splitAt? block.last header = some (before, place.after)
  order : block.first < block.openBrace ∧ block.openBrace < block.membersStart ∧
    block.membersStart ≤ block.closeBrace ∧ block.closeBrace < block.last ∧
    block.last ≤ width header
  whole : ∃ text, block.text? header = some text
  braced : ∃ text, block.braced? header = some text ∧ text.count '\x7d' = 1

end Place

variable {name header cs before rest pre post : List Char} {parts : Parts} {offset : Nat}
  {block : Block}

-- ---------------------------------------------------------------------------
-- The first place
-- ---------------------------------------------------------------------------

theorem exists_place_iff : (∃ place : Place, header = place.text name) ↔ Defines name header := by
  constructor
  · rintro ⟨place, rfl⟩
    refine ⟨place.before, place.beforeBrace, place.afterBrace.1 ++ place.body.1, place.after, ?_, ?_⟩
    · rw [List.mem_append, not_or]
      exact ⟨Text.notMem_of_all place.afterBrace.2 rfl, place.body.2⟩
    · simp [Place.text, Place.lead, Place.inside]
  · rintro ⟨before, blanks, body, after, hbody, rfl⟩
    exact ⟨⟨before, blanks, ⟨[], rfl⟩, ⟨body, hbody⟩, after⟩,
      by simp [Place.text, Place.lead, Place.inside]⟩

theorem find?_first_le (h : find? name offset cs = some block) (hcs : cs = before ++ rest)
    (hparts : parts? name rest = some parts) : block.first ≤ offset + width before := by
  induction cs generalizing offset before with
  | nil => cases h
  | cons c cs ih =>
    unfold find? at h
    split at h
    · cases h
      exact Nat.le_add_right offset (width before)
    · next hnone =>
      cases before with
      | nil =>
        rw [List.nil_append] at hcs
        rw [hcs, hparts] at hnone
        cases hnone
      | cons d before =>
        obtain ⟨rfl, hrest⟩ := List.cons.inj hcs
        have := ih h hrest
        rw [Text.width_cons]
        omega

theorem place_shortest (h : find? name 0 header = some block) (place : Place)
    (hplace : header = place.text name) : block.first ≤ width place.before := by
  obtain ⟨parts, hparts⟩ : ∃ parts, parts? name
      (opening name ++ (place.beforeBrace.1 ++ '{' :: place.inside)) = some parts := by
    refine exists_parts_iff.mpr ⟨place.beforeBrace, place.afterBrace.1 ++ place.body.1, place.after,
      ?_, by simp [Place.inside]⟩
    rw [List.mem_append, not_or]
    exact ⟨Text.notMem_of_all place.afterBrace.2 rfl, place.body.2⟩
  have hsplit : header =
      place.before ++ (opening name ++ (place.beforeBrace.1 ++ '{' :: place.inside)) := by
    rw [hplace]
    simp [Place.text, Place.lead]
  simpa using find?_first_le h hsplit hparts

-- ---------------------------------------------------------------------------
-- The offsets of a block
-- ---------------------------------------------------------------------------

def Parts.place (hv : parts.Valid) (pre post : List Char) : Place :=
  ⟨pre, ⟨parts.beforeBrace, hv.beforeBrace⟩, ⟨parts.afterBrace, hv.afterBrace⟩,
    ⟨parts.body, hv.body_open⟩, post⟩

theorem Parts.text_place (hv : parts.Valid) (name pre post : List Char) :
    pre ++ (parts.text name ++ post) = (Parts.place hv pre post).text name := by
  simp [Parts.text, Parts.place, Place.text, Place.lead, Place.inside]

theorem Parts.exists_cons (hv : parts.Valid) (rest : List Char) :
    ∃ c tail, parts.body ++ (closing ++ rest) = c :: tail ∧ isBlank c = false := by
  have hstops := hv.body_stops
  cases hbody : parts.body with
  | nil => exact ⟨'\x7d', _, rfl, rfl⟩
  | cons c body =>
    rw [hbody, Text.stops_cons] at hstops
    exact ⟨c, _, rfl, hstops⟩

theorem braced?_ofParts (hv : parts.Valid) (name pre post : List Char) :
    ∃ text, (ofParts name (width pre) parts).braced? (pre ++ (parts.text name ++ post)) = some text ∧
      text.count '\x7d' = 1 := by
  let lead := pre ++ (opening name ++ parts.beforeBrace)
  let braced := '{' :: (parts.afterBrace ++ (parts.body ++ ['\x7d']))
  have hopen : (ofParts name (width pre) parts).openBrace = width lead := by
    simp [ofParts, lead, Nat.add_assoc]
  have hbrace : ('{').utf8Size = 1 ∧ ('\x7d').utf8Size = 1 := ⟨rfl, rfl⟩
  have hclose : (ofParts name (width pre) parts).closeBrace + 1 = width lead + width braced := by
    simp only [ofParts, lead, braced, Text.width_append, Text.width_cons, Text.width_nil, hbrace]
    omega
  have hheader : pre ++ (parts.text name ++ post) = lead ++ (braced ++ (";\n".toList ++ post)) := by
    simp [Parts.text, lead, braced, closing]
  have hblanks : '\x7d' ∉ parts.afterBrace := Text.notMem_of_all hv.afterBrace rfl
  refine ⟨braced, ?_, ?_⟩
  · rw [braced?, hopen, hclose, hheader]
    exact Text.slice?_append lead braced _
  · simp [braced, List.count_eq_zero_of_not_mem hblanks,
      List.count_eq_zero_of_not_mem hv.body_open]

theorem located_ofParts (hv : parts.Valid) (hheader : header = pre ++ (parts.text name ++ post))
    (hblock : find? name 0 header = some (ofParts name (width pre) parts)) :
    (Parts.place hv pre post).Located name header (ofParts name (width pre) parts) := by
  have hopen : ('{').utf8Size = 1 := rfl
  have hclosing : width closing = 3 := rfl
  have hopening : 0 < width (opening name) := Text.width_pos (by simp [opening_eq_cons])
  have htext := hheader.trans (Parts.text_place hv name pre post)
  refine
    { text := htext
      shortest := fun other hother => place_shortest hblock other hother
      last := by simp [ofParts, hclosing]
      whole := ⟨_, by rw [hheader, text?_ofParts]⟩
      braced := by rw [hheader]; exact braced?_ofParts hv name pre post
      first := ?first
      openBrace := ?openBrace
      membersStart := ?membersStart
      closeBrace := ?closeBrace
      last_cut := ?last_cut
      order := ?order }
  case first =>
    rw [Text.splitAt?_eq_some_iff, htext]
    exact ⟨by simp [Place.text, Place.lead, Parts.place], rfl⟩
  case openBrace =>
    rw [Text.splitAt?_eq_some_iff, htext]
    exact ⟨rfl, by simp [ofParts, Place.lead, Parts.place, Nat.add_assoc]⟩
  case membersStart =>
    obtain ⟨c, tail, htail, hc⟩ := Parts.exists_cons hv post
    refine ⟨⟨parts.afterBrace, hv.afterBrace⟩, c, tail, ?_, hc, ?_⟩
    · rw [← htail]
      rfl
    · rw [Text.splitAt?_eq_some_iff, htext, ← htail]
      refine ⟨by simp [Place.text, Place.inside, Parts.place], ?_⟩
      simp only [ofParts, Place.lead, Parts.place, Text.width_append, Text.width_cons, hopen]
      omega
  case closeBrace =>
    refine ⟨parts.afterBrace ++ parts.body, ";\n".toList ++ post, ?_, ?_, ?_⟩
    · simp [Place.inside, Parts.place, closing]
    · rw [List.mem_append, not_or]
      exact ⟨Text.notMem_of_all hv.afterBrace rfl, hv.body_open⟩
    · rw [Text.splitAt?_eq_some_iff, htext]
      refine ⟨by simp [Place.text, Place.inside, Parts.place, closing], ?_⟩
      simp only [ofParts, Place.lead, Parts.place, Text.width_append, Text.width_cons, hopen]
      omega
  case last_cut =>
    refine ⟨pre ++ parts.text name, ?_⟩
    rw [Text.splitAt?_eq_some_iff, ofParts_last, hheader, Text.width_append]
    exact ⟨by simp [Parts.place], rfl⟩
  case order =>
    have hwidth : (ofParts name (width pre) parts).last ≤ width header := by
      rw [hheader, ofParts_last, Text.width_append, Text.width_append]
      omega
    refine ⟨?_, ?_, ?_, ?_, hwidth⟩ <;> simp only [ofParts, hclosing] <;> omega

end Block

theorem located_of_locate? {header name : String} {block : Block}
    (h : locate? header name = some block) :
    ∃ place : Block.Place, place.Located name.toList header.toList block := by
  obtain ⟨pre, parts, post, hheader, hv, rfl⟩ := locate?_eq_some h
  exact ⟨_, Block.located_ofParts hv hheader h⟩

/-- The search for an enum is exact: it fails if the header has no place for the name, and else it
gives the block of the first place. -/
theorem locate?_exact (header name : String) :
    ((∃ block, locate? header name = some block) ↔
      ∃ place : Block.Place, header.toList = place.text name.toList) ∧
    (∀ memberPrefix,
      Generation.declaration header ⟨name, memberPrefix⟩ = .error (.enumNotFound name) ↔
        ¬ ∃ place : Block.Place, header.toList = place.text name.toList) ∧
    ∀ block, locate? header name = some block →
      ∃ place : Block.Place, place.Located name.toList header.toList block := by
  rw [Block.exists_place_iff]
  refine ⟨?_, fun memberPrefix => ?_, fun block => located_of_locate?⟩
  · rw [← Option.ne_none_iff_exists', Ne, locate?_eq_none_iff, not_not]
  · rw [Generation.declaration_eq_error]
    simp

/-- The name opens twice: in a block whose brace another name follows, and then with blanks of several
bytes around the brace. -/
def typedefHeader : String :=
  "é\nenum tag \x7b x \x7d tag;\nenum tag\u2003\x7b\u00a0y = 1\x7d;\n"

theorem locate?_exact_typedef :
    locate? typedefHeader "tag" = some ⟨22, 45, 34, 42, 37⟩ ∧
      ∃ place : Block.Place,
        place.Located "tag".toList typedefHeader.toList ⟨22, 45, 34, 42, 37⟩ := by
  have hlocate : locate? typedefHeader "tag" = some ⟨22, 45, 34, 42, 37⟩ := rfl
  exact ⟨hlocate, (locate?_exact typedefHeader "tag").2.2 _ hlocate⟩

end EnumBinding.Header
