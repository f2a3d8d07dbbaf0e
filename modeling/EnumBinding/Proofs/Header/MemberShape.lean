import EnumBinding.Proofs.Header.ScanLaws

/-!
# The shape of a member

A shape holds all that is free in the text of one member: what begins it, its
blanks, its name, its digits and what ends it. The scan reads a member from a
place exactly if some shape stands there (`read?_eq_none_iff`), and what it
reads is such a shape, with a note that begins as late and ends as late as it
can (`read?_eq_some`). No names are excluded here.
-/

namespace EnumBinding.Header

open Text (Blanks isBlank isDecimal isIndent Stops)

/-- How a member ends: with its line, at a closing brace or in a note. -/
inductive Ending where
  | line
  | brace
  | note (blanks : Blanks) (text : { cs : List Char // cs ≠ [] ∧ '\n' ∉ cs })

namespace Ending

def text : Ending → List Char
  | line => ['\n']
  | brace => ['\x7d']
  | note blanks text => '/' :: '/' :: (blanks.1 ++ text.1)

def note? : Ending → Option (List Char)
  | note _ text => some text.1
  | _ => none

def endsLine : Ending → Bool
  | line => true
  | _ => false

/-- A note begins with the first character behind its `//` that is not blank, unless all of them are,
and it goes on to the end of its line. -/
def Whole (ending : Ending) (rest : List Char) : Prop :=
  match ending with
  | note _ text => Stops (· != '\n') rest ∧ (Stops isBlank text.1 ∨ (text.1 ++ rest).all isBlank = true)
  | _ => True

theorem stops {p : Char → Bool} (hline : p '\n' = false) (hbrace : p '\x7d' = false)
    (hnote : p '/' = false) (ending : Ending) (after : List Char) :
    Stops p (ending.text ++ after) := by
  cases ending <;> simp [text, hline, hbrace, hnote]

end Ending

/-- What is free in a member whose name begins with a given stem. -/
structure Shape where
  /-- Whether an opening brace begins the member, and not the start of a line. -/
  brace : Bool
  indent : Indent
  suffix : { cs : List Char // cs ≠ [] ∧ cs.all Entry.isNameChar = true }
  beforeEquals : Blanks
  afterEquals : Blanks
  digits : { cs : List Char // cs ≠ [] ∧ cs.all isDecimal = true }
  afterDigits : Indent
  comma : Bool
  afterComma : Indent
  ending : Ending

namespace Shape

def lead (shape : Shape) : List Char := (if shape.brace then ['{'] else []) ++ shape.indent.1

def name (stem : List Char) (shape : Shape) : List Char := stem ++ shape.suffix.1

def afterValue (shape : Shape) : List Char :=
  shape.afterDigits.1 ++ ((if shape.comma then [','] else []) ++ shape.afterComma.1)

def value (shape : Shape) : List Char :=
  shape.beforeEquals.1 ++ '=' ::
    (shape.afterEquals.1 ++ (shape.digits.1 ++ (shape.afterValue ++ shape.ending.text)))

def text (stem : List Char) (shape : Shape) : List Char :=
  shape.lead ++ (shape.name stem ++ shape.value)

/-- The text begins a line there, unless a brace begins the member. -/
def Fits (lineStart : Bool) (shape : Shape) : Prop := shape.brace = false → lineStart = true

def entry (stem : List Char) (shape : Shape) : Entry :=
  ⟨shape.name stem, shape.ending.note?, shape.ending.endsLine⟩

theorem value_stops (shape : Shape) (after : List Char) :
    Stops Entry.isNameChar (shape.value ++ after) := by
  simp only [value, List.append_assoc, List.cons_append]
  refine .append ?_ (Text.stops_cons.mpr rfl)
  intro c hc
  have hb := List.all_eq_true.mp shape.beforeEquals.2 c hc
  simp [Entry.isNameChar, hb]

end Shape

namespace Entry

variable {raw stem cs rest note after : List Char} {entry : Entry} {lineStart : Bool} {shape : Shape}
  {ending : Ending}

-- ---------------------------------------------------------------------------
-- Whatever is read has a shape
-- ---------------------------------------------------------------------------

theorem note?_eq_some (h : note? cs = some (note, rest)) :
    ∃ blanks : Blanks, cs = blanks.1 ++ (note ++ rest) ∧ note ≠ [] ∧ '\n' ∉ note ∧
      Stops (· != '\n') rest ∧ (Stops isBlank note ∨ (note ++ rest).all isBlank = true) := by
  obtain ⟨blanks, tail, hcs, hblanks, hnext⟩ := Text.afterRun?_eq_some h
  split at hnext
  · cases hnext
  · next hne =>
    cases hnext
    have hsplit : tail.takeWhile (· != '\n') ++ tail.dropWhile (· != '\n') = tail :=
      List.takeWhile_append_dropWhile
    refine ⟨⟨blanks, hblanks⟩, by rw [hcs, hsplit], hne, ?_, Text.stops_dropWhile _ _, ?_⟩
    · intro hmem
      simpa using List.all_eq_true.mp List.all_takeWhile _ hmem
    · by_cases hvisible : cs.dropWhile isBlank = []
      · right
        rw [hsplit, List.all_eq_true]
        intro c hc
        exact List.dropWhile_eq_nil_iff.mp hvisible c (hcs ▸ List.mem_append_right _ hc)
      · left
        rw [note?_eq hvisible] at h
        obtain ⟨hnote, -⟩ := Prod.mk.inj (Option.some.inj h)
        rw [← hnote]
        intro c hc
        rw [Option.mem_def, List.head?_takeWhile] at hc
        exact Text.stops_dropWhile isBlank cs c (Option.eq_some_of_filter_eq_some hc)

theorem close?_eq_some (h : close? raw cs = some (entry, rest)) :
    ∃ ending : Ending, cs = ending.text ++ rest ∧ ending.Whole rest ∧
      entry = ⟨raw, ending.note?, ending.endsLine⟩ := by
  unfold close? at h
  split at h
  · cases h
    exact ⟨.line, rfl, trivial, rfl⟩
  · cases h
    exact ⟨.brace, rfl, trivial, rfl⟩
  · obtain ⟨⟨note, tail⟩, hnote, heq⟩ := Option.map_eq_some_iff.mp h
    cases heq
    obtain ⟨blanks, rfl, hne, hline, hwhole⟩ := note?_eq_some hnote
    exact ⟨.note blanks ⟨note, hne, hline⟩, by simp [Ending.text], hwhole, rfl⟩
  · cases h

theorem afterComma_eq (cs : List Char) : ∃ (comma : Bool) (indent : Indent),
    cs = (if comma then [','] else []) ++ (indent.1 ++ afterComma cs) := by
  unfold afterComma
  split
  · next rest =>
    refine ⟨true, ⟨rest.takeWhile isIndent, List.all_takeWhile⟩, ?_⟩
    simp
  · exact ⟨false, .none, by simp [Indent.none]⟩

theorem ending?_eq_some (h : ending? raw cs = some (entry, rest)) :
    ∃ (afterDigits : Indent) (comma : Bool) (afterComma : Indent) (ending : Ending),
      cs = afterDigits.1 ++ ((if comma then [','] else []) ++ afterComma.1) ++
        (ending.text ++ rest) ∧ ending.Whole rest ∧
        entry = ⟨raw, ending.note?, ending.endsLine⟩ := by
  obtain ⟨ending, htext, hwhole, hentry⟩ := close?_eq_some h
  obtain ⟨comma, indent, hcomma⟩ := afterComma_eq (cs.dropWhile isIndent)
  refine ⟨⟨cs.takeWhile isIndent, List.all_takeWhile⟩, comma, indent, ending, ?_, hwhole, hentry⟩
  calc cs = cs.takeWhile isIndent ++ cs.dropWhile isIndent :=
        List.takeWhile_append_dropWhile.symm
    _ = cs.takeWhile isIndent ++
          ((if comma then [','] else []) ++ (indent.1 ++ (ending.text ++ rest))) := by
        rw [hcomma, htext]
    _ = _ := by simp

theorem value?_eq_some (h : value? raw cs = some (entry, rest)) :
    ∃ (beforeEquals afterEquals : Blanks)
      (digits : { cs : List Char // cs ≠ [] ∧ cs.all isDecimal = true }) (tail : List Char),
      cs = beforeEquals.1 ++ '=' :: (afterEquals.1 ++ (digits.1 ++ tail)) ∧
        ending? raw tail = some (entry, rest) := by
  unfold value? at h
  split at h
  · next behind hequals =>
    split at h
    · cases h
    · next hne =>
      refine ⟨⟨cs.takeWhile isBlank, List.all_takeWhile⟩, ⟨behind.takeWhile isBlank, List.all_takeWhile⟩,
        ⟨_, hne, List.all_takeWhile⟩, _, ?_, h⟩
      rw [List.takeWhile_append_dropWhile, List.takeWhile_append_dropWhile, ← hequals,
        List.takeWhile_append_dropWhile]
  · cases h

theorem indented?_shape (brace : Bool) (h : indented? stem cs = some (entry, rest)) :
    ∃ shape : Shape, shape.brace = brace ∧
      cs = shape.indent.1 ++ (shape.name stem ++ shape.value) ++ rest ∧
      shape.ending.Whole rest ∧ entry = shape.entry stem := by
  obtain ⟨indent, tail, rfl, hindent, hnamed⟩ := Text.afterRun?_eq_some h
  obtain ⟨suffix, value, hne, rfl, hsuffix, hvalue⟩ := named?_eq_some hnamed
  obtain ⟨beforeEquals, afterEquals, digits, behind, rfl, hending⟩ := value?_eq_some hvalue
  obtain ⟨afterDigits, comma, afterComma, ending, rfl, hwhole, rfl⟩ := ending?_eq_some hending
  refine ⟨⟨brace, ⟨indent, hindent⟩, ⟨suffix, hne, hsuffix⟩, beforeEquals, afterEquals, digits,
    afterDigits, comma, afterComma, ending⟩, rfl, ?_, hwhole, rfl⟩
  simp [Shape.name, Shape.value, Shape.afterValue]

theorem read?_eq_some (h : read? stem lineStart cs = some (entry, rest)) :
    ∃ shape : Shape, shape.Fits lineStart ∧ cs = shape.text stem ++ rest ∧
      shape.ending.Whole rest ∧ entry = shape.entry stem := by
  unfold read? at h
  split at h
  · next found hfound =>
    cases h
    cases lineStart with
    | false => cases hfound
    | true =>
      obtain ⟨shape, hbrace, hcs, hwhole, hentry⟩ := indented?_shape false hfound
      exact ⟨shape, fun _ => rfl, by simp [hcs, Shape.text, Shape.lead, hbrace], hwhole, hentry⟩
  · split at h
    · obtain ⟨shape, hbrace, hcs, hwhole, hentry⟩ := indented?_shape true h
      refine ⟨shape, fun hline => ?_, by simp [hcs, Shape.text, Shape.lead, hbrace], hwhole, hentry⟩
      rw [hbrace] at hline
      cases hline
    · cases h

-- ---------------------------------------------------------------------------
-- Whatever has a shape is read
-- ---------------------------------------------------------------------------

theorem note?_isSome (blanks : Blanks) (hne : note ≠ []) (hline : '\n' ∉ note) (after : List Char) :
    (note? (blanks.1 ++ (note ++ after))).isSome = true := by
  by_contra hnone
  rw [Bool.not_eq_true, Option.isSome_eq_false_iff, Option.isNone_iff_eq_none, note?,
    Text.afterRun?_eq_none_iff] at hnone
  have hread := hnone blanks.1 (note ++ after) rfl blanks.2
  obtain ⟨c, note, rfl⟩ := List.exists_cons_of_ne_nil hne
  have hc : c ≠ '\n' := by
    rintro rfl
    exact hline List.mem_cons_self
  simp [hc] at hread

theorem close?_isSome (raw : List Char) (ending : Ending) (after : List Char) :
    (close? raw (ending.text ++ after)).isSome = true := by
  cases ending with
  | line => rfl
  | brace => rfl
  | note blanks text =>
    simpa [close?, Ending.text] using note?_isSome blanks text.2.1 text.2.2 after

theorem ending?_afterValue (shape : Shape) (after : List Char) :
    ending? raw (shape.afterValue ++ (shape.ending.text ++ after)) =
      close? raw (shape.ending.text ++ after) := by
  have hstops : Stops isIndent (shape.ending.text ++ after) := shape.ending.stops rfl rfl rfl after
  have hafter : (shape.afterComma.1 ++ (shape.ending.text ++ after)).dropWhile isIndent =
      shape.ending.text ++ after := Text.dropWhile_run shape.afterComma.2 hstops
  unfold ending? Shape.afterValue
  simp only [List.append_assoc]
  rw [List.dropWhile_append_of_pos (by simpa using shape.afterDigits.2)]
  cases shape.comma with
  | true =>
    simp only [if_true, List.cons_append, List.nil_append]
    rw [Text.dropWhile_of_stops (Text.stops_cons.mpr rfl), afterComma, hafter]
  | false =>
    simp only [Bool.false_eq_true, if_false, List.nil_append]
    rw [hafter]
    cases shape.ending <;> rfl

theorem value?_shape (shape : Shape) (after : List Char) :
    value? raw (shape.value ++ after) = close? raw (shape.ending.text ++ after) := by
  have hdigits : Stops isBlank
      (shape.digits.1 ++ (shape.afterValue ++ (shape.ending.text ++ after))) := by
    obtain ⟨c, digits, hd⟩ := List.exists_cons_of_ne_nil shape.digits.2.1
    have hc : isDecimal c = true := List.all_eq_true.mp shape.digits.2.2 c (by simp [hd])
    simpa [hd] using Text.isBlank_of_isDecimal hc
  have hend : Stops isDecimal (shape.afterValue ++ (shape.ending.text ++ after)) := by
    have hcomma : isDecimal ',' = false := rfl
    have hindent : ∀ run : Indent, ∀ c ∈ run.1, isDecimal c = false := by
      intro run c hc
      have hblank := Text.isBlank_of_isIndent (List.all_eq_true.mp run.2 c hc)
      rw [Bool.eq_false_iff]
      exact fun hdecimal => Text.ne_of_kind hblank (Text.isBlank_of_isDecimal hdecimal) rfl
    simp only [Shape.afterValue, List.append_assoc]
    refine .append (hindent _) (.append ?_ (.append (hindent _) ?_))
    · cases shape.comma <;> simp [hcomma]
    · exact shape.ending.stops rfl rfl rfl after
  unfold value? Shape.value
  simp only [List.append_assoc, List.cons_append]
  rw [Text.dropWhile_run shape.beforeEquals.2 (Text.stops_cons.mpr rfl)]
  simp only
  rw [Text.dropWhile_run shape.afterEquals.2 hdigits, Text.takeWhile_run shape.digits.2.2 hend,
    Text.dropWhile_run shape.digits.2.2 hend]
  split
  · next hnil => exact absurd hnil shape.digits.2.1
  · exact ending?_afterValue shape after

theorem named?_shape (shape : Shape) (after : List Char) :
    named? stem (shape.name stem ++ (shape.value ++ after)) =
      close? (shape.name stem) (shape.ending.text ++ after) := by
  have hequals := shape.value_stops after
  unfold named?
  simp only [Shape.name, List.append_assoc, Text.after?_append]
  rw [Text.takeWhile_run shape.suffix.2.2 hequals, Text.dropWhile_run shape.suffix.2.2 hequals]
  split
  · next hnil => exact absurd hnil shape.suffix.2.1
  · exact value?_shape shape after

theorem indented?_isSome (stem : List Char) (shape : Shape) (after : List Char) :
    (indented? stem (shape.indent.1 ++ (shape.name stem ++ (shape.value ++ after)))).isSome =
      true := by
  by_contra hnone
  rw [Bool.not_eq_true, Option.isSome_eq_false_iff, Option.isNone_iff_eq_none, indented?,
    Text.afterRun?_eq_none_iff] at hnone
  have hread := hnone shape.indent.1 _ rfl shape.indent.2
  have hclose := close?_isSome (shape.name stem) shape.ending after
  rw [named?_shape] at hread
  rw [hread] at hclose
  cases hclose

theorem read?_isSome (stem : List Char) (hfits : shape.Fits lineStart) (after : List Char) :
    (read? stem lineStart (shape.text stem ++ after)).isSome = true := by
  have hread := indented?_isSome stem shape after
  unfold read? Shape.text Shape.lead
  cases hbrace : shape.brace with
  | false =>
    obtain ⟨found, hfound⟩ := Option.isSome_iff_exists.mp hread
    simp [hfits hbrace, hfound]
  | true =>
    split
    · rfl
    · simpa using hread

/-- Nothing is read at a place exactly if no member fits there. -/
theorem read?_eq_none_iff : read? stem lineStart cs = none ↔
    ¬ ∃ (shape : Shape) (after : List Char), shape.Fits lineStart ∧ cs = shape.text stem ++ after := by
  constructor
  · rintro hnone ⟨shape, after, hfits, rfl⟩
    have hsome := read?_isSome stem hfits after
    rw [hnone] at hsome
    cases hsome
  · intro h
    rw [Option.eq_none_iff_forall_ne_some]
    rintro ⟨entry, rest⟩ hread
    obtain ⟨shape, hfits, hcs, -⟩ := read?_eq_some hread
    exact h ⟨shape, rest, hfits, hcs⟩

end Entry
end EnumBinding.Header
