import EnumBinding.Header.Member
import EnumBinding.Proofs.Identifier

/-!
# Member lines

The line of one member as a header writes it: a name of the family, an equals
sign, decimal digits, and then perhaps a comma and a note. The spaces and tabs
between these are free. A line that begins where the scan looks for a member
is read as that member (`MemberLine.indented?_text`), up to its own end unless
its note is blank.
-/

namespace EnumBinding.Header

open Text (isBlank isIndent Stops)
open Config (isBlank_of_isIdentifierRest isIdentifierRest_of_isIdentifierStart
  isIndent_of_isIdentifierStart)

theorem isNameChar_of_isIdentifierRest (h : Config.isIdentifierRest c = true) :
    Entry.isNameChar c = true := by
  have hne : c ≠ '=' := Text.ne_of_kind h rfl
  simp [Entry.isNameChar, hne, isBlank_of_isIdentifierRest h]

-- ---------------------------------------------------------------------------
-- Stems
-- ---------------------------------------------------------------------------

def stemOf (memberPrefix : String) : List Char := memberPrefix.toList ++ ['_']

/-- A C identifier that holds an underscore. -/
structure IsStem (stem : List Char) : Prop where
  start : ∃ c cs, stem = c :: cs ∧ Config.isIdentifierStart c = true
  word : stem.all Config.isIdentifierRest = true
  underscore : '_' ∈ stem

theorem isStem_stemOf (h : Config.isIdentifier memberPrefix = true) :
    IsStem (stemOf memberPrefix) := by
  unfold Config.isIdentifier at h
  split at h
  · cases h
  · next c cs hs =>
    rw [Bool.and_eq_true] at h
    refine ⟨⟨c, cs ++ ['_'], by simp [stemOf, hs], h.1⟩, ?_, by simp [stemOf]⟩
    have hc := isIdentifierRest_of_isIdentifierStart h.1
    simp only [stemOf, hs, List.all_append, List.all_cons, List.all_nil, hc, h.2]
    rfl

theorem IsStem.stops (hs : IsStem stem) (h : ∀ c, Config.isIdentifierStart c = true → p c = false)
    (cs : List Char) : Stops p (stem ++ cs) := by
  obtain ⟨c, tail, rfl, hc⟩ := hs.start
  simpa using h c hc

theorem IsStem.indented? (hs : IsStem stem) (cs : List Char) :
    Entry.indented? stem cs = Entry.named? stem (cs.dropWhile isIndent) := by
  apply Text.afterRun?_eq_dropWhile
  intro c cs hc
  obtain ⟨first, tail, rfl, hfirst⟩ := hs.start
  have hne : c ≠ first := Text.ne_of_kind hc (isIndent_of_isIdentifierStart hfirst)
  simp [Entry.named?, Text.after?, hne.symm]

-- ---------------------------------------------------------------------------
-- The line of one member
-- ---------------------------------------------------------------------------

abbrev Indent := { run : List Char // run.all isIndent = true }

def Indent.none : Indent := ⟨[], rfl⟩

def Indent.space : Indent := ⟨[' '], rfl⟩

abbrev Suffix := { cs : List Char // cs ≠ [] ∧ cs.all Config.isIdentifierRest = true }

abbrev Digits := { cs : List Char // cs ≠ [] ∧ cs.all Char.isDigit = true }

abbrev LineText := { cs : List Char // '\n' ∉ cs }

/-- What is free in the line of a member of a family. -/
structure MemberLine where
  indent : Indent
  suffix : Suffix
  beforeEquals : Indent
  afterEquals : Indent
  digits : Digits
  afterDigits : Indent
  comma : Bool
  afterComma : Indent
  /-- What follows the `//` of the line. -/
  note : Option LineText

namespace MemberLine

def name (line : MemberLine) (stem : List Char) : List Char := stem ++ line.suffix.1

def noteText (line : MemberLine) : List Char :=
  match line.note with
  | none => []
  | some note => '/' :: '/' :: note.1

def ending (line : MemberLine) : List Char :=
  line.afterDigits.1 ++ ((if line.comma then [','] else []) ++ (line.afterComma.1 ++ line.noteText))

def unindented (line : MemberLine) (stem : List Char) : List Char :=
  line.name stem ++ (line.beforeEquals.1 ++
    '=' :: (line.afterEquals.1 ++ (line.digits.1 ++ line.ending)))

def text (line : MemberLine) (stem : List Char) : List Char := line.indent.1 ++ line.unindented stem

variable {line : MemberLine} {stem raw rest : List Char}

theorem mem_text (hs : IsStem stem) (hc : c ∈ line.text stem) :
    isIndent c = true ∨ Config.isIdentifierRest c = true ∨ c = '=' ∨ c = ',' ∨ c = '/' ∨
      ∃ note ∈ line.note, c ∈ note.1 := by
  have hindent : ∀ run : Indent, c ∈ run.1 → isIndent c = true :=
    fun run hmem => List.all_eq_true.mp run.2 c hmem
  have hdigit : c ∈ line.digits.1 → Config.isIdentifierRest c = true :=
    fun hmem => Config.isIdentifierRest_of_isDigit (List.all_eq_true.mp line.digits.2.2 c hmem)
  simp only [text, unindented, name, ending, List.mem_append, List.mem_cons] at hc
  rcases hc with hc | (hc | hc) | hc | rfl | hc | hc | hc | hc | hc | hc
  · exact .inl (hindent line.indent hc)
  · exact .inr (.inl (List.all_eq_true.mp hs.word c hc))
  · exact .inr (.inl (List.all_eq_true.mp line.suffix.2.2 c hc))
  · exact .inl (hindent line.beforeEquals hc)
  · exact .inr (.inr (.inl rfl))
  · exact .inl (hindent line.afterEquals hc)
  · exact .inr (.inl (hdigit hc))
  · exact .inl (hindent line.afterDigits hc)
  · cases hcomma : line.comma <;> simp [hcomma] at hc
    exact .inr (.inr (.inr (.inl hc)))
  · exact .inl (hindent line.afterComma hc)
  · unfold noteText at hc
    split at hc
    · cases hc
    · next note hnote =>
      simp only [List.mem_cons] at hc
      rcases hc with rfl | rfl | hc
      · exact .inr (.inr (.inr (.inr (.inl rfl))))
      · exact .inr (.inr (.inr (.inr (.inl rfl))))
      · exact .inr (.inr (.inr (.inr (.inr ⟨note, hnote, hc⟩))))

theorem noteText_stops (hp : p '/' = false) (hend : p '\n' = false) :
    Stops p (line.noteText ++ '\n' :: rest) := by
  unfold noteText
  split <;> simp [hp, hend]

theorem ending_stops (hi : ∀ c, isIndent c = true → p c = false) (hc : p ',' = false)
    (hn : p '/' = false) (he : p '\n' = false) : Stops p (line.ending ++ '\n' :: rest) := by
  have hall : ∀ run : Indent, ∀ c ∈ run.1, p c = false :=
    fun run c hmem => hi c (List.all_eq_true.mp run.2 c hmem)
  simp only [ending, List.append_assoc]
  refine .append (hall line.afterDigits) (.append ?_ (.append (hall line.afterComma) ?_))
  · cases line.comma <;> simp [hc]
  · exact noteText_stops hn he

theorem ending?_ending : Entry.ending? raw (line.ending ++ '\n' :: rest) =
    match line.note with
    | none => some (⟨raw, none, true⟩, rest)
    | some note => (Entry.note? (note.1 ++ '\n' :: rest)).map fun (note, rest) =>
        (⟨raw, some note, false⟩, rest) := by
  have hstop : Stops isIndent (line.noteText ++ '\n' :: rest) :=
    noteText_stops rfl rfl
  have hafter : (line.afterComma.1 ++ (line.noteText ++ '\n' :: rest)).dropWhile isIndent =
      line.noteText ++ '\n' :: rest := Text.dropWhile_run line.afterComma.2 hstop
  have hclose : Entry.close? raw (line.noteText ++ '\n' :: rest) =
      match line.note with
      | none => some (⟨raw, none, true⟩, rest)
      | some note => (Entry.note? (note.1 ++ '\n' :: rest)).map fun (note, rest) =>
          (⟨raw, some note, false⟩, rest) := by
    unfold noteText
    cases line.note <;> rfl
  rw [← hclose, Entry.ending?]
  simp only [ending, List.append_assoc]
  rw [List.dropWhile_append_of_pos (by simpa using line.afterDigits.2)]
  cases line.comma with
  | true =>
    simp only [if_true, List.cons_append, List.nil_append]
    rw [Text.dropWhile_of_stops (Text.stops_cons.mpr rfl), Entry.afterComma, hafter]
  | false =>
    simp only [Bool.false_eq_true, if_false, List.nil_append]
    rw [hafter]
    unfold noteText
    cases line.note <;> rfl

theorem value?_text : Entry.value? raw (line.beforeEquals.1 ++
    '=' :: (line.afterEquals.1 ++ (line.digits.1 ++ (line.ending ++ '\n' :: rest)))) =
      Entry.ending? raw (line.ending ++ '\n' :: rest) := by
  have hdecimal : line.digits.1.all Text.isDecimal = true := by
    rw [List.all_eq_true]
    exact fun c hc => Text.isDecimal_of_isDigit (List.all_eq_true.mp line.digits.2.2 c hc)
  have hdigits : Stops isBlank (line.digits.1 ++ (line.ending ++ '\n' :: rest)) := by
    obtain ⟨c, digits, hd⟩ := List.exists_cons_of_ne_nil line.digits.2.1
    have hc : c.isDigit = true := List.all_eq_true.mp line.digits.2.2 c (by simp [hd])
    simpa [hd] using isBlank_of_isIdentifierRest (Config.isIdentifierRest_of_isDigit hc)
  have hend : Stops Text.isDecimal (line.ending ++ '\n' :: rest) := by
    refine ending_stops ?_ rfl rfl rfl
    intro c hc
    simp only [isIndent, Bool.or_eq_true, beq_iff_eq] at hc
    rcases hc with rfl | rfl <;> rfl
  unfold Entry.value?
  rw [Text.dropWhile_run (Text.all_isBlank_of_isIndent line.beforeEquals.2)
    (Text.stops_cons.mpr rfl)]
  simp only
  rw [Text.dropWhile_run (Text.all_isBlank_of_isIndent line.afterEquals.2) hdigits,
    Text.takeWhile_run hdecimal hend, Text.dropWhile_run hdecimal hend]
  split
  · next hnil => exact absurd hnil line.digits.2.1
  · rfl

theorem named?_unindented : Entry.named? stem (line.unindented stem ++ '\n' :: rest) =
    Entry.ending? (line.name stem) (line.ending ++ '\n' :: rest) := by
  have hsuffix : line.suffix.1.all Entry.isNameChar = true := by
    rw [List.all_eq_true]
    exact fun c hc => isNameChar_of_isIdentifierRest (List.all_eq_true.mp line.suffix.2.2 c hc)
  have hequals : Stops Entry.isNameChar (line.beforeEquals.1 ++
      '=' :: (line.afterEquals.1 ++ (line.digits.1 ++ (line.ending ++ '\n' :: rest)))) := by
    refine .append ?_ (Text.stops_cons.mpr rfl)
    intro c hc
    have hb := Text.isBlank_of_isIndent (List.all_eq_true.mp line.beforeEquals.2 c hc)
    simp [Entry.isNameChar, hb]
  unfold Entry.named?
  simp only [unindented, name, List.append_assoc, List.cons_append, Text.after?_append]
  rw [Text.takeWhile_run hsuffix hequals, Text.dropWhile_run hsuffix hequals]
  split
  · next hnil => exact absurd hnil line.suffix.2.1
  · exact value?_text

theorem indented?_text (hs : IsStem stem) : Entry.indented? stem (line.text stem ++ '\n' :: rest) =
    Entry.ending? (line.name stem) (line.ending ++ '\n' :: rest) := by
  have hstop : Stops isIndent (line.unindented stem ++ '\n' :: rest) := by
    simp only [unindented, name, List.append_assoc]
    exact hs.stops (fun _ => isIndent_of_isIdentifierStart) _
  rw [hs.indented?, text, List.append_assoc, Text.dropWhile_run line.indent.2 hstop]
  exact named?_unindented

end MemberLine

end EnumBinding.Header
