import EnumBinding.Proofs.Generation.SourceLaws
import EnumBinding.Proofs.Header.LineFree
import EnumBinding.Proofs.Text.OffsetLaws

/-!
# Where a version is defined

A place is a way to read a version header as one that defines a macro. A macro
has a version exactly if its header has a place for it, and the version is the
expression of the place with the shortest text before it, in its normal form
(`version?_exact`). One offset holds no two expressions, whatever characters
the name of the macro is made of.
-/

namespace EnumBinding.Header

open Text (isBlank Stops width)

namespace Version

/-- A definition that begins a line of a text and ends at the end of one. -/
structure Place (name text : List Char) where
  before : List Char
  definition : Definition
  after : List Char
  text_eq : text = before ++ (definition.text name ++ after)
  lineStart : before.getLast?.all (· == '\n') = true
  lineEnd : Stops (· != '\n') after

namespace Place

variable {name text : List Char}

def expression (place : Place name text) : List Char := place.definition.expression.1

def IsFirst (place : Place name text) : Prop :=
  ∀ other : Place name text, width place.before ≤ width other.before

def spaced (above name below : String) (expression : Expression)
    (hstart : above.toList.getLast?.all (· == '\n') = true) (hend : Stops (· != '\n') below.toList) :
    Place name.toList (above ++ "#define " ++ name ++ " (" ++ String.ofList expression.1 ++ ")" ++
      below).toList where
  before := above.toList
  definition := ⟨⟨[' '], by simp, rfl⟩, ⟨[' '], by simp, rfl⟩, expression⟩
  after := below.toList
  text_eq := by simp [Definition.text, keyword_eq]
  lineStart := hstart
  lineEnd := hend

end Place

variable {name text cs rest after expression : List Char} {definition next : Definition}

theorem nonempty_place_iff : Nonempty (Place name text) ↔ Defines name text := by
  constructor
  · rintro ⟨⟨before, definition, after, htext, hstart, hend⟩⟩
    exact ⟨before, definition, after, htext, hstart, hend⟩
  · rintro ⟨before, definition, after, htext, hstart, hend⟩
    exact ⟨⟨before, definition, after, htext, hstart, hend⟩⟩

-- ---------------------------------------------------------------------------
-- One offset, one expression
-- ---------------------------------------------------------------------------

theorem dropWhile_gap (gap : Gap) (cs : List Char) :
    (gap.1 ++ cs).dropWhile isBlank = cs.dropWhile isBlank :=
  List.dropWhile_append_of_pos (List.all_eq_true.mp gap.2.2)

theorem paren_inj {gap other : Gap} (h : gap.1 ++ '(' :: cs = other.1 ++ '(' :: rest) : cs = rest := by
  have hsame := congrArg (List.dropWhile isBlank) h
  rw [dropWhile_gap, dropWhile_gap] at hsame
  exact (List.cons.inj hsame).2

/-- A name of blanks, or one that begins with them, may be read at several places among the blanks
around it; the parenthesis behind them all stays the same. -/
theorem argument_inj {beforeName afterName beforeOther afterOther : Gap}
    (h : beforeName.1 ++ (name ++ (afterName.1 ++ '(' :: cs)) =
      beforeOther.1 ++ (name ++ (afterOther.1 ++ '(' :: rest))) : cs = rest := by
  have hsame := congrArg (List.dropWhile isBlank) h
  rw [dropWhile_gap, dropWhile_gap] at hsame
  by_cases hblank : name.dropWhile isBlank = []
  · have hname : ∀ c ∈ name, isBlank c = true := List.dropWhile_eq_nil_iff.mp hblank
    rw [List.dropWhile_append_of_pos hname, List.dropWhile_append_of_pos hname, dropWhile_gap,
      dropWhile_gap] at hsame
    exact (List.cons.inj hsame).2
  · rw [Text.dropWhile_append_of_ne_nil hblank, Text.dropWhile_append_of_ne_nil hblank,
      List.append_cancel_left_eq] at hsame
    exact paren_inj hsame

theorem Definition.expression_inj (h : definition.text name ++ after = next.text name ++ rest)
    (hafter : Stops (· != '\n') after) (hrest : Stops (· != '\n') rest) :
    definition.expression.1 = next.expression.1 := by
  rw [text_append, text_append, List.append_cancel_left_eq] at h
  have hline := congrArg (List.takeWhile (· != '\n')) (argument_inj h)
  rw [takeWhile_expression definition.expression.2.2 hafter,
    takeWhile_expression next.expression.2.2 hrest] at hline
  exact (List.append_singleton_inj.mp hline).1

theorem definition?_text (definition : Definition) (hafter : Stops (· != '\n') after) :
    definition? name (definition.text name ++ after) = some definition.expression.1 := by
  cases hread : definition? name (definition.text name ++ after) with
  | none => exact absurd ⟨definition, after, rfl, hafter⟩ (definition?_eq_none_iff.mp hread)
  | some expression =>
    obtain ⟨next, rest, hsplit, hrest, rfl⟩ := exists_definition hread
    rw [Definition.expression_inj hsplit hafter hrest]

-- ---------------------------------------------------------------------------
-- The first place
-- ---------------------------------------------------------------------------

theorem exists_first_place (h : find? name true text = some expression) :
    ∃ place : Place name text, place.IsFirst ∧ place.expression = expression := by
  obtain ⟨before, rest, rfl, hstart, hread, hfirst⟩ := exists_first h
  obtain ⟨definition, after, rfl, hafter, hexpression⟩ := exists_definition hread
  refine ⟨⟨before, definition, after, rfl, (Text.elim_getLast?_true before).symm.trans hstart, hafter⟩,
    fun other => ?_, hexpression⟩
  refine hfirst _ _ other.text_eq ((Text.elim_getLast?_true _).trans other.lineStart) ?_
  rw [definition?_text other.definition other.lineEnd]
  exact Option.some_ne_none _

theorem Place.IsFirst.expression_eq {place other : Place name text} (hplace : place.IsFirst)
    (hother : other.IsFirst) : place.expression = other.expression := by
  have hwidth : width place.before = width other.before := Nat.le_antisymm (hplace other) (hother place)
  have hsplit := place.text_eq.symm.trans other.text_eq
  have hrest := (Text.append_inj_of_width hsplit hwidth).2
  exact Definition.expression_inj hrest place.lineEnd other.lineEnd

theorem find?_eq_some_iff : find? name true text = some expression ↔
    ∃ place : Place name text, place.IsFirst ∧ place.expression = expression := by
  refine ⟨exists_first_place, ?_⟩
  rintro ⟨place, hplace, rfl⟩
  cases hfind : find? name true text with
  | none =>
    have hnone := find?_eq_none_iff.mp hfind _ _ place.text_eq
      ((Text.elim_getLast?_true _).trans place.lineStart)
    rw [definition?_text place.definition place.lineEnd] at hnone
    cases hnone
  | some expression =>
    obtain ⟨other, hother, rfl⟩ := exists_first_place hfind
    rw [hplace.expression_eq hother]

end Version

theorem version?_of_isFirst {header name : String} {place : Version.Place name.toList header.toList}
    (h : place.IsFirst) :
    version? header name = some (String.ofList (Version.normalize place.expression)) := by
  rw [version?, Version.find?_eq_some_iff.mpr ⟨place, h, rfl⟩]
  rfl

/-- The search for a version is exact: without a place for the macro it fails, and else it gives the
expression of the first place in its normal form, which fits on a line. -/
theorem version?_exact (header name : String) :
    (version? header name = none ↔ ¬ Nonempty (Version.Place name.toList header.toList)) ∧
    (∀ (source : String) (config : Config),
      Generation.source source header { config with versionMacro := name } =
          .error (.versionNotFound name) ↔
        ¬ Nonempty (Version.Place name.toList header.toList)) ∧
    (∀ version, version? header name = some version ↔
      ∃ place : Version.Place name.toList header.toList, place.IsFirst ∧
        version = String.ofList (Version.normalize place.expression)) ∧
    ∀ version, version? header name = some version → '\n' ∉ version.toList := by
  have hnone : version? header name = none ↔
      ¬ Nonempty (Version.Place name.toList header.toList) := by
    rw [version?_eq_none_iff, Version.nonempty_place_iff]
  refine ⟨hnone, fun source config => ?_, fun version => ?_, fun version => version?_lineFree⟩
  · rw [Generation.source_eq_error, Version.nonempty_place_iff]
    simp [Generation.DeclaresVersion]
  · rw [version?, Option.map_eq_some_iff]
    constructor
    · rintro ⟨expression, hfind, rfl⟩
      obtain ⟨place, hfirst, rfl⟩ := Version.find?_eq_some_iff.mp hfind
      exact ⟨place, hfirst, rfl⟩
    · rintro ⟨place, hfirst, rfl⟩
      exact ⟨place.expression, Version.find?_eq_some_iff.mpr ⟨place, hfirst, rfl⟩, rfl⟩

/-- Two lines miss the shape of a definition, one for want of an expression and one of a parenthesis
at its end; then the name stands on a line of its own. -/
def nearMissHeader : String := "#define V ()\n#define V (1) +\n#define\nV\t((3)|4)\n"

theorem version?_exact_nearMiss :
    version? nearMissHeader "V" = some "(3)|4" ∧
      (∃ place : Version.Place "V".toList nearMissHeader.toList, place.IsFirst ∧
        "(3)|4" = String.ofList (Version.normalize place.expression)) ∧
      '\n' ∉ "(3)|4".toList := by
  have hfind : Version.find? "V".toList true nearMissHeader.toList = some "(3)|4".toList := rfl
  have hcollapse : Version.collapse (Text.trim "(3)|4".toList) = "(3)|4".toList := by
    rw [Version.collapse]
    rfl
  have hnormalize : Version.normalize "(3)|4".toList = "(3)|4".toList := by
    rw [Version.normalize, hcollapse]
    rfl
  have hversion : version? nearMissHeader "V" = some "(3)|4" := by
    rw [version?, hfind, Option.map_some, hnormalize]
    rfl
  obtain ⟨-, -, hplace, hline⟩ := version?_exact nearMissHeader "V"
  exact ⟨hversion, (hplace _).mp hversion, hline _ hversion⟩

end EnumBinding.Header
