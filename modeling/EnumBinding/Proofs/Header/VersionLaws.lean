import EnumBinding.Header.Version
import EnumBinding.Proofs.Text.LineLaws
import Mathlib.Data.List.Basic

/-!
# Which headers define a version

`Definition.text` prints the definition of a macro, and the search finds one
exactly if some line of the header begins with a definition that fills the
rest of its last line (`version?_eq_none_iff`). The name may hold any
characters, blanks and parentheses too.
-/

namespace EnumBinding.Header

open Text (isBlank Stops width)

namespace Version

abbrev Gap := { run : List Char // run ≠ [] ∧ run.all isBlank = true }

abbrev Expression := { cs : List Char // cs ≠ [] ∧ '\n' ∉ cs }

/-- What is free in the definition of a macro. -/
structure Definition where
  beforeName : Gap
  afterName : Gap
  expression : Expression

def keyword : List Char := "#define".toList

theorem keyword_eq : keyword = ['#', 'd', 'e', 'f', 'i', 'n', 'e'] := rfl

def Definition.text (name : List Char) (definition : Definition) : List Char :=
  keyword ++ (definition.beforeName.1 ++ (name ++ (definition.afterName.1 ++
    '(' :: (definition.expression.1 ++ [')']))))

theorem Definition.text_append (name : List Char) (definition : Definition) (after : List Char) :
    definition.text name ++ after = keyword ++ (definition.beforeName.1 ++ (name ++
      (definition.afterName.1 ++ '(' :: (definition.expression.1 ++ ')' :: after)))) := by
  simp [text]

variable {name cs line tail expression : List Char} {lineStart : Bool}

-- ---------------------------------------------------------------------------
-- One definition
-- ---------------------------------------------------------------------------

theorem enclosed?_eq_some_iff :
    enclosed? line = some expression ↔ line = expression ++ [')'] ∧ expression ≠ [] := by
  unfold enclosed?
  constructor
  · intro h
    split at h
    · next hline =>
      cases h
      obtain ⟨hlast, hlength⟩ := hline
      refine ⟨(List.dropLast_append_getLast? ')' (Option.mem_def.mpr hlast)).symm, ?_⟩
      rw [← List.length_pos_iff, List.length_dropLast]
      omega
    · cases h
  · rintro ⟨rfl, hne⟩
    have hlength := List.length_pos_iff.mpr hne
    rw [if_pos ⟨by simp, by simp; omega⟩, List.dropLast_concat]

theorem takeWhile_expression (hend : '\n' ∉ expression) (hafter : Stops (· != '\n') tail) :
    (expression ++ ')' :: tail).takeWhile (· != '\n') = expression ++ [')'] := by
  have hline : (expression ++ [')']).all (· != '\n') = true := by
    rw [List.all_eq_true]
    intro d hd
    have hne : d ≠ '\n' := by
      rintro rfl
      simp [hend] at hd
    simpa using hne
  simpa using Text.takeWhile_run hline hafter

theorem argument?_eq_some_iff : argument? cs = some expression ↔
    ∃ gap : Gap, ∃ after, cs = gap.1 ++ '(' :: (expression ++ ')' :: after) ∧
      expression ≠ [] ∧ '\n' ∉ expression ∧ Stops (· != '\n') after := by
  constructor
  · intro h
    unfold argument? at h
    split at h
    · cases h
    · next c cs =>
      split at h
      · next hblank =>
        split at h
        · next rest hrest =>
          obtain ⟨hline, hne⟩ := enclosed?_eq_some_iff.mp h
          refine ⟨⟨c :: cs.takeWhile isBlank, by simp, by simp [hblank]⟩,
            rest.dropWhile (· != '\n'), ?_, hne, ?_, Text.stops_dropWhile _ _⟩
          · calc c :: cs = c :: (cs.takeWhile isBlank ++ cs.dropWhile isBlank) := by
                  rw [List.takeWhile_append_dropWhile]
              _ = c :: (cs.takeWhile isBlank ++
                    '(' :: (rest.takeWhile (· != '\n') ++ rest.dropWhile (· != '\n'))) := by
                  rw [hrest, List.takeWhile_append_dropWhile]
              _ = _ := by simp [hline]
          · intro hmem
            have hinside : '\n' ∈ rest.takeWhile (· != '\n') := by simp [hline, hmem]
            simpa using List.all_eq_true.mp List.all_takeWhile _ hinside
        · cases h
      · cases h
  · rintro ⟨⟨gap, hgap, hblank⟩, after, rfl, hne, hend, hafter⟩
    obtain ⟨c, run, rfl⟩ := List.exists_cons_of_ne_nil hgap
    rw [List.all_cons, Bool.and_eq_true] at hblank
    rw [List.cons_append, argument?, if_pos hblank.1,
      Text.dropWhile_run hblank.2 (Text.stops_cons.mpr rfl)]
    simp only
    rw [takeWhile_expression hend hafter, enclosed?_eq_some_iff]
    exact ⟨rfl, hne⟩

theorem exists_definition (h : definition? name cs = some expression) :
    ∃ (definition : Definition) (after : List Char), cs = definition.text name ++ after ∧
      Stops (· != '\n') after ∧ definition.expression.1 = expression := by
  unfold definition? at h
  split at h
  · next c rest hrest =>
    have hkeyword : cs = keyword ++ c :: rest := Text.after?_eq_some_iff.mp hrest
    split at h
    · next hc =>
      obtain ⟨run, tail, rfl, hrun, hnext⟩ := Text.afterRun?_eq_some h
      obtain ⟨argument, hname, hargument⟩ := Option.bind_eq_some_iff.mp hnext
      rw [Text.after?_eq_some_iff] at hname
      obtain ⟨gap, after, rfl, hne, hend, hafter⟩ := argument?_eq_some_iff.mp hargument
      refine ⟨⟨⟨c :: run, by simp, by simpa [hc] using hrun⟩, gap, ⟨expression, hne, hend⟩⟩,
        after, ?_, hafter, rfl⟩
      rw [hkeyword, hname, Definition.text_append, List.cons_append]
    · cases h
  · cases h

/-- A definition is read from where one stands, however its name and its blanks are told apart. -/
theorem definition?_eq_none_iff : definition? name cs = none ↔
    ¬ ∃ (definition : Definition) (after : List Char),
      cs = definition.text name ++ after ∧ Stops (· != '\n') after := by
  constructor
  · rintro hnone ⟨definition, after, rfl, hafter⟩
    obtain ⟨⟨before, hbefore, hblank⟩, gap, ⟨expression, hne, hend⟩⟩ := definition
    obtain ⟨c, run, rfl⟩ := List.exists_cons_of_ne_nil hbefore
    have hparts := hblank
    rw [List.all_cons, Bool.and_eq_true] at hparts
    have hargument : argument? (gap.1 ++ '(' :: (expression ++ ')' :: after)) = some expression :=
      argument?_eq_some_iff.mpr ⟨gap, after, rfl, hne, hend, hafter⟩
    have hkeyword : Text.after? "#define".toList (keyword ++ (c :: run ++ (name ++ (gap.1 ++
        '(' :: (expression ++ ')' :: after))))) = some (c :: (run ++ (name ++ (gap.1 ++
          '(' :: (expression ++ ')' :: after))))) := Text.after?_append keyword _
    rw [Definition.text_append, definition?, hkeyword] at hnone
    simp only [hparts.1, if_true] at hnone
    have hread := Text.afterRun?_eq_none_iff.mp hnone run _ rfl hparts.2
    simp [hargument] at hread
  · intro h
    rw [Option.eq_none_iff_forall_ne_some]
    intro expression hsome
    obtain ⟨definition, after, hsplit, hafter, -⟩ := exists_definition hsome
    exact h ⟨definition, after, hsplit, hafter⟩

-- ---------------------------------------------------------------------------
-- The search
-- ---------------------------------------------------------------------------

/-- Some line of the text begins with a definition of `name`, and nothing follows on its last line. -/
def Defines (name text : List Char) : Prop :=
  ∃ (before : List Char) (definition : Definition) (after : List Char),
    text = before ++ (definition.text name ++ after) ∧
      before.getLast?.all (· == '\n') = true ∧ Stops (· != '\n') after

theorem find?_eq_none_iff : find? name lineStart cs = none ↔ ∀ before rest, cs = before ++ rest →
    before.getLast?.elim lineStart (· == '\n') = true → definition? name rest = none := by
  induction cs generalizing lineStart with
  | nil =>
    refine iff_of_true rfl fun before rest hsplit _ => ?_
    obtain ⟨-, rfl⟩ := List.append_eq_nil_iff.mp hsplit.symm
    rfl
  | cons c cs ih =>
    have hhere : (if lineStart then definition? name (c :: cs) else none) = none ↔
        (lineStart = true → definition? name (c :: cs) = none) := by
      cases lineStart <;> simp
    have hsearch : find? name lineStart (c :: cs) = none ↔
        (lineStart = true → definition? name (c :: cs) = none) ∧ find? name (c == '\n') cs = none := by
      rw [← hhere, find?]
      cases (if lineStart then definition? name (c :: cs) else none) <;> simp
    rw [hsearch, ih]
    constructor
    · rintro ⟨hfirst, hothers⟩ before rest hsplit hstart
      cases before with
      | nil =>
        rw [List.nil_append] at hsplit
        exact hsplit ▸ hfirst hstart
      | cons d before =>
        obtain ⟨rfl, hrest⟩ := List.cons.inj hsplit
        exact hothers before rest hrest ((Text.elim_getLast?_cons _ c before).symm.trans hstart)
    · intro h
      refine ⟨fun hstart => h [] _ rfl hstart, fun before rest hsplit hstart => ?_⟩
      exact h (c :: before) rest (by rw [hsplit]; rfl)
        ((Text.elim_getLast?_cons _ c before).trans hstart)

theorem exists_first (h : find? name lineStart cs = some expression) :
    ∃ before rest, cs = before ++ rest ∧ before.getLast?.elim lineStart (· == '\n') = true ∧
      definition? name rest = some expression ∧
      ∀ first second, cs = first ++ second → first.getLast?.elim lineStart (· == '\n') = true →
        definition? name second ≠ none → width before ≤ width first := by
  induction cs generalizing lineStart with
  | nil => cases h
  | cons c cs ih =>
    unfold find? at h
    split at h
    · next found hfound =>
      cases h
      have hline : lineStart = true ∧ definition? name (c :: cs) = some expression := by
        cases lineStart with
        | false => cases hfound
        | true => exact ⟨rfl, hfound⟩
      exact ⟨[], c :: cs, rfl, hline.1, hline.2, fun _ _ _ _ _ => Nat.zero_le _⟩
    · next hnone =>
      obtain ⟨before, rest, rfl, hbefore, hread, hfirst⟩ := ih h
      refine ⟨c :: before, rest, rfl, (Text.elim_getLast?_cons lineStart c before).trans hbefore,
        hread, ?_⟩
      intro first second hsplit hline hsome
      cases first with
      | nil =>
        have hstarts : lineStart = true := hline
        rw [List.nil_append] at hsplit
        rw [hstarts, if_pos rfl, hsplit] at hnone
        exact absurd hnone hsome
      | cons d first =>
        obtain ⟨rfl, htail⟩ := List.cons.inj hsplit
        have := hfirst first second htail
          ((Text.elim_getLast?_cons lineStart c first).symm.trans hline) hsome
        rw [Text.width_cons, Text.width_cons]
        omega

end Version

theorem version?_eq_none_iff {header name : String} :
    version? header name = none ↔ ¬ Version.Defines name.toList header.toList := by
  rw [version?, Option.map_eq_none_iff, Version.find?_eq_none_iff]
  constructor
  · rintro h ⟨before, definition, after, htext, hbefore, hafter⟩
    have hnone := h before _ htext ((Text.elim_getLast?_true before).trans hbefore)
    exact Version.definition?_eq_none_iff.mp hnone ⟨definition, after, rfl, hafter⟩
  · intro h before rest htext hbefore
    refine Version.definition?_eq_none_iff.mpr ?_
    rintro ⟨definition, after, rfl, hafter⟩
    exact h ⟨before, definition, after, htext, (Text.elim_getLast?_true before).symm.trans hbefore,
      hafter⟩

end EnumBinding.Header
