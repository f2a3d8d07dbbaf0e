import EnumBinding.Declaration
import EnumBinding.Preamble
import EnumBinding.Proofs.Name.GoName

/-!
# Reading a generated file

A reader that sees the lines of a generated file and nothing else. It tells
lines apart by how they begin, and gathers constants and their comments from
the last line up to the type they belong to. What a declaration writes is read
as that declaration (`readBelow_declaration`).
-/

namespace EnumBinding.Generation

open Name (IsWord)
open Text (Stops)

-- ---------------------------------------------------------------------------
-- The reader
-- ---------------------------------------------------------------------------

inductive Line where
  | type (typeName enumName : List Char)
  | comment (text : List Char)
  | constant (name rawName : List Char)
  | other
deriving DecidableEq, Repr

namespace Line

def ofIndented : List Char → Line
  | '/' :: '/' :: ' ' :: text => .comment text
  -- A Go name may be empty, so the spaces behind it say nothing about where the type's name begins.
  | cs => .constant (cs.takeWhile (· != ' ')) ((cs.dropWhile (· != '.')).drop 1)

def ofChars : List Char → Line
  | '\t' :: rest => ofIndented rest
  | cs =>
    match Text.after? "type ".toList cs with
    | some rest =>
      .type (rest.takeWhile (· != ' ')) ((rest.dropWhile (· != ' ')).drop " C.enum_".length)
    | none => .other

def isConstant : Line → Bool
  | .constant _ _ => true
  | _ => false

def above : Line → List Constant × List Declaration → List Constant × List Declaration
  | .type typeName enumName, (constants, declarations) =>
    ([], ⟨String.ofList enumName, String.ofList typeName, constants⟩ :: declarations)
  | .comment text, (first :: constants, declarations) =>
    ({ first with comment := String.ofList text :: first.comment } :: constants, declarations)
  | .constant name rawName, (constants, declarations) =>
    (⟨String.ofList name, String.ofList rawName, []⟩ :: constants, declarations)
  | _, found => found

end Line

def readBelow (lines : List Line) (found : List Constant × List Declaration) :
    List Constant × List Declaration :=
  lines.foldr Line.above found

def isVersionLine (line : List Char) : Bool :=
  (Text.after? "const build_version = ".toList line).isSome

/-- The version and the declarations of a generated file. -/
def read? (text : String) : Option (String × List Declaration) :=
  match (text.toList.splitOn '\n').dropWhile (!isVersionLine ·) with
  | [] => none
  | line :: lines =>
    (Text.after? "const build_version = ".toList line).map fun version =>
      (String.ofList version, (readBelow (lines.map Line.ofChars) ([], [])).2)

def constantLines (text : String) : Nat :=
  (text.toList.splitOn '\n').countP fun line => (Line.ofChars line).isConstant

-- ---------------------------------------------------------------------------
-- Lines of a declaration
-- ---------------------------------------------------------------------------

variable {constant : Constant} {typeName enumName : String} {width : Nat}

theorem notMem_of_isWord {c : Char} {cs : List Char} (h : IsWord cs)
    (hc : Config.isIdentifierRest c = false) : c ∉ cs :=
  Text.notMem_of_all (List.all_eq_true.mpr h) hc

theorem all_ne_of_isWord {c : Char} {cs : List Char} (h : IsWord cs)
    (hc : Config.isIdentifierRest c = false) : cs.all (· != c) = true := by
  rw [List.all_eq_true]
  intro d hd
  have hne : d ≠ c := Text.ne_of_kind (h d hd) hc
  simpa using hne

theorem ofChars_type (h : IsWord typeName.toList) :
    Line.ofChars ("type " ++ typeName ++ " C.enum_" ++ enumName).toList =
      .type typeName.toList enumName.toList := by
  have hrun : typeName.toList.all (· != ' ') = true := all_ne_of_isWord h rfl
  have hspace : Stops (· != ' ') (" C.enum_".toList ++ enumName.toList) := by simp
  have hline : ("type " ++ typeName ++ " C.enum_" ++ enumName).toList =
      "type ".toList ++ (typeName.toList ++ (" C.enum_".toList ++ enumName.toList)) := by simp
  rw [hline, Line.ofChars, Text.after?_append]
  · simp only
    rw [Text.takeWhile_run hrun hspace, Text.dropWhile_run hrun hspace]
    rfl
  · rintro rest ⟨⟩

theorem ofChars_comment (text : String) :
    Line.ofChars ("\t// " ++ text).toList = .comment text.toList := by
  simp [Line.ofChars, Line.ofIndented]

theorem ofIndented_of_stops {cs : List Char} (h : Stops (· == '/') cs) :
    Line.ofIndented cs =
      .constant (cs.takeWhile (· != ' ')) ((cs.dropWhile (· != '.')).drop 1) := by
  unfold Line.ofIndented
  split
  · simp at h
  · rfl

/-- A Go name holds no slash, so the line of a constant is never taken for a comment. -/
theorem ofChars_constant (hname : IsWord constant.name.toList) (htype : IsWord typeName.toList) :
    Line.ofChars (constant.line width typeName).toList =
      .constant constant.name.toList constant.rawName.toList := by
  let name := constant.name.toList
  let spaces := List.replicate (width - constant.name.length) ' '
  let column := spaces ++ ' ' :: (typeName.toList ++ " = C".toList)
  have hline : (constant.line width typeName).toList =
      '\t' :: (name ++ (column ++ '.' :: constant.rawName.toList)) := by
    simp [Constant.line, Text.padTo, name, column, spaces]
  have hspaces : Stops (· != ' ') (column ++ '.' :: constant.rawName.toList) := by
    simp only [column, spaces]
    cases width - constant.name.length <;> simp [List.replicate_succ]
  have hslash : Stops (· == '/') (name ++ (column ++ '.' :: constant.rawName.toList)) := by
    refine .append ?_ ?_
    · intro c hc
      have hne : c ≠ '/' := Text.ne_of_kind (hname c hc) rfl
      simpa using hne
    · simp only [column, spaces]
      cases width - constant.name.length <;> simp [List.replicate_succ]
  have hdot : (name ++ column).all (· != '.') = true := by
    simp only [List.all_append, Bool.and_eq_true, column, List.all_cons]
    refine ⟨all_ne_of_isWord hname rfl, ?_, rfl, all_ne_of_isWord htype rfl, rfl⟩
    simp [spaces]
  have htake := Text.takeWhile_run (all_ne_of_isWord hname rfl) hspaces
  have hdrop : (name ++ (column ++ '.' :: constant.rawName.toList)).dropWhile (· != '.') =
      '.' :: constant.rawName.toList := by
    rw [← List.append_assoc]
    exact Text.dropWhile_run hdot (by simp)
  rw [hline, Line.ofChars, ofIndented_of_stops hslash, htake, hdrop]
  rfl

-- ---------------------------------------------------------------------------
-- Declarations
-- ---------------------------------------------------------------------------

/-- A declaration whose texts each fit their place on a line. -/
structure IsPlain (declaration : Declaration) : Prop where
  enumName : Config.isIdentifier declaration.enumName = true
  typeName : IsWord declaration.typeName.toList
  name : ∀ constant ∈ declaration.constants, IsWord constant.name.toList
  rawName : ∀ constant ∈ declaration.constants, IsWord constant.rawName.toList
  comment : ∀ constant ∈ declaration.constants, ∀ text ∈ constant.comment, '\n' ∉ text.toList

namespace Line

def ofConstant (constant : Constant) : List Line :=
  constant.comment.map (fun text => .comment text.toList) ++
    [.constant constant.name.toList constant.rawName.toList]

def ofDeclaration (declaration : Declaration) : List Line :=
  .type declaration.typeName.toList declaration.enumName.toList :: .other ::
    if declaration.constants.isEmpty then
      []
    else
      .other :: declaration.constants.flatMap ofConstant ++ [.other, .other]

end Line

variable {declaration : Declaration} {declarations : List Declaration}

theorem ofChars_constants {constants : List Constant} (htype : IsWord typeName.toList)
    (h : ∀ constant ∈ constants, IsWord constant.name.toList) :
    (constants.flatMap fun constant =>
        commentLines constant.comment ++ [constant.line width typeName]).map
        (fun line => Line.ofChars line.toList) =
      constants.flatMap Line.ofConstant := by
  induction constants with
  | nil => rfl
  | cons constant constants ih =>
    obtain ⟨hname, hnames⟩ := List.forall_mem_cons.mp h
    have hcomment : (commentLines constant.comment).map (fun line => Line.ofChars line.toList) =
        constant.comment.map fun text => .comment text.toList := by
      rw [commentLines, List.map_map]
      exact List.map_congr_left fun text _ => ofChars_comment text
    rw [List.flatMap_cons, List.map_append, List.map_append, ih hnames, hcomment, List.flatMap_cons,
      Line.ofConstant, List.map_singleton, ofChars_constant hname htype]

theorem ofChars_lines (h : IsPlain declaration) :
    declaration.lines.map (fun line => Line.ofChars line.toList) =
      Line.ofDeclaration declaration := by
  unfold Declaration.lines Declaration.constantLines Line.ofDeclaration
  rw [List.map_cons, List.map_cons, ofChars_type h.typeName]
  split
  · rfl
  · rw [List.map_append, List.map_cons, ofChars_constants h.typeName h.name]
    rfl

@[simp] theorem readBelow_cons (line : Line) (lines : List Line)
    (found : List Constant × List Declaration) :
    readBelow (line :: lines) found = line.above (readBelow lines found) := rfl

@[simp] theorem readBelow_append (first second : List Line)
    (found : List Constant × List Declaration) :
    readBelow (first ++ second) found = readBelow first (readBelow second found) :=
  List.foldr_append

theorem readBelow_constant (constant : Constant) (constants : List Constant)
    (below : List Declaration) :
    readBelow (Line.ofConstant constant) (constants, below) = (constant :: constants, below) := by
  obtain ⟨name, rawName, comment⟩ := constant
  induction comment with
  | nil => simp [Line.ofConstant, readBelow, Line.above]
  | cons text comment ih =>
    simp only [Line.ofConstant, List.map_cons, List.cons_append] at ih ⊢
    rw [readBelow_cons, ih]
    simp [Line.above]

theorem readBelow_constants (constants : List Constant) (below : List Declaration) :
    readBelow (constants.flatMap Line.ofConstant) ([], below) = (constants, below) := by
  induction constants with
  | nil => rfl
  | cons constant constants ih =>
    rw [List.flatMap_cons, readBelow_append, ih]
    exact readBelow_constant constant constants below

theorem readBelow_declaration (declaration : Declaration) (below : List Declaration) :
    readBelow (Line.ofDeclaration declaration) ([], below) = ([], declaration :: below) := by
  obtain ⟨enumName, typeName, constants⟩ := declaration
  have hconstants : readBelow (if constants.isEmpty then [] else
      .other :: constants.flatMap Line.ofConstant ++ [.other, .other]) ([], below) =
        (constants, below) := by
    cases constants with
    | nil => rfl
    | cons constant constants =>
      simp only [List.isEmpty_cons, Bool.false_eq_true, if_false]
      rw [List.cons_append, readBelow_cons, readBelow_append]
      exact readBelow_constants (constant :: constants) below
  simp only [Line.ofDeclaration]
  rw [readBelow_cons, readBelow_cons, hconstants]
  simp [Line.above]

theorem readBelow_declarations (declarations : List Declaration) :
    readBelow (declarations.flatMap Line.ofDeclaration) ([], []) = ([], declarations) := by
  induction declarations with
  | nil => rfl
  | cons declaration declarations ih =>
    rw [List.flatMap_cons, readBelow_append, ih]
    exact readBelow_declaration declaration declarations

theorem countP_ofConstant (constant : Constant) :
    (Line.ofConstant constant).countP Line.isConstant = 1 := by
  have hcomment :
      (constant.comment.map fun text => Line.comment text.toList).countP Line.isConstant = 0 := by
    simp [List.countP_eq_zero, Line.isConstant]
  rw [Line.ofConstant, List.countP_append, hcomment]
  rfl

theorem countP_ofDeclaration (declaration : Declaration) :
    (Line.ofDeclaration declaration).countP Line.isConstant = declaration.constants.length := by
  have hconstants : (declaration.constants.flatMap Line.ofConstant).countP Line.isConstant =
      declaration.constants.length := by
    induction declaration.constants with
    | nil => rfl
    | cons constant constants ih =>
      rw [List.flatMap_cons, List.countP_append, countP_ofConstant, ih, List.length_cons,
        Nat.add_comm]
  unfold Line.ofDeclaration
  split
  · next hempty =>
    rw [List.isEmpty_iff.mp hempty]
    rfl
  · simp [hconstants, Line.isConstant]

end EnumBinding.Generation
