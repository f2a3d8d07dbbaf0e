import EnumBinding.Proofs.Declaration.LineLaws
import Mathlib.Data.List.Forall2

/-!
# The column of a block of constants

The line of a constant has two parts: a tab, the Go name and spaces up to a
column, and from there on what the constant stands for. All lines of a block
share one column, and it is the least that leaves room for every name, counted
in the characters of the Go names (`source_aligned`).
-/

namespace EnumBinding.Declaration

variable {enumName typeName : String} {column width : Nat} {member : Header.Member}
  {constant : Constant} {declaration : Declaration} {ms : List Header.Member}

/-- A constant's line whose second part begins at `column`. Before it stand a tab, the Go name and
nothing but spaces. -/
structure Aligned (typeName : String) (column : Nat) (rawName : String) (line : List Char) :
    Prop where
  head : ∃ padding, line.take column =
    '\t' :: ((Name.ofConstant rawName).toList ++ List.replicate padding ' ')
  text : line.drop column = (" " ++ typeName ++ " = C." ++ rawName).toList

/-- The lines of one member: those of its comment, and then that of its constant. -/
def IsGroup (typeName : String) (column : Nat) (member : Header.Member)
    (lines : List (List Char)) : Prop :=
  ∃ line, lines = member.comment.map (fun text => "\t// ".toList ++ text.toList) ++ [line] ∧
    Aligned typeName column member.rawName line

/-- The lines of a declaration's text whose constants are aligned at `column`. Between the brackets
of the block stand the groups of the members, and no column further left leaves room for all. -/
structure Layout (enumName : String) (ms : List Header.Member) (lines : List (List Char))
    (column : Nat) (groups : List (List (List Char))) : Prop where
  lines_eq : lines = ("type " ++ Name.ofType enumName ++ " C.enum_" ++ enumName).toList :: [] ::
    "const (".toList :: (groups.flatten ++ [")".toList, [], []])
  open_notMem : "const (".toList ∉ groups.flatten
  close_notMem : ")".toList ∉ groups.flatten
  groups : List.Forall₂ (IsGroup (Name.ofType enumName) column) ms groups
  unpadded : ∃ member ∈ ms, column = (Name.ofConstant member.rawName).length + 1
  least : ∀ other, (∀ member ∈ ms, ∃ line,
    Aligned (Name.ofType enumName) other member.rawName line) → column ≤ other

def groupOf (declaration : Declaration) (constant : Constant) : List (List Char) :=
  (commentLines constant.comment ++
    [constant.line declaration.nameWidth declaration.typeName]).map String.toList

-- ---------------------------------------------------------------------------
-- The width of the names
-- ---------------------------------------------------------------------------

theorem max?_nameWidth (declaration : Declaration) :
    (0 :: declaration.constants.map fun constant => constant.name.length).max? =
      some declaration.nameWidth := by
  rw [List.max?_cons', List.foldl_map]
  rfl

theorem length_le_nameWidth (h : constant ∈ declaration.constants) :
    constant.name.length ≤ declaration.nameWidth :=
  (List.max?_eq_some_iff.mp declaration.max?_nameWidth).2 _
    (List.mem_cons_of_mem 0 (List.mem_map_of_mem h))

theorem exists_length_eq_nameWidth (h : declaration.constants ≠ []) :
    ∃ constant ∈ declaration.constants, constant.name.length = declaration.nameWidth := by
  rcases List.mem_cons.mp (List.max?_eq_some_iff.mp declaration.max?_nameWidth).1 with hzero | hmem
  · -- No name has any character, so each is as wide as the column.
    obtain ⟨constant, hconstant⟩ := List.exists_mem_of_ne_nil _ h
    have hle := length_le_nameWidth hconstant
    exact ⟨constant, hconstant, by omega⟩
  · obtain ⟨constant, hconstant, hlength⟩ := List.mem_map.mp hmem
    exact ⟨constant, hconstant, hlength⟩

-- ---------------------------------------------------------------------------
-- The lines of one constant
-- ---------------------------------------------------------------------------

theorem toList_line (width : Nat) (typeName : String) (constant : Constant) :
    (constant.line width typeName).toList =
      '\t' :: (constant.name.toList ++ List.replicate (width - constant.name.length) ' ') ++
        (" " ++ typeName ++ " = C." ++ constant.rawName).toList := by
  simp [Constant.line, Text.padTo]

theorem aligned_line (h : (Constant.ofMember member).name.length ≤ width) :
    Aligned typeName (width + 1) member.rawName
      ((Constant.ofMember member).line width typeName).toList := by
  have hlength : ('\t' :: ((Constant.ofMember member).name.toList ++
      List.replicate (width - (Constant.ofMember member).name.length) ' ')).length =
        width + 1 := by
    simp only [List.length_cons, List.length_append, List.length_replicate, String.length_toList]
    omega
  rw [toList_line]
  exact ⟨⟨_, List.take_left' hlength⟩, List.drop_left' hlength⟩

theorem isGroup_groupOf (h : Constant.ofMember member ∈ declaration.constants) :
    IsGroup declaration.typeName (declaration.nameWidth + 1) member
      (declaration.groupOf (Constant.ofMember member)) := by
  refine ⟨_, ?_, aligned_line (length_le_nameWidth h)⟩
  rw [groupOf, List.map_append, commentLines, List.map_map]
  simp [Constant.ofMember, Function.comp_def]

theorem head?_of_mem_groupOf {line : List Char} (h : line ∈ declaration.groupOf constant) :
    line.head? = some '\t' := by
  obtain ⟨text, htext, rfl⟩ := List.mem_map.mp h
  rcases List.mem_append.mp htext with hcomment | hline
  · obtain ⟨text, -, rfl⟩ := List.mem_map.mp hcomment
    simp
  · rw [List.mem_singleton.mp hline, toList_line]
    rfl

theorem Aligned.length_lt {rawName : String} {line : List Char}
    (h : Aligned typeName column rawName line) : (Name.ofConstant rawName).length < column := by
  obtain ⟨padding, hhead⟩ := h.head
  have hlength := List.length_take_le column line
  rw [hhead] at hlength
  simp only [List.length_cons, List.length_append, String.length_toList] at hlength
  omega

-- ---------------------------------------------------------------------------
-- The block
-- ---------------------------------------------------------------------------

theorem map_toList_lines (h : declaration.constants ≠ []) :
    declaration.lines.map String.toList =
      ("type " ++ declaration.typeName ++ " C.enum_" ++ declaration.enumName).toList :: [] ::
        "const (".toList :: ((declaration.constants.map declaration.groupOf).flatten ++
          [")".toList, []]) := by
  have hopen : ¬ declaration.constants.isEmpty = true := by simpa using h
  have hgroups : (declaration.constants.flatMap fun constant => commentLines constant.comment ++
      [constant.line declaration.nameWidth declaration.typeName]).map String.toList =
        (declaration.constants.map declaration.groupOf).flatten := by
    rw [List.map_flatMap]
    rfl
  rw [lines, constantLines, if_neg hopen, List.cons_append, List.map_cons, List.map_cons,
    List.map_cons, List.map_append, hgroups]
  rfl

theorem notMem_groups {line : List Char} (h : line.head? ≠ some '\t') :
    line ∉ (declaration.constants.map declaration.groupOf).flatten := by
  intro hline
  obtain ⟨group, hgroup, hmem⟩ := List.mem_flatten.mp hline
  obtain ⟨constant, -, rfl⟩ := List.mem_map.mp hgroup
  exact h (head?_of_mem_groupOf hmem)

/-- Whatever the names hold, the constants of a declaration are aligned, and not further right than
its widest Go name asks for. -/
theorem source_aligned (hname : '\n' ∉ enumName.toList) (hne : ms ≠ [])
    (hraw : ∀ member ∈ ms, '\n' ∉ member.rawName.toList)
    (hcomment : ∀ member ∈ ms, ∀ text ∈ member.comment, '\n' ∉ text.toList) :
    ∃ column groups,
      Layout enumName ms ((ofMembers enumName ms).source.toList.splitOn '\n') column groups := by
  have hconstants : (ofMembers enumName ms).constants ≠ [] := by simpa [ofMembers] using hne
  have hlines : (ofMembers enumName ms).source.toList.splitOn '\n' = _ :=
    splitOn_source (lineFree_ofMembers hname hraw hcomment)
  obtain ⟨constant, hconstant, hwidest⟩ := exists_length_eq_nameWidth hconstants
  obtain ⟨widest, hmem, rfl⟩ := List.mem_map.mp hconstant
  refine ⟨(ofMembers enumName ms).nameWidth + 1,
    (ofMembers enumName ms).constants.map (ofMembers enumName ms).groupOf, ?_⟩
  constructor
  case lines_eq =>
    rw [hlines, map_toList_lines hconstants]
    simp [ofMembers]
  case open_notMem => exact notMem_groups (by decide)
  case close_notMem => exact notMem_groups (by decide)
  case groups =>
    change List.Forall₂ _ ms ((ms.map Constant.ofMember).map _)
    rw [List.map_map, List.forall₂_map_right_iff, List.forall₂_same]
    intro member hmember
    have hconstant : Constant.ofMember member ∈ (ofMembers enumName ms).constants :=
      List.mem_map_of_mem hmember
    have hgroup := isGroup_groupOf hconstant
    exact hgroup
  case unpadded =>
    refine ⟨widest, hmem, ?_⟩
    rw [← hwidest]
    rfl
  case least =>
    intro other haligned
    obtain ⟨line, hline⟩ := haligned widest hmem
    rw [← hwidest]
    exact hline.length_lt

/-- The capital of `ß` is two letters, so that the first name grows by one. -/
def germanMembers : List Header.Member :=
  [⟨"heif_ßx", ["für Maße", "von 1–9"]⟩, ⟨"heif_größe", []⟩]

theorem source_aligned_german :
    '\n' ∉ "heif_maß".toList ∧ germanMembers ≠ [] ∧
      (∀ member ∈ germanMembers, '\n' ∉ member.rawName.toList) ∧
      (∀ member ∈ germanMembers, ∀ text ∈ member.comment, '\n' ∉ text.toList) ∧
      ∃ column groups, Layout "heif_maß" germanMembers
        ((ofMembers "heif_maß" germanMembers).source.toList.splitOn '\n') column groups :=
  ⟨by decide, by decide, by decide, by decide,
    source_aligned (by decide) (by decide) (by decide) (by decide)⟩

example : (ofMembers "heif_maß" germanMembers).lines =
    ["type Maß C.enum_heif_maß", "", "const (", "\t// für Maße", "\t// von 1–9",
      "\tSSx   Maß = C.heif_ßx", "\tGröße Maß = C.heif_größe", ")", ""] := by
  decide

end EnumBinding.Declaration
