import EnumBinding.Proofs.Config.Validation
import EnumBinding.Proofs.Declaration.LineLaws
import EnumBinding.Proofs.Generation.Reader
import EnumBinding.Proofs.Generation.SourceLaws
import EnumBinding.Proofs.Header.LineFree
import Mathlib.Data.List.Forall2

/-!
# Generated files are unambiguous

A generated file is its preamble and its declarations, less one line end. No
text taken from a header can break a line or pass for a line of another kind,
so the reader finds the version and every declaration in the file alone
(`read?_source`).
-/

namespace EnumBinding.Generation

open Header (Block Entry)
open Name (IsWord)
open Text (endLines isBlank unlines)

variable {header versionHeader version enumName : String} {family : Family} {ms : List Header.Member}
  {declaration : Declaration} {declarations : List Declaration}

theorem isPlain_ofMembers (hname : Config.isIdentifier enumName = true)
    (hraw : ∀ member ∈ ms, Config.isIdentifier member.rawName = true)
    (hfree : ∀ member ∈ ms, member.LineFree) : IsPlain (Declaration.ofMembers enumName ms) where
  enumName := hname
  typeName := Name.isWord_ofType (Name.isWord_of_isIdentifier hname)
  name := by
    refine List.forall_mem_map.mpr fun member hmember => ?_
    exact Name.isWord_ofConstant (Name.isWord_of_isIdentifier (hraw member hmember))
  rawName := List.forall_mem_map.mpr fun member hmember =>
    Name.isWord_of_isIdentifier (hraw member hmember)
  comment := List.forall_mem_map.mpr fun member hmember => hfree member hmember

-- ---------------------------------------------------------------------------
-- The preamble
-- ---------------------------------------------------------------------------

abbrev IsSilent (line : List Char) : Prop :=
  '\n' ∉ line ∧ isVersionLine line = false ∧ Line.ofChars line = .other

/-- The characters of a literal are found by unification, which is cheaper than decoding them. -/
theorem silent_of_ofList {lines : List String} (h : ∃ texts : List (List Char),
      lines = texts.map String.ofList ∧ ∀ text ∈ texts, IsSilent text) :
    ∀ line ∈ lines, IsSilent line.toList := by
  obtain ⟨texts, rfl, hsilent⟩ := h
  refine List.forall_mem_map.mpr fun text htext => ?_
  rw [String.toList_ofList]
  exact hsilent text htext

theorem silent_licence : ∀ line ∈ Preamble.licence, IsSilent line.toList :=
  silent_of_ofList ⟨[_, _, _, _, _, _, _, _, _, _, _, _, _, _, _, _, _, _], rfl, by decide⟩

theorem silent_imports : ∀ line ∈ Preamble.imports, IsSilent line.toList :=
  silent_of_ofList ⟨[_, _, _, _, _], rfl, by decide⟩

def aboveVersion : List String :=
  Preamble.licence ++ ["", "package " ++ Preamble.package, ""] ++ Preamble.imports ++ [""]

theorem silent_aboveVersion : ∀ line ∈ aboveVersion, IsSilent line.toList := by
  refine List.forall_mem_append.mpr ⟨List.forall_mem_append.mpr ⟨?_, silent_imports⟩, by decide⟩
  exact List.forall_mem_append.mpr ⟨silent_licence, by decide⟩

-- ---------------------------------------------------------------------------
-- The lines of a file
-- ---------------------------------------------------------------------------

def fileLines (version : String) (declarations : List Declaration) : List String :=
  aboveVersion ++
    ("const build_version = " ++ version) :: "" :: declarations.flatMap Declaration.lines

theorem unlines_fileLines (version : String) (declarations : List Declaration) :
    unlines (fileLines version declarations) =
      Preamble.source version ++ String.join (declarations.map Declaration.source) := by
  have hdeclarations : unlines (declarations.flatMap Declaration.lines) =
      String.join (declarations.map Declaration.source) := by
    induction declarations with
    | nil => rfl
    | cons declaration declarations ih => simp [ih, Declaration.source]
  rw [← hdeclarations, Preamble.source, ← Text.unlines_append]
  simp [fileLines, aboveVersion, Preamble.lines]

theorem IsPlain.lineFree (h : IsPlain declaration) : declaration.LineFree where
  enumName := notMem_of_isWord (Name.isWord_of_isIdentifier h.enumName) rfl
  typeName := notMem_of_isWord h.typeName rfl
  constants := fun constant hconstant =>
    ⟨notMem_of_isWord (h.name constant hconstant) rfl,
      notMem_of_isWord (h.rawName constant hconstant) rfl, h.comment constant hconstant⟩

theorem lineFree_fileLines (hversion : '\n' ∉ version.toList)
    (hplain : ∀ declaration ∈ declarations, IsPlain declaration) :
    ∀ line ∈ fileLines version declarations, '\n' ∉ line.toList := by
  refine List.forall_mem_append.mpr ⟨fun line hline => (silent_aboveVersion line hline).1, ?_⟩
  refine List.forall_mem_cons.mpr ⟨?_, List.forall_mem_cons.mpr ⟨by simp, ?_⟩⟩
  · exact lineFree_append (by simp) hversion
  · intro line hline
    obtain ⟨declaration, hdeclaration, hline⟩ := List.mem_flatMap.mp hline
    exact (hplain declaration hdeclaration).lineFree.lines line hline

theorem toList_source (h : IsPlain declaration) : ∃ body c,
    declaration.source.toList = body ++ [c, '\n', '\n'] ∧ isBlank c = false := by
  rw [Declaration.source, Text.toList_unlines]
  unfold Declaration.lines Declaration.constantLines
  split
  · have hne : declaration.enumName.toList ≠ [] := by
      intro hnil
      have := h.enumName
      simp [Config.isIdentifier, hnil] at this
    obtain ⟨name, c, hc⟩ := (List.eq_nil_or_concat' _).resolve_left hne
    have hword := Name.isWord_of_isIdentifier h.enumName c (by simp [hc])
    exact ⟨"type ".toList ++ (declaration.typeName.toList ++ (" C.enum_".toList ++ name)), c,
      by simp [hc], Config.isBlank_of_isIdentifierRest hword⟩
  · rw [← List.cons_append, ← List.cons_append, List.map_append, Text.endLines_append]
    exact ⟨_, ')', rfl, rfl⟩

/-- Closing the text of a file drops one of the two line ends that it has. -/
theorem closeText_fileLines (version : String) (hne : declarations ≠ [])
    (hplain : ∀ declaration ∈ declarations, IsPlain declaration) : ∃ body c, isBlank c = false ∧
      (unlines (fileLines version declarations)).toList = body ++ [c, '\n', '\n'] ∧
      (closeText (unlines (fileLines version declarations))).toList = body ++ [c, '\n'] := by
  -- Only the last declaration matters: the text ends as it does.
  obtain ⟨others, last, rfl⟩ := (List.eq_nil_or_concat' _).resolve_left hne
  obtain ⟨body, c, hsource, hc⟩ := toList_source (hplain last (by simp))
  have htext : (unlines (fileLines version (others ++ [last]))).toList =
      (unlines (fileLines version others)).toList ++ body ++ [c] ++ ['\n', '\n'] := by
    have hlines :
        fileLines version (others ++ [last]) = fileLines version others ++ last.lines := by
      simp [fileLines]
    rw [Declaration.source] at hsource
    rw [hlines, Text.unlines_append, String.toList_append, hsource]
    simp
  refine ⟨(unlines (fileLines version others)).toList ++ body, c, hc, by simp [htext], ?_⟩
  have htrim : Text.trimEnd (unlines (fileLines version (others ++ [last]))).toList =
      (unlines (fileLines version others)).toList ++ body ++ [c] := by
    rw [htext, Text.trimEnd_append rfl, Text.trimEnd_concat hc]
  rw [closeText, htrim, String.toList_append, String.toList_ofList]
  simp

-- ---------------------------------------------------------------------------
-- What the reader finds
-- ---------------------------------------------------------------------------

section
variable (hversion : '\n' ∉ version.toList)
  (hplain : ∀ declaration ∈ declarations, IsPlain declaration)
include hplain

theorem ofChars_fileLines :
    (declarations.flatMap Declaration.lines).map (fun line => Line.ofChars line.toList) =
    declarations.flatMap Line.ofDeclaration := by
  induction declarations with
  | nil => rfl
  | cons declaration declarations ih =>
    obtain ⟨hfirst, hothers⟩ := List.forall_mem_cons.mp hplain
    rw [List.flatMap_cons, List.map_append, ofChars_lines hfirst, ih hothers, List.flatMap_cons]

include hversion

theorem splitOn_closeText (hne : declarations ≠ []) :
    (closeText (unlines (fileLines version declarations))).toList.splitOn '\n' =
      (fileLines version declarations).map String.toList := by
  obtain ⟨body, c, -, htext, hclosed⟩ := closeText_fileLines version hne hplain
  have hlines : (unlines (fileLines version declarations)).toList.splitOn '\n' =
      (fileLines version declarations).map String.toList ++ [[]] := by
    rw [Text.toList_unlines]
    exact Text.splitOn_endLines (List.forall_mem_map.mpr (lineFree_fileLines hversion hplain))
  have hsplit : (body ++ [c, '\n'] ++ '\n' :: []).splitOn '\n' =
      (body ++ [c, '\n']).splitOn '\n' ++ [].splitOn '\n' := List.splitOn_append_cons_self _ _
  rw [htext, show body ++ [c, '\n', '\n'] = body ++ [c, '\n'] ++ ['\n'] by simp, hsplit,
    List.splitOn_nil, List.append_cancel_right_eq] at hlines
  rw [hclosed, hlines]

theorem read?_closeText (hne : declarations ≠ []) :
    read? (closeText (unlines (fileLines version declarations))) =
      some (version, declarations) := by
  have habove : ∀ line ∈ aboveVersion.map String.toList, (!isVersionLine line) = true := by
    refine List.forall_mem_map.mpr fun line hline => ?_
    rw [(silent_aboveVersion line hline).2.1]
    rfl
  have hlines :
      (fileLines version declarations).map String.toList = aboveVersion.map String.toList ++
        ("const build_version = ".toList ++ version.toList) ::
        ("" :: declarations.flatMap Declaration.lines).map String.toList := by
    rw [fileLines, List.map_append, List.map_cons, String.toList_append]
  have hbuild : ¬ (!isVersionLine ("const build_version = ".toList ++ version.toList)) = true := by
    rw [isVersionLine, Text.after?_append]
    exact Bool.false_ne_true
  have hbelow : readBelow
      ((("" :: declarations.flatMap Declaration.lines).map String.toList).map Line.ofChars) ([], []) =
        ([], declarations) := by
    rw [List.map_map]
    change Line.above .other (readBelow ((declarations.flatMap Declaration.lines).map
      fun line => Line.ofChars line.toList) ([], [])) = _
    rw [ofChars_fileLines hplain, readBelow_declarations]
    rfl
  rw [read?, splitOn_closeText hversion hplain hne, hlines, List.dropWhile_append_of_pos habove,
    List.dropWhile_cons_of_neg (p := (!isVersionLine ·)) hbuild]
  simp only
  rw [Text.after?_append, Option.map_some, hbelow, String.ofList_toList]

end

-- ---------------------------------------------------------------------------
-- How many constants the reader finds
-- ---------------------------------------------------------------------------

theorem countP_lines (lines : List String) :
    (lines.map String.toList).countP (fun line => (Line.ofChars line).isConstant) =
      (lines.map fun line => Line.ofChars line.toList).countP Line.isConstant := by
  rw [List.countP_map, List.countP_map]
  rfl

theorem constantLines_source (h : IsPlain declaration) :
    constantLines declaration.source = declaration.constants.length := by
  rw [constantLines, Declaration.splitOn_source h.lineFree, List.countP_append, countP_lines,
    ofChars_lines h, countP_ofDeclaration]
  rfl

theorem constantLines_closeText (hversion : '\n' ∉ version.toList)
    (hplain : ∀ declaration ∈ declarations, IsPlain declaration) (hne : declarations ≠ []) :
    constantLines (closeText (unlines (fileLines version declarations))) =
      Summary.constantCount ⟨version, declarations.map Declaration.summary⟩ := by
  have habove :
      (aboveVersion.map fun line => Line.ofChars line.toList).countP Line.isConstant = 0 := by
    rw [List.countP_eq_zero]
    refine List.forall_mem_map.mpr fun line hline => ?_
    rw [(silent_aboveVersion line hline).2.2]
    exact Bool.false_ne_true
  have hbuild : Line.ofChars ("const build_version = " ++ version).toList = .other := by
    rw [String.toList_append]
    rfl
  have hdeclarations : ∀ others : List Declaration,
      (others.flatMap Line.ofDeclaration).countP Line.isConstant =
        Summary.constantCount ⟨version, others.map Declaration.summary⟩ := by
    intro others
    induction others with
    | nil => rfl
    | cons declaration others ih =>
      rw [List.flatMap_cons, List.countP_append, countP_ofDeclaration, ih]
      rfl
  rw [constantLines, splitOn_closeText hversion hplain hne, countP_lines, fileLines,
    List.map_append, List.countP_append, habove, List.map_cons, hbuild, List.map_cons,
    ofChars_fileLines hplain, Nat.zero_add]
  exact hdeclarations declarations

-- ---------------------------------------------------------------------------
-- Whole generations
-- ---------------------------------------------------------------------------

/-- What a generation declares, and everything that was found for it, stands in its text alone. -/
theorem read?_source {config : Config} {text : String} {summary : Summary}
    (hvalid : config.validate = .ok ())
    (hraw : ∀ family ∈ config.enums, ∀ block ms, Header.locate? header family.name = some block →
      Header.members header block family.effectivePrefix = .ok ms →
      ∀ member ∈ ms, Config.isIdentifier member.rawName = true)
    (h : Generation.source header versionHeader config = .ok (text, summary)) :
    ∃ declarations,
      Header.version? versionHeader config.versionMacro = some summary.buildVersion ∧
      List.Forall₂ (fun family declaration => ∃ block ms,
        Header.locate? header family.name = some block ∧
        Header.members header block family.effectivePrefix = .ok ms ∧
        declaration = Declaration.ofMembers family.name ms) config.enums declarations ∧
      read? text = some (summary.buildVersion, declarations) ∧
      text ++ "\n" =
        Preamble.source summary.buildVersion ++ String.join (declarations.map Declaration.source) ∧
      (∃ body c, text.toList = body ++ [c, '\n'] ∧ isBlank c = false) ∧
      summary.constantCount = constantLines text ∧
      List.Forall₂ (fun part declaration => part.enumName = declaration.enumName ∧
        part.typeName = declaration.typeName ∧
          part.constantCount = constantLines declaration.source)
        summary.declarations declarations := by
  obtain ⟨hne, hnames⟩ := Config.validate_ok hvalid
  obtain ⟨version, declarations, hversion, hdeclarations, rfl, rfl⟩ := source_eq_ok.mp h
  simp only [declaration_eq_ok] at hdeclarations
  have hfree := Header.version?_lineFree hversion
  have hplain : ∀ declaration ∈ declarations, IsPlain declaration := by
    intro declaration hdeclaration
    obtain ⟨family, hfamily, block, ms, hblock, hms, rfl⟩ :=
      Outcomes.exists_of_forall₂ hdeclarations hdeclaration
    exact isPlain_ofMembers (hnames family hfamily).1 (hraw family hfamily block ms hblock hms)
      fun member hmember => Header.Block.members_lineFree hms hmember
  have hsome : declarations ≠ [] := by
    rintro rfl
    exact hne (List.forall₂_nil_right_iff.mp hdeclarations)
  obtain ⟨body, c, hc, htext, hclosed⟩ := closeText_fileLines version hsome hplain
  rw [← unlines_fileLines]
  refine ⟨declarations, hversion, hdeclarations, read?_closeText hfree hplain hsome, ?_,
    ⟨body, c, hclosed, hc⟩, ?_, ?_⟩
  · dsimp only
    rw [← unlines_fileLines, ← String.toList_inj, String.toList_append, hclosed, htext]
    simp
  · exact (constantLines_closeText hfree hplain hsome).symm
  · rw [List.forall₂_map_left_iff, List.forall₂_same]
    exact fun declaration hdeclaration =>
      ⟨rfl, rfl, (constantLines_source (hplain _ hdeclaration)).symm⟩

/-- An enum without members, and one whose members have a run of comment lines and a note. -/
def hueHeader : String :=
  "\nenum gap\n\x7b\n\x7d;\n\nenum hue\n\x7b\n// warm\n//\n//red\nhue_R = 0,\nhue_Blue = 1, // cold\n\x7d;\n"

def hueVersionHeader : String := "#define V ((1<<24) |  2 | 0)\n"

def hueConfig : Config := { versionMacro := "V", enums := [{ name := "hue" }, { name := "gap" }] }

def hueBlock : Block :=
  { first := 15, last := 80, openBrace := 25, closeBrace := 77, membersStart := 27 }

def gapBlock : Block :=
  { first := 0, last := 15, openBrace := 10, closeBrace := 12, membersStart := 12 }

def hueMembers : List Header.Member := [⟨"hue_R", ["warm", "", "red"]⟩, ⟨"hue_Blue", ["cold"]⟩]

def hueDeclaration : Declaration :=
  ⟨"hue", "Hue",
    [⟨"HueR", "hue_R", ["warm", "", "red"]⟩, ⟨"HueBlue", "hue_Blue", ["cold"]⟩]⟩

def gapDeclaration : Declaration := ⟨"gap", "Gap", []⟩

def hueText : String :=
  "type Hue C.enum_hue\n\nconst (\n\t// warm\n\t// \n\t// red\n\tHueR    Hue = C.hue_R\n" ++
    "\t// cold\n\tHueBlue Hue = C.hue_Blue\n)\n\ntype Gap C.enum_gap\n\n"

theorem locate?_hue : Header.locate? hueHeader "hue" = some hueBlock := by decide +kernel

theorem members_hue : Header.members hueHeader hueBlock "hue" = .ok hueMembers := by decide +kernel

theorem locate?_gap : Header.locate? hueHeader "gap" = some gapBlock := by decide +kernel

theorem members_gap : Header.members hueHeader gapBlock "gap" = .ok [] := by decide +kernel

theorem declaration_hue :
    Generation.declaration hueHeader { name := "hue" } = .ok hueDeclaration :=
  declaration_eq_ok.mpr ⟨_, _, locate?_hue, members_hue, rfl⟩

theorem declaration_gap :
    Generation.declaration hueHeader { name := "gap" } = .ok gapDeclaration :=
  declaration_eq_ok.mpr ⟨_, _, locate?_gap, members_gap, rfl⟩

theorem version?_hue : Header.version? hueVersionHeader "V" = some "(1<<24) | 2" := by
  decide +kernel

theorem source_hue : ∃ text, Generation.source hueHeader hueVersionHeader hueConfig =
    .ok (text, ⟨"(1<<24) | 2", [⟨"hue", "Hue", 2⟩, ⟨"gap", "Gap", 0⟩]⟩) := by
  have hdeclarations : List.Forall₂ (fun family declaration =>
      Generation.declaration hueHeader family = .ok declaration) hueConfig.enums
        [hueDeclaration, gapDeclaration] :=
    .cons declaration_hue (.cons declaration_gap .nil)
  exact ⟨_, source_eq_ok.mpr ⟨_, _, version?_hue, hdeclarations, rfl, rfl⟩⟩

/-- Padding, an empty line of comment and an enum without constants do not mislead the reader. -/
theorem read?_source_hue :
    hueConfig.validate = .ok () ∧
    (∀ family ∈ hueConfig.enums, ∀ block ms, Header.locate? hueHeader family.name = some block →
      Header.members hueHeader block family.effectivePrefix = .ok ms →
      ∀ member ∈ ms, Config.isIdentifier member.rawName = true) ∧
    ∃ text summary,
      Generation.source hueHeader hueVersionHeader hueConfig = .ok (text, summary) ∧
      read? text = some ("(1<<24) | 2", [hueDeclaration, gapDeclaration]) ∧
      text ++ "\n" = Preamble.source "(1<<24) | 2" ++ hueText ∧
      constantLines text = 2 := by
  have hvalid : hueConfig.validate = .ok () := rfl
  have hraw : ∀ family ∈ hueConfig.enums, ∀ block ms,
      Header.locate? hueHeader family.name = some block →
      Header.members hueHeader block family.effectivePrefix = .ok ms →
      ∀ member ∈ ms, Config.isIdentifier member.rawName = true := by
    refine List.forall_mem_cons.mpr ⟨fun block ms hblock hms => ?_,
      List.forall_mem_singleton.mpr fun block ms hblock hms => ?_⟩
    · obtain rfl := Option.some.inj (locate?_hue.symm.trans hblock)
      obtain rfl := Except.ok.inj (members_hue.symm.trans hms)
      decide
    · obtain rfl := Option.some.inj (locate?_gap.symm.trans hblock)
      obtain rfl := Except.ok.inj (members_gap.symm.trans hms)
      exact List.forall_mem_nil _
  obtain ⟨text, hsource⟩ := source_hue
  obtain ⟨declarations, -, hdeclared, hread, htext, -, hcount, -⟩ :=
    read?_source hvalid hraw hsource
  simp only [← declaration_eq_ok] at hdeclared
  obtain ⟨first, rest, hfirst, hrest, rfl⟩ := List.forall₂_cons_left_iff.mp hdeclared
  obtain ⟨second, rest, hsecond, hnone, rfl⟩ := List.forall₂_cons_left_iff.mp hrest
  obtain rfl := List.forall₂_nil_left_iff.mp hnone
  obtain rfl := Except.ok.inj (declaration_hue.symm.trans hfirst)
  obtain rfl := Except.ok.inj (declaration_gap.symm.trans hsecond)
  have hjoined : String.join ([hueDeclaration, gapDeclaration].map Declaration.source) = hueText := by
    decide +kernel
  rw [hjoined] at htext
  exact ⟨hvalid, hraw, text, _, hsource, hread, htext, hcount.symm⟩

end EnumBinding.Generation
