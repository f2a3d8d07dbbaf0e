import EnumBinding.Declaration
import EnumBinding.Proofs.Name.GoName

/-!
# Lines of a declaration

If none of the texts that a declaration writes breaks a line, its lines are
read back by splitting its text at the line ends (`splitOn_source`). The Go
names of its type and its constants break no line if the C names do not.
-/

namespace EnumBinding

variable {enumName typeName : String} {width : Nat} {constant : Constant}
  {declaration : Declaration} {ms : List Header.Member}

theorem lineFree_append {first second : String} (hf : '\n' ∉ first.toList)
    (hs : '\n' ∉ second.toList) :
    '\n' ∉ (first ++ second).toList := by
  rw [String.toList_append, List.mem_append]
  rintro (h | h)
  · exact hf h
  · exact hs h

theorem unlines_commentLines (comment : List String) :
    Text.unlines (commentLines comment) = (commentBlock? comment).elim "" (· ++ "\n") := by
  cases comment with
  | nil => rfl
  | cons text comment =>
    have hne : (commentLines (text :: comment)).map String.toList ≠ [] := by simp [commentLines]
    rw [commentBlock?, List.isEmpty_cons, if_neg Bool.false_ne_true, Option.elim_some,
      ← String.toList_inj, Text.toList_unlines, Text.endLines_eq_intercalate hne]
    simp

-- ---------------------------------------------------------------------------
-- Constants
-- ---------------------------------------------------------------------------

namespace Constant

/-- No text that a constant writes breaks a line. -/
structure LineFree (constant : Constant) : Prop where
  name : '\n' ∉ constant.name.toList
  rawName : '\n' ∉ constant.rawName.toList
  comment : ∀ text ∈ constant.comment, '\n' ∉ text.toList

theorem lineFree_ofMember {member : Header.Member} (hraw : '\n' ∉ member.rawName.toList)
    (hcomment : ∀ text ∈ member.comment, '\n' ∉ text.toList) : (ofMember member).LineFree :=
  ⟨Name.newline_notMem_ofConstant hraw, hraw, hcomment⟩

theorem LineFree.commentLines (h : constant.LineFree) :
    ∀ line ∈ commentLines constant.comment, '\n' ∉ line.toList :=
  List.forall_mem_map.mpr fun text htext => lineFree_append (by simp) (h.comment text htext)

theorem LineFree.line (h : constant.LineFree) (htype : '\n' ∉ typeName.toList) :
    '\n' ∉ (constant.line width typeName).toList := by
  have hpadded : '\n' ∉ (Text.padTo width constant.name).toList :=
    lineFree_append h.name (by simp)
  refine lineFree_append (lineFree_append (lineFree_append (lineFree_append
    (lineFree_append ?_ hpadded) ?_) htype) ?_) h.rawName
  all_goals simp

end Constant

-- ---------------------------------------------------------------------------
-- Declarations
-- ---------------------------------------------------------------------------

namespace Declaration

structure LineFree (declaration : Declaration) : Prop where
  enumName : '\n' ∉ declaration.enumName.toList
  typeName : '\n' ∉ declaration.typeName.toList
  constants : ∀ constant ∈ declaration.constants, constant.LineFree

theorem lineFree_ofMembers (hname : '\n' ∉ enumName.toList)
    (hraw : ∀ member ∈ ms, '\n' ∉ member.rawName.toList)
    (hcomment : ∀ member ∈ ms, ∀ text ∈ member.comment, '\n' ∉ text.toList) :
    (ofMembers enumName ms).LineFree where
  enumName := hname
  typeName := Name.newline_notMem_ofType hname
  constants := List.forall_mem_map.mpr fun member hmember =>
    Constant.lineFree_ofMember (hraw member hmember) (hcomment member hmember)

theorem LineFree.lines (h : declaration.LineFree) :
    ∀ line ∈ declaration.lines, '\n' ∉ line.toList := by
  refine List.forall_mem_cons.mpr ⟨?_, List.forall_mem_cons.mpr ⟨by simp, ?_⟩⟩
  · exact lineFree_append (lineFree_append (lineFree_append (by simp) h.typeName) (by simp)) h.enumName
  · unfold constantLines
    split
    · exact fun _ hline => nomatch hline
    · refine List.forall_mem_append.mpr ⟨List.forall_mem_cons.mpr ⟨by simp, ?_⟩, by simp⟩
      refine List.forall_mem_flatMap.mpr fun constant hconstant => ?_
      have hfree := h.constants constant hconstant
      exact List.forall_mem_append.mpr
        ⟨hfree.commentLines, List.forall_mem_singleton.mpr (hfree.line h.typeName)⟩

theorem splitOn_source (h : declaration.LineFree) :
    declaration.source.toList.splitOn '\n' = declaration.lines.map String.toList ++ [[]] := by
  rw [source, Text.toList_unlines]
  exact Text.splitOn_endLines (List.forall_mem_map.mpr h.lines)

end Declaration
end EnumBinding
