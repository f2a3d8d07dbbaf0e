import EnumBinding.Header.Member
import EnumBinding.Proofs.Header.MemberLine
import EnumBinding.Proofs.Text.LineLaws

/-!
# Comments above a member

A text made of whole lines ends in a run of comment lines, and the comment it
documents a member with is the run's texts in their order. The first member
of a block looks no further up than the first character after the brace that
is not blank, which hides blank lines only (`aboveFirst_eq`).
-/

namespace EnumBinding.Header

open Text (endLines isBlank isIndent width)

-- ---------------------------------------------------------------------------
-- Whole lines
-- ---------------------------------------------------------------------------

theorem commentAbove_endLines (h : ∀ line ∈ lines, '\n' ∉ line) :
    commentAbove (endLines lines) = (commentRun lines.reverse).reverse := by
  cases lines with
  | nil => rfl
  | cons line rest =>
    have hne : line :: rest ≠ [] := by simp
    have hdrop : dropLineEnd (endLines (line :: rest)) = ['\n'].intercalate (line :: rest) := by
      rw [Text.endLines_eq_intercalate hne]
      simp [dropLineEnd]
    rw [commentAbove, hdrop, List.splitOn_intercalate '\n' h hne]

-- ---------------------------------------------------------------------------
-- Runs of comment lines
-- ---------------------------------------------------------------------------

structure CommentLine where
  indent : Indent
  /-- What follows the `//`. -/
  body : LineText

namespace CommentLine

def line (comment : CommentLine) : List Char := comment.indent.1 ++ '/' :: '/' :: comment.body.1

def text (comment : CommentLine) : List Char := Text.trim comment.body.1

theorem commentText?_line (comment : CommentLine) :
    commentText? comment.line = some comment.text := by
  have htrim : Text.trim comment.line = '/' :: '/' :: Text.trimEnd comment.body.1 := by
    rw [line, Text.trim_append (Text.all_isBlank_of_isIndent comment.indent.2), Text.trim,
      Text.trimStart, Text.dropWhile_of_stops (Text.stops_cons.mpr rfl), Text.trimEnd_cons rfl,
      Text.trimEnd_cons rfl]
  rw [commentText?, htrim]
  simp [Text.after?, text, Text.trim_trimEnd]

theorem lineEnd_notMem (comment : CommentLine) : '\n' ∉ comment.line := by
  have hindent : '\n' ∉ comment.indent.1 := Text.notMem_of_all comment.indent.2 rfl
  simp [line, hindent, comment.body.2]

end CommentLine

theorem commentText?_eq_none (h : line.all isBlank = true) : commentText? line = none := by
  rw [commentText?, Text.trim_eq_nil h]
  rfl

theorem commentRun_comments (comments : List CommentLine) (lines : List (List Char)) :
    commentRun (comments.map CommentLine.line ++ lines) =
      comments.map CommentLine.text ++ commentRun lines := by
  induction comments with
  | nil => rfl
  | cons comment comments ih =>
    simp [commentRun, comment.commentText?_line, ih]

theorem commentAbove_comments (hb : ∀ line ∈ blankLines, line.all isBlank = true ∧ '\n' ∉ line)
    (comments : List CommentLine) :
    commentAbove (endLines (blankLines ++ comments.map CommentLine.line)) =
      comments.map CommentLine.text := by
  have hrun : commentRun blankLines.reverse = [] := by
    cases hr : blankLines.reverse with
    | nil => rfl
    | cons line lines =>
      have hmem : line ∈ blankLines := List.mem_reverse.mp (by simp [hr])
      simp [commentRun, commentText?_eq_none (hb line hmem).1]
  rw [commentAbove_endLines]
  · rw [List.reverse_append, ← List.map_reverse, commentRun_comments, hrun]
    simp
  · intro line hmem
    rcases List.mem_append.mp hmem with hmem | hmem
    · exact (hb line hmem).2
    · obtain ⟨comment, -, rfl⟩ := List.mem_map.mp hmem
      exact comment.lineEnd_notMem

-- ---------------------------------------------------------------------------
-- Above the first member
-- ---------------------------------------------------------------------------

theorem aboveFirst_eq (before gap rest : List Char) :
    aboveFirst (before ++ (gap ++ rest)) (width before + width ((gap ++ rest).takeWhile isBlank))
      (width before + width gap) = .ok (gap.dropWhile isBlank) := by
  by_cases hd : gap.dropWhile isBlank = []
  · rw [List.takeWhile_append_of_pos (List.dropWhile_eq_nil_iff.mp hd), Text.width_append,
      aboveFirst, if_pos (by omega), hd]
  · have hsplit := List.takeWhile_append_dropWhile (p := isBlank) (l := gap)
    have hwidth : width gap = width (gap.takeWhile isBlank) + width (gap.dropWhile isBlank) := by
      rw [← Text.width_append, hsplit]
    have hpos := Text.width_pos hd
    have hslice := Text.slice?_append (before ++ gap.takeWhile isBlank) (gap.dropWhile isBlank) rest
    rw [← List.append_assoc, List.append_assoc before, hsplit, List.append_assoc, Text.width_append,
      Nat.add_assoc, ← hwidth] at hslice
    rw [Text.takeWhile_append_of_ne_nil hd, aboveFirst, if_neg (by omega), hslice]

end EnumBinding.Header
