import EnumBinding.Proofs.Header.LineFree
import EnumBinding.Proofs.Header.CommentLaws
import Mathlib.Data.List.Induction

/-!
# Where the lines of a comment stand

A quote is a line of a comment where it stands in the header, behind its `//`.
The comment above a member is quoted line by line from the text above
(`exists_quotes_above`), and if the member begins a line it is the longest run
of comment lines that ends there (`endsInRun_of_lineEnd`). A note is quoted
from behind its own `//` (`exists_quotes_note`).
-/

namespace EnumBinding.Header

open Text (Blanks Stops endLines isBlank trim trimEnd trimStart width)

variable {header cs line text before rest above : List Char} {lines : List (List Char)}

-- ---------------------------------------------------------------------------
-- Trimmed lines
-- ---------------------------------------------------------------------------

structure Trimmed (line : List Char) : Prop where
  start : Stops isBlank line
  stop : Stops isBlank line.reverse
  lineFree : '\n' ∉ line

theorem trimmed_trim (h : '\n' ∉ trim cs) : Trimmed (trim cs) := by
  refine ⟨?_, ?_, h⟩
  · obtain ⟨trail, htrail⟩ := Text.exists_trimEnd (trimStart cs)
    have hstart : Stops isBlank (trimStart cs) := Text.stops_dropWhile isBlank cs
    rw [htrail] at hstart
    exact hstart.of_append
  · rw [trim, trimEnd, List.reverse_reverse]
    exact Text.stops_dropWhile isBlank _

-- ---------------------------------------------------------------------------
-- Runs of comment lines
-- ---------------------------------------------------------------------------

def IsComment (line : List Char) : Prop := ['/', '/'] <+: trim line

def behindSlashes (line : List Char) : List Char := trim ((trim line).drop 2)

/-- The comment is the longest run of comment lines at the end of a text made of whole lines. -/
def EndsInRun (above : List Char) (comment : List (List Char)) : Prop :=
  ∃ others run : List (List Char), above = endLines (others ++ run) ∧
    (∀ line ∈ others ++ run, '\n' ∉ line) ∧ (∀ line ∈ run, IsComment line) ∧
    (∀ line ∈ others.getLast?, ¬ IsComment line) ∧ comment = run.map behindSlashes

theorem commentText?_eq_some_iff :
    commentText? line = some text ↔ IsComment line ∧ text = behindSlashes line := by
  rw [commentText?, Option.map_eq_some_iff]
  simp only [Text.after?_eq_some_iff]
  constructor
  · rintro ⟨body, hbody, rfl⟩
    exact ⟨⟨body, hbody.symm⟩, by rw [behindSlashes, hbody]; rfl⟩
  · rintro ⟨⟨body, hbody⟩, rfl⟩
    exact ⟨body, hbody.symm, by rw [behindSlashes, ← hbody]; rfl⟩

theorem commentText?_eq_none_iff : commentText? line = none ↔ ¬ IsComment line := by
  rw [Option.eq_none_iff_forall_ne_some]
  constructor
  · exact fun h hcomment => h _ (commentText?_eq_some_iff.mpr ⟨hcomment, rfl⟩)
  · exact fun h text htext => h (commentText?_eq_some_iff.mp htext).1

theorem exists_run (lines : List (List Char)) :
    ∃ others run, lines = others ++ run ∧ (∀ line ∈ run, IsComment line) ∧
      (∀ line ∈ others.getLast?, ¬ IsComment line) ∧
      (commentRun lines.reverse).reverse = run.map behindSlashes := by
  induction lines using List.reverseRecOn with
  | nil => exact ⟨[], [], rfl, by simp, by simp, rfl⟩
  | append_singleton lines line ih =>
    rw [List.reverse_concat, commentRun]
    cases htext : commentText? line with
    | none =>
      refine ⟨lines ++ [line], [], by simp, by simp, ?_, rfl⟩
      rw [List.getLast?_concat]
      rintro _ ⟨⟩
      exact commentText?_eq_none_iff.mp htext
    | some text =>
      obtain ⟨others, run, rfl, hrun, hothers, hcomment⟩ := ih
      obtain ⟨hline, rfl⟩ := commentText?_eq_some_iff.mp htext
      refine ⟨others, run ++ [line], by simp, ?_, hothers, ?_⟩
      · exact List.forall_mem_append.mpr ⟨hrun, List.forall_mem_singleton.mpr hline⟩
      · simp only
        rw [List.reverse_cons, hcomment, List.map_append]
        rfl

theorem endsInRun_of_lineEnd (h : ∀ c ∈ above.getLast?, c = '\n') :
    EndsInRun above (commentAbove above) := by
  cases hlast : above.getLast? with
  | none =>
    obtain rfl := List.getLast?_eq_none_iff.mp hlast
    exact ⟨[], [], rfl, by simp, by simp, by simp, rfl⟩
  | some c =>
    obtain ⟨init, rfl⟩ := List.getLast?_eq_some_iff.mp hlast
    obtain rfl := h c hlast
    have hfree : ∀ line ∈ init.splitOn '\n', '\n' ∉ line := fun _ => Text.notMem_of_mem_splitOn
    have hlines : endLines (init.splitOn '\n') = init ++ ['\n'] := by
      rw [Text.endLines_eq_intercalate (List.splitOn_ne_nil _ _), List.intercalate_splitOn]
    obtain ⟨others, run, hsplit, hrun, hothers, hcomment⟩ := exists_run (init.splitOn '\n')
    refine ⟨others, run, ?_, ?_, hrun, hothers, ?_⟩
    · rw [← hsplit, hlines]
    · rwa [← hsplit]
    · rw [← hlines, commentAbove_endLines hfree, hcomment]

-- ---------------------------------------------------------------------------
-- Quotes
-- ---------------------------------------------------------------------------

/-- A line of a comment with all that stands before and behind it. -/
structure Quote where
  before : List Char
  /-- What stands between the `//` and the line. -/
  blanks : Blanks
  text : List Char
  after : List Char

namespace Quote

def lead (quote : Quote) : List Char := quote.before ++ '/' :: '/' :: quote.blanks.1

def source (quote : Quote) : List Char := quote.lead ++ (quote.text ++ quote.after)

def first (quote : Quote) : Nat := width quote.lead

def last (quote : Quote) : Nat := width (quote.lead ++ quote.text)

/-- The quote is taken from between two bytes of a header. -/
structure StandsIn (quote : Quote) (header : List Char) (first last : Nat) : Prop where
  source : quote.source = header
  first : first ≤ quote.first
  last : quote.last ≤ last
  trimmed : Trimmed quote.text

theorem StandsIn.mono {quote : Quote} {first last start stop : Nat}
    (h : quote.StandsIn header first last) (hstart : start ≤ first) (hstop : last ≤ stop) :
    quote.StandsIn header start stop :=
  ⟨h.source, Nat.le_trans hstart h.first, Nat.le_trans h.last hstop, h.trimmed⟩

end Quote

/-- The lines of a comment are quoted from between two bytes of a header, from one place after the
other. -/
structure Quoted (header : List Char) (first last : Nat) (comment : List (List Char))
    (quotes : List Quote) : Prop where
  text : comment = quotes.map Quote.text
  standing : ∀ quote ∈ quotes, quote.StandsIn header first last
  ordered : quotes.Pairwise fun before after => before.last ≤ after.first

theorem quoted_nil (header : List Char) (first last : Nat) : Quoted header first last [] [] :=
  ⟨rfl, by simp, .nil⟩

theorem quoted_singleton {quote : Quote} {first last : Nat} (h : quote.StandsIn header first last) :
    Quoted header first last [quote.text] [quote] :=
  ⟨rfl, by simpa using h, List.pairwise_singleton _ _⟩

theorem Quoted.mono {comment : List (List Char)} {quotes : List Quote} {first last start stop : Nat}
    (h : Quoted header first last comment quotes) (hstart : start ≤ first) (hstop : last ≤ stop) :
    Quoted header start stop comment quotes :=
  ⟨h.text, fun quote hquote => (h.standing quote hquote).mono hstart hstop, h.ordered⟩

theorem Quoted.concat {comment : List (List Char)} {quotes : List Quote} {quote : Quote}
    {first mid last : Nat} (h : Quoted header first mid comment quotes)
    (hquote : quote.StandsIn header mid last) (hfirst : first ≤ mid) (hlast : mid ≤ last) :
    Quoted header first last (comment ++ [quote.text]) (quotes ++ [quote]) := by
  refine ⟨by rw [h.text, List.map_append]; rfl, ?_, ?_⟩
  · rw [List.forall_mem_append, List.forall_mem_singleton]
    exact ⟨fun earlier hearlier => (h.standing earlier hearlier).mono (Nat.le_refl _) hlast,
      hquote.mono hfirst (Nat.le_refl _)⟩
  · rw [List.pairwise_append]
    refine ⟨h.ordered, List.pairwise_singleton _ _, fun earlier hearlier later hlater => ?_⟩
    rw [List.mem_singleton.mp hlater]
    exact Nat.le_trans (h.standing earlier hearlier).last hquote.first

theorem exists_quote_trim (pre body post : List Char) (hline : '\n' ∉ trim body) :
    ∃ quote : Quote, quote.text = trim body ∧
      quote.StandsIn (pre ++ '/' :: '/' :: (body ++ post)) (width pre)
        (width (pre ++ '/' :: '/' :: body)) := by
  obtain ⟨blanks, rear, hbody⟩ := Text.exists_trim body
  refine ⟨⟨pre, blanks, trim body, rear.1 ++ post⟩, rfl, ?_, ?_, ?_, trimmed_trim hline⟩
  · simp only [Quote.source, Quote.lead]
    nth_rewrite 2 [hbody]
    simp
  · simp only [Quote.first, Quote.lead, Text.width_append]
    omega
  · simp only [Quote.last, Quote.lead]
    nth_rewrite 2 [hbody]
    simp only [Text.width_append, Text.width_cons]
    omega

theorem exists_quote_line (h : commentText? line = some text) (hline : '\n' ∉ line)
    (pre post : List Char) : ∃ quote : Quote, quote.text = text ∧
      quote.StandsIn (pre ++ (line ++ post)) (width pre) (width (pre ++ line)) := by
  have hfree : '\n' ∉ text := fun hmem => hline (commentText?_subset h hmem)
  obtain ⟨⟨body, hbody⟩, rfl⟩ := commentText?_eq_some_iff.mp h
  obtain ⟨indent, trail, hsplit⟩ := Text.exists_trim line
  have htext : behindSlashes line = trim body := by
    rw [behindSlashes, ← hbody]
    rfl
  rw [htext] at hfree ⊢
  rw [← hbody] at hsplit
  obtain ⟨quote, hquote, hstands⟩ := exists_quote_trim (pre ++ indent.1) body (trail.1 ++ post) hfree
  have hheader : pre ++ (line ++ post) =
      pre ++ indent.1 ++ '/' :: '/' :: (body ++ (trail.1 ++ post)) := by
    rw [hsplit]
    simp
  have hstart : width pre ≤ width (pre ++ indent.1) := by
    rw [Text.width_append]
    exact Nat.le_add_right _ _
  have hstop : width (pre ++ indent.1 ++ '/' :: '/' :: body) ≤ width (pre ++ line) := by
    rw [hsplit]
    simp only [Text.width_append, Text.width_cons, Text.width_nil]
    omega
  rw [hheader]
  exact ⟨quote, hquote, hstands.mono hstart hstop⟩

theorem exists_quotes_lines (hfree : ∀ line ∈ lines, '\n' ∉ line) (pre post : List Char) :
    ∃ quotes, Quoted (pre ++ (['\n'].intercalate lines ++ post)) (width pre)
      (width (pre ++ ['\n'].intercalate lines)) (commentRun lines.reverse).reverse quotes := by
  induction lines using List.reverseRecOn generalizing post with
  | nil => exact ⟨[], quoted_nil _ _ _⟩
  | append_singleton lines line ih =>
    obtain ⟨hlines, hline⟩ := List.forall_mem_append.mp hfree
    obtain ⟨sep, hsep⟩ := Text.exists_intercalate_concat '\n' lines line
    rw [hsep, List.reverse_concat, commentRun]
    cases htext : commentText? line with
    | none => exact ⟨[], quoted_nil _ _ _⟩
    | some text =>
      obtain ⟨quotes, hquotes⟩ := ih hlines (sep ++ line ++ post)
      obtain ⟨quote, hquote, hstands⟩ := exists_quote_line htext (hline line List.mem_cons_self)
        (pre ++ ['\n'].intercalate lines ++ sep) post
      simp only [List.append_assoc] at hquotes hstands ⊢
      refine ⟨quotes ++ [quote], ?_⟩
      simp only [List.reverse_cons, ← hquote]
      refine (hquotes.mono (Nat.le_refl _) ?_).concat hstands ?_ ?_ <;>
        · simp only [Text.width_append]
          omega

theorem exists_dropLineEnd (cs : List Char) : ∃ ending, dropLineEnd cs ++ ending = cs := by
  change dropLineEnd cs <+: cs
  unfold dropLineEnd
  split
  · split
    · exact List.dropLast_prefix cs
    · exact List.prefix_refl cs
  · exact List.nil_prefix

theorem exists_quotes_above (hheader : header = before ++ (above ++ rest)) :
    ∃ quotes, Quoted header (width before) (width (before ++ above)) (commentAbove above) quotes := by
  obtain ⟨ending, hending⟩ := exists_dropLineEnd above
  have hfree : ∀ line ∈ (dropLineEnd above).splitOn '\n', '\n' ∉ line :=
    fun _ => Text.notMem_of_mem_splitOn
  obtain ⟨quotes, hquotes⟩ := exists_quotes_lines hfree before (ending ++ rest)
  rw [List.intercalate_splitOn, ← List.append_assoc _ ending, hending, ← hheader] at hquotes
  have hwidth := Text.width_le_of_prefix ⟨ending, hending⟩
  refine ⟨quotes, hquotes.mono (Nat.le_refl _) ?_⟩
  rw [Text.width_append, Text.width_append]
  exact Nat.add_le_add_left hwidth _

theorem exists_quotes_note {note : List Char} (hline : '\n' ∉ note) (pre post : List Char)
    (blanks : Blanks) :
    ∃ quotes, Quoted (pre ++ '/' :: '/' :: (blanks.1 ++ note ++ post)) (width pre)
      (width (pre ++ '/' :: '/' :: (blanks.1 ++ note))) [trim note] quotes := by
  have htrim : trim (blanks.1 ++ note) = trim note := Text.trim_append blanks.2 note
  have hfree : '\n' ∉ trim (blanks.1 ++ note) := by
    rw [htrim]
    exact fun hmem => hline (Text.mem_trim hmem)
  obtain ⟨quote, hquote, hstands⟩ := exists_quote_trim pre (blanks.1 ++ note) post hfree
  rw [← htrim, ← hquote]
  exact ⟨[quote], quoted_singleton hstands⟩

end EnumBinding.Header
