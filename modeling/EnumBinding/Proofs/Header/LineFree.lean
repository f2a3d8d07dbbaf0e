import EnumBinding.Proofs.Header.ScanLaws
import EnumBinding.Proofs.Header.VersionLaws
import EnumBinding.Proofs.Outcomes

/-!
# What is read fits on a line

Whatever the headers hold, a version expression and the lines of a comment
have no line end in them.
-/

namespace EnumBinding.Header

open Text (isBlank isIndent)

variable {stem raw cs rest note header : List Char} {entry : Entry} {lineStart : Bool} {c : Char}
  {name version : String} {member : Member} {block : Block} {ms : List Member}

-- ---------------------------------------------------------------------------
-- Versions
-- ---------------------------------------------------------------------------

namespace Version

theorem definition?_lineFree {name : List Char} (h : definition? name cs = some rest) :
    '\n' ∉ rest := by
  obtain ⟨definition, _, _, _, rfl⟩ := exists_definition h
  exact definition.expression.2.2

theorem find?_lineFree {name : List Char} (h : find? name lineStart cs = some rest) :
    '\n' ∉ rest := by
  obtain ⟨_, _, _, _, hread, _⟩ := exists_first h
  exact definition?_lineFree hread

theorem mergePairs_subset (cs : List Char) : mergePairs cs ⊆ cs := by
  induction cs using mergePairs.induct with
  | case1 cs ih =>
    rw [mergePairs]
    exact List.cons_subset_cons _ (List.Subset.trans ih (List.subset_cons_self _ _))
  | case2 c cs hne ih =>
    rw [mergePairs]
    · exact List.cons_subset_cons _ ih
    · exact hne
  | case3 => exact List.Subset.refl _

theorem collapse_subset (cs : List Char) : collapse cs ⊆ cs := by
  induction cs using collapse.induct with
  | case1 cs hpair ih =>
    rw [collapse, if_pos hpair]
    exact List.Subset.trans ih (mergePairs_subset cs)
  | case2 cs hpair =>
    rw [collapse, if_neg hpair]
    exact List.Subset.refl _

theorem normalize_subset (cs : List Char) : normalize cs ⊆ cs := by
  have hcollapse : collapse (Text.trim cs) ⊆ cs :=
    List.Subset.trans (collapse_subset _) fun _ => Text.mem_trim
  unfold normalize
  simp only
  split
  · exact List.Subset.trans (List.take_subset _ _) hcollapse
  · exact hcollapse

end Version

theorem version?_lineFree {header : String} (h : version? header name = some version) :
    '\n' ∉ version.toList := by
  obtain ⟨expression, hfound, rfl⟩ := Option.map_eq_some_iff.mp h
  rw [String.toList_ofList]
  intro hmem
  exact Version.find?_lineFree hfound (Version.normalize_subset _ hmem)

-- ---------------------------------------------------------------------------
-- Comments
-- ---------------------------------------------------------------------------

namespace Entry

def LineFree (entry : Entry) : Prop := ∀ note ∈ entry.note, '\n' ∉ note

theorem close?_lineFree (h : close? raw cs = some (entry, rest)) : entry.LineFree := by
  unfold close? at h
  split at h
  · cases h
    exact fun _ hnote => nomatch hnote
  · cases h
    exact fun _ hnote => nomatch hnote
  · obtain ⟨⟨note, after⟩, hnote, heq⟩ := Option.map_eq_some_iff.mp h
    cases heq
    obtain ⟨_, tail, -, -, hnext⟩ := Text.afterRun?_eq_some hnote
    split at hnext
    · cases hnext
    · cases hnext
      rintro _ ⟨⟩ hmem
      simpa using List.all_eq_true.mp List.all_takeWhile _ hmem
  · cases h

theorem value?_lineFree (h : value? raw cs = some (entry, rest)) : entry.LineFree := by
  unfold value? at h
  split at h
  · split at h
    · cases h
    · exact close?_lineFree h
  · cases h

theorem indented?_lineFree (h : indented? stem cs = some (entry, rest)) : entry.LineFree := by
  obtain ⟨_, named, -, -, hnamed⟩ := Text.afterRun?_eq_some h
  obtain ⟨_, _, -, -, -, hvalue⟩ := named?_eq_some hnamed
  exact value?_lineFree hvalue

theorem read?_lineFree (h : read? stem lineStart cs = some (entry, rest)) : entry.LineFree := by
  unfold read? at h
  split at h
  · next found hfound =>
    cases h
    cases lineStart with
    | false => cases hfound
    | true => exact indented?_lineFree hfound
  · split at h
    · exact indented?_lineFree h
    · cases h

theorem next?_lineFree {passed gap : List Char}
    (h : next? stem lineStart passed cs = some (gap, entry, rest)) :
    entry.LineFree := by
  induction cs generalizing lineStart passed with
  | nil => cases h
  | cons c cs ih =>
    unfold next? at h
    split at h
    · next hread =>
      cases h
      exact read?_lineFree hread
    · exact ih h

theorem all_lineFree {gap : List Char} (h : (gap, entry) ∈ all stem lineStart cs) :
    entry.LineFree := by
  induction lineStart, cs using all.induct stem with
  | case1 lineStart cs hnone =>
    rw [all_of_next?_eq_none hnone] at h
    cases h
  | case2 lineStart cs gap entry rest hsome ih =>
    rw [all_of_next?_eq_some hsome] at h
    rcases List.mem_cons.mp h with heq | h
    · cases heq
      exact next?_lineFree hsome
    · exact ih h

end Entry

theorem commentText?_subset {line text : List Char} (h : commentText? line = some text) :
    text ⊆ line := by
  obtain ⟨body, hbody, rfl⟩ := Option.map_eq_some_iff.mp h
  rw [Text.after?_eq_some_iff] at hbody
  intro c hc
  apply Text.mem_trim
  rw [hbody]
  exact List.mem_append_right _ (Text.mem_trim hc)

theorem mem_commentRun {lines : List (List Char)} {text : List Char} (h : text ∈ commentRun lines) :
    ∃ line ∈ lines, text ⊆ line := by
  induction lines with
  | nil => cases h
  | cons line lines ih =>
    unfold commentRun at h
    split at h
    · next first hfirst =>
      rcases List.mem_cons.mp h with rfl | h
      · exact ⟨line, List.mem_cons_self, commentText?_subset hfirst⟩
      · obtain ⟨other, hother, hsubset⟩ := ih h
        exact ⟨other, List.mem_cons_of_mem line hother, hsubset⟩
    · cases h

theorem commentAbove_lineFree {above text : List Char} (h : text ∈ commentAbove above) :
    '\n' ∉ text := by
  obtain ⟨line, hline, hsubset⟩ := mem_commentRun (List.mem_reverse.mp h)
  exact fun hmem => Text.notMem_of_mem_splitOn (List.mem_reverse.mp hline) (hsubset hmem)

def Member.LineFree (member : Member) : Prop := ∀ text ∈ member.comment, '\n' ∉ text.toList

theorem Entry.toMember_lineFree (h : entry.LineFree) (above : List Char) :
    (entry.toMember above).LineFree := by
  intro text htext
  unfold Entry.toMember at htext
  cases hn : entry.note with
  | none =>
    simp only [hn, List.mem_map] at htext
    obtain ⟨line, hline, rfl⟩ := htext
    simpa using commentAbove_lineFree hline
  | some note =>
    simp only [hn, List.mem_singleton] at htext
    subst htext
    rw [String.toList_ofList]
    exact fun hmem => h note hn (Text.mem_trim hmem)

theorem Block.members_lineFree (h : block.members stem header = .ok ms) (hm : member ∈ ms) :
    member.LineFree := by
  unfold Block.members at h
  split at h
  · cases h
  · simp only at h
    split at h
    · cases h
      cases hm
    · next gap entry others hall =>
      have hfree : ∀ found ∈ (gap, entry) :: others, found.2.LineFree := by
        intro found hfound
        rw [← hall] at hfound
        exact Entry.all_lineFree hfound
      obtain ⟨hentry, hothers⟩ := List.forall_mem_cons.mp hfree
      obtain ⟨above, rfl⟩ : ∃ above, ms = entry.toMember above ::
          others.map fun found => found.2.toMember found.1 := by
        cases hn : entry.note with
        | some note =>
          simp only [hn] at h
          cases h
          exact ⟨[], rfl⟩
        | none =>
          simp only [hn] at h
          obtain ⟨above, -, h⟩ := Outcomes.bind_eq_ok.mp h
          cases h
          exact ⟨above, rfl⟩
      rcases List.mem_cons.mp hm with rfl | hm
      · exact Entry.toMember_lineFree hentry above
      · obtain ⟨found, hfound, rfl⟩ := List.mem_map.mp hm
        exact Entry.toMember_lineFree (hothers found hfound) found.1

end EnumBinding.Header
