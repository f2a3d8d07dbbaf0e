import EnumBinding.Proofs.Name.GoName

/-!
# Which Go names are exported

Go exports a name that begins with a capital. The Go names of a C identifier
are words of ASCII letters and digits run together; an underscore stands
between two closing acronyms and nowhere else. A name is exported exactly if
its first word that is not empty begins with a letter, unless that is a small
letter of a word that keeps its spelling (`goNames_spelled`).
-/

namespace EnumBinding.Name

/-- Whether the word at an index keeps its spelling: an acronym in the last place, or in the place
before it if the two close a name of more than two words. -/
def Verbatim (words : List Word) (index : Nat) : Prop :=
  (index + 1 = words.length ∧ words.getLast?.any Word.isAcronym = true) ∨
    (index + 2 = words.length ∧ EndsInPair words)

instance (words : List Word) (index : Nat) : Decidable (Verbatim words index) :=
  inferInstanceAs (Decidable (_ ∨ _))

/-- The first word that is not empty begins with a letter, and with a capital if it keeps its
spelling. -/
def Exportable (words : List Word) : Prop :=
  ∃ before c rest after, words = before ++ (c :: rest) :: after ∧ (∀ word ∈ before, word = []) ∧
    c.isAlpha = true ∧ (c.isUpper = true ∨ ¬ Verbatim words before.length)

def IsExported (name : List Char) : Prop := ∃ c ∈ name.head?, c.isUpper = true

/-- How a Go name made from words is spelled. -/
structure Spelled (words : List Word) (name : List Char) : Prop where
  isWord : IsWord name
  underscores_le : name.count '_' ≤ 1
  underscore_iff : name.count '_' = 1 ↔ EndsInPair words
  exported_iff : IsExported name ↔ Exportable words

variable {word first last : Word} {words parts before after init rest : List Word}
  {tail : List Char} {c : Char}

-- ---------------------------------------------------------------------------
-- Underscores
-- ---------------------------------------------------------------------------

theorem count_flatten (h : ∀ word ∈ words, '_' ∉ word) : words.flatten.count '_' = 0 := by
  rw [List.count_eq_zero, List.mem_flatten]
  rintro ⟨word, hword, hmem⟩
  exact h word hword hmem

theorem free_capitalized (h : ∀ word ∈ words, IsWord word ∧ '_' ∉ word) :
    ∀ part ∈ words.map Word.capitalize, '_' ∉ part :=
  List.forall_mem_map.mpr fun word hword => notMem_capitalize (h word hword).1 (h word hword).2

theorem Casing.count_underscore (h : Casing words parts)
    (hwords : ∀ word ∈ words, IsWord word ∧ '_' ∉ word) :
    parts.flatten.count '_' = if EndsInPair words then 1 else 0 := by
  cases h with
  | @paired init second last hinit hsecond hlast =>
    obtain ⟨hcapitals, hpair⟩ := List.forall_mem_append.mp hwords
    have hfree : '_' ∉ second ∧ '_' ∉ last := ⟨(hpair second (by simp)).2, (hpair last (by simp)).2⟩
    rw [if_pos (endsInPair_append.mpr ⟨hinit, hsecond, hlast⟩), List.flatten_append,
      List.count_append, count_flatten (free_capitalized hcapitals)]
    simp [List.count_eq_zero_of_not_mem hfree.1, List.count_eq_zero_of_not_mem hfree.2]
  | @closed init last hopen =>
    obtain ⟨hcapitals, hclose⟩ := List.forall_mem_append.mp hwords
    have hlast := hclose last (by simp)
    rw [if_neg hopen, List.flatten_append, List.count_append,
      count_flatten (free_capitalized hcapitals), Nat.zero_add, List.flatten_singleton]
    exact List.count_eq_zero_of_not_mem (notMem_close hlast.1 hlast.2)

theorem Casing.head_free (h : Casing words parts)
    (hwords : ∀ word ∈ words, IsWord word ∧ '_' ∉ word) (hparts : parts = first :: rest)
    (hrest : rest ≠ []) : '_' ∉ first := by
  have hinit : ∀ (init : List Word) (part : Word), (∀ word ∈ init, IsWord word ∧ '_' ∉ word) →
      init.map Word.capitalize ++ [part] = first :: rest → '_' ∉ first := by
    intro init part hfree hsplit
    cases init with
    | nil => exact absurd (List.cons.inj hsplit).2.symm hrest
    | cons word init =>
      rw [← (List.cons.inj hsplit).1]
      exact notMem_capitalize (hfree word (by simp)).1 (hfree word (by simp)).2
  cases h with
  | paired => exact hinit _ _ (fun word hword => hwords word (by simp [hword])) hparts
  | closed => exact hinit _ _ (fun word hword => hwords word (by simp [hword])) hparts

theorem count_closeOk (words : List Word) :
    (closeOk words).flatten.count '_' = words.flatten.count '_' := by
  rcases closeOk_cases words with hsame | ⟨init, rfl, hspelled⟩
  · rw [hsame]
  · rw [hspelled]
    simp

theorem Casing.count_constant (h : Casing words parts)
    (hwords : ∀ word ∈ words, IsWord word ∧ '_' ∉ word) :
    (closeOk (dropRepeat parts)).flatten.count '_' = parts.flatten.count '_' := by
  rw [count_closeOk]
  by_cases hends : EndsAlike parts
  · obtain ⟨first, mid, hparts⟩ := exists_repeat hends
    have hfree := h.head_free hwords hparts (by simp)
    rw [hparts, dropRepeat_repeat]
    simp [List.count_eq_zero_of_not_mem hfree]
  · rw [dropRepeat_of_not hends]

-- ---------------------------------------------------------------------------
-- The first character
-- ---------------------------------------------------------------------------

theorem head?_capitalize (hascii : c.toNat < 128) (tail : List Char) :
    (Word.capitalize (c :: tail)).head? = some c.toUpper := by
  rw [Word.capitalize, Text.upper_of_ascii hascii, List.singleton_append]
  unfold spellCodec
  split <;> simp_all

theorem flatten_capitalize_empty (h : ∀ word ∈ before, word = []) :
    (before.map Word.capitalize).flatten = [] := by
  refine List.flatten_eq_nil_iff.mpr (List.forall_mem_map.mpr fun word hword => ?_)
  rw [h word hword, Word.capitalize_nil]

theorem isAcronym_ne_nil (h : word.isAcronym = true) : word ≠ [] := by
  rintro rfl
  cases h

theorem cons_eq_concat (h : before ++ word :: after = init ++ [last]) :
    (∃ mid, init = before ++ word :: mid) ∨ (before = init ∧ word = last) := by
  rcases List.eq_nil_or_concat' after with rfl | ⟨mid, other, rfl⟩
  · exact .inr (List.append_singleton_inj.mp h)
  · rw [← List.cons_append, ← List.append_assoc, List.append_singleton_inj] at h
    exact .inl ⟨mid, h.1.symm⟩

theorem head?_capitalized (hbefore : ∀ word ∈ before, word = []) (hascii : c.toNat < 128)
    (mid rest : List Word) :
    ((before ++ (c :: tail) :: mid).map Word.capitalize ++ rest).flatten.head? =
      some c.toUpper := by
  rw [List.map_append, List.append_assoc, List.flatten_append, flatten_capitalize_empty hbefore,
    List.nil_append, List.map_cons, List.cons_append, List.flatten_cons, List.head?_append,
    head?_capitalize hascii]
  rfl

theorem verbatim_last : Verbatim (init ++ [last]) init.length ↔ last.isAcronym = true := by
  simp [Verbatim]

theorem verbatim_second {second : Word} :
    Verbatim (init ++ [second, last]) init.length ↔ EndsInPair (init ++ [second, last]) := by
  simp [Verbatim]

/-- The first word that is not empty gives the name its first character, in its own spelling or as a
capital. -/
theorem Casing.head?_flatten (h : Casing words parts)
    (hwords : words = before ++ (c :: tail) :: after) (hbefore : ∀ word ∈ before, word = [])
    (hascii : c.toNat < 128) :
    parts.flatten.head? = some (if Verbatim words before.length then c else c.toUpper) := by
  cases h with
  | @paired init second last hinit hsecond hlast =>
    -- It cannot be the last word, since the acronym before that is not empty.
    have hsplit : before ++ (c :: tail) :: after = init ++ [second] ++ [last] := by
      rw [← hwords, List.append_assoc, List.singleton_append]
    rcases cons_eq_concat hsplit with ⟨mid, hfirst⟩ | ⟨rfl, -⟩
    · rcases cons_eq_concat hfirst.symm with ⟨mid, rfl⟩ | ⟨rfl, rfl⟩
      · rw [head?_capitalized hbefore hascii, if_neg]
        simp only [Verbatim, List.length_append, List.length_cons]
        omega
      · have hpair := endsInPair_append.mpr ⟨hinit, hsecond, hlast⟩
        rw [if_pos (verbatim_second.mpr hpair), List.flatten_append,
          flatten_capitalize_empty hbefore]
        rfl
    · exact absurd (hbefore second (by simp)) (isAcronym_ne_nil hsecond)
  | @closed init last hopen =>
    rcases cons_eq_concat hwords.symm with ⟨mid, rfl⟩ | ⟨rfl, rfl⟩
    · rw [head?_capitalized hbefore hascii, if_neg]
      rintro (⟨hindex, -⟩ | ⟨-, hpair⟩)
      · simp only [List.length_append, List.length_cons] at hindex
        omega
      · exact hopen hpair
    · simp only [verbatim_last]
      rw [List.flatten_append, flatten_capitalize_empty hbefore, List.nil_append,
        List.flatten_singleton, Word.close]
      split
      · rfl
      · exact head?_capitalize hascii tail

theorem Casing.flatten_of_empty (h : Casing words parts) (hwords : ∀ word ∈ words, word = []) :
    parts.flatten = [] := by
  cases h with
  | @paired init second last _ hsecond _ =>
    exact absurd (hwords second (by simp)) (isAcronym_ne_nil hsecond)
  | @closed init last _ =>
    obtain ⟨hinit, hlast⟩ := List.forall_mem_append.mp hwords
    rw [List.flatten_append, flatten_capitalize_empty hinit, hlast last (by simp)]
    rfl

theorem exists_first (h : ∃ word ∈ words, word ≠ []) : ∃ before c tail after,
    words = before ++ (c :: tail) :: after ∧ ∀ word ∈ before, word = [] := by
  obtain ⟨word, hword, hne⟩ := h
  have hsome : (words.find? (!·.isEmpty)).isSome := by
    rw [List.find?_isSome]
    exact ⟨word, hword, by simpa using hne⟩
  obtain ⟨found, hfound⟩ := Option.isSome_iff_exists.mp hsome
  obtain ⟨hfull, before, after, hwords, hbefore⟩ := List.find?_eq_some_iff_append.mp hfound
  obtain ⟨c, tail, rfl⟩ := List.exists_cons_of_ne_nil (by simpa using hfull)
  exact ⟨before, c, tail, after, hwords, fun word hword => by simpa using hbefore word hword⟩

theorem isUpper_spelled (h : Config.isIdentifierRest c = true) (stays : Prop) [Decidable stays] :
    (if stays then c else c.toUpper).isUpper = true ↔
      c.isAlpha = true ∧ (c.isUpper = true ∨ ¬ stays) := by
  have hascii := Config.toNat_lt_of_isIdentifierRest h
  have halpha : c.isUpper = true → c.isAlpha = true := fun hupper =>
    Bool.or_eq_true_iff.mpr (.inl hupper)
  have hcapital : c.toUpper.isUpper = true ↔ c.isAlpha = true :=
    Text.forall_ascii (P := fun c => c.toUpper.isUpper = true ↔ c.isAlpha = true) (by decide) hascii
  split
  · next hstays => simpa [hstays] using halpha
  · next hstays =>
    rw [hcapital]
    simp [hstays]

theorem Casing.exported_iff (h : Casing words parts)
    (hwords : ∀ word ∈ words, IsWord word ∧ '_' ∉ word) :
    IsExported parts.flatten ↔ Exportable words := by
  have hletter : ∀ {before c tail after}, words = before ++ (c :: tail) :: after →
      Config.isIdentifierRest c = true := by
    rintro before c tail after rfl
    exact (isWord_cons.mp (hwords (c :: tail) (by simp)).1).1
  constructor
  · rintro ⟨d, hd, hupper⟩
    have hfull : ∃ word ∈ words, word ≠ [] := by
      by_contra hempty
      push Not at hempty
      rw [h.flatten_of_empty hempty] at hd
      cases hd
    obtain ⟨before, c, tail, after, hsplit, hbefore⟩ := exists_first hfull
    have hc := hletter hsplit
    have hhead := h.head?_flatten hsplit hbefore (Config.toNat_lt_of_isIdentifierRest hc)
    obtain rfl := Option.some.inj (hhead.symm.trans hd)
    exact ⟨before, c, tail, after, hsplit, hbefore, (isUpper_spelled hc _).mp hupper⟩
  · rintro ⟨before, c, tail, after, hsplit, hbefore, hspelled⟩
    have hc := hletter hsplit
    have hhead := h.head?_flatten hsplit hbefore (Config.toNat_lt_of_isIdentifierRest hc)
    exact ⟨_, hhead, (isUpper_spelled hc _).mpr hspelled⟩

theorem head?_closeOk (words : List Word) :
    (closeOk words).flatten.head? = words.flatten.head? := by
  rcases closeOk_cases words with hsame | ⟨init, rfl, hspelled⟩
  · rw [hsame]
  · rw [hspelled]
    cases hinit : init.flatten <;> simp [hinit]

theorem head?_dropRepeat (words : List Word) :
    (dropRepeat words).flatten.head? = words.flatten.head? := by
  by_cases hends : EndsAlike words
  · obtain ⟨first, mid, rfl⟩ := exists_repeat hends
    rw [dropRepeat_repeat]
    cases first <;> simp
  · rw [dropRepeat_of_not hends]

-- ---------------------------------------------------------------------------
-- Both names
-- ---------------------------------------------------------------------------

theorem Casing.spelled {name : List Char} (h : Casing words parts)
    (hwords : ∀ word ∈ words, IsWord word ∧ '_' ∉ word) (hname : IsWord name)
    (hcount : name.count '_' = parts.flatten.count '_')
    (hhead : name.head? = parts.flatten.head?) : Spelled words name := by
  rw [h.count_underscore hwords] at hcount
  refine ⟨hname, ?_, ?_, ?_⟩
  · rw [hcount]
    split <;> omega
  · rw [hcount]
    split <;> simp_all
  · rw [IsExported, hhead]
    exact h.exported_iff hwords

/-- The Go names of a C identifier, for constants and for types, as its words decide them. -/
theorem goNames_spelled {raw : String} (h : Config.isIdentifier raw = true) :
    Spelled (Name.words (stripLibrary raw.toList)) (ofConstant raw).toList ∧
      Spelled (Name.words (stripLibrary raw.toList)) (ofType raw).toList := by
  have hraw := isWord_of_isIdentifier h
  have hwords := isWord_words hraw
  have hcasing := casing_goWords raw.toList
  constructor
  · apply hcasing.spelled hwords (isWord_ofConstant hraw)
    · rw [ofConstant, String.toList_ofList]
      exact hcasing.count_constant hwords
    · rw [ofConstant, String.toList_ofList, head?_closeOk, head?_dropRepeat]
  · apply hcasing.spelled hwords (isWord_ofType hraw)
    · rw [ofType, String.toList_ofList]
    · rw [ofType, String.toList_ofList]

/-- The word that the name begins with is one of two closing acronyms, so its small letter stays. -/
theorem goNames_spelled_smallAcronym :
    let words := ["".toList, "yCbCr".toList, "BE".toList]
    Config.isIdentifier "heif__yCbCr_BE" = true ∧ ofConstant "heif__yCbCr_BE" = "yCbCr_BE" ∧
      Spelled words "yCbCr_BE".toList ∧ ¬ Exportable words := by
  have hname : Config.isIdentifier "heif__yCbCr_BE" = true := rfl
  have hspelled := (goNames_spelled hname).1
  have hsmall : ¬ IsExported "yCbCr_BE".toList := by
    rintro ⟨c, ⟨⟩, ⟨⟩⟩
  exact ⟨hname, rfl, hspelled, fun h => hsmall (hspelled.exported_iff.mpr h)⟩

end EnumBinding.Name
