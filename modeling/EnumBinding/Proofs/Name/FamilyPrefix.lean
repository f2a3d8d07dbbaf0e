import EnumBinding.Family
import EnumBinding.Proofs.Name.CasingLaws

/-!
# Constants begin like their family

The constants of a family share the beginning of their C names, and so they
share the beginning of their Go names: what the common words make when they
name a type (`ofType_prefix_ofConstant`). Neither the casing of the words
behind them nor the rewrites at the end of a constant reach that far.
-/

namespace EnumBinding.Name

def isSmall (c : Char) : Bool := c.isLower || c.isDigit

/-- What the C names of a family's constants begin with: words of small letters and digits, the last
of which is not spelled anew at the end of a constant. -/
structure FamilyPrefix where
  words : List Word
  nonempty : words ≠ []
  small : ∀ word ∈ words, word.all isSmall = true
  not_ok : words.getLast? ≠ some "ok".toList

def FamilyPrefix.raw (family : FamilyPrefix) : String :=
  libraryPrefix ++ String.ofList (['_'].intercalate family.words)

variable {word : Word} {words behind : List Word} {c : Char}

-- ---------------------------------------------------------------------------
-- Small words
-- ---------------------------------------------------------------------------

theorem isIdentifierRest_of_isSmall (h : isSmall c = true) : Config.isIdentifierRest c = true := by
  rcases Bool.or_eq_true_iff.mp h with hlower | hdigit
  · have halpha : c.isAlpha = true := Bool.or_eq_true_iff.mpr (.inr hlower)
    simp [Config.isIdentifierRest, Char.isAlphanum, halpha]
  · exact Config.isIdentifierRest_of_isDigit hdigit

theorem toLower_of_isSmall (h : isSmall c = true) : c.toLower = c ∧ c.isUpper = false :=
  Text.forall_ascii (P := fun c => isSmall c = true → c.toLower = c ∧ c.isUpper = false) (by decide)
    (Config.toNat_lt_of_isIdentifierRest (isIdentifierRest_of_isSmall h)) h

theorem eq_ok_of_capitalize (h : word.all isSmall = true)
    (hok : Word.capitalize word = "Ok".toList) : word = "ok".toList := by
  have hword : IsWord word := fun c hc => isIdentifierRest_of_isSmall (List.all_eq_true.mp h c hc)
  have hsame : word.map Char.toLower = word := by
    rw [List.map_congr_left fun c hc => (toLower_of_isSmall (List.all_eq_true.mp h c hc)).1]
    exact List.map_id' word
  rw [← hsame, ← map_toLower_capitalize hword, hok]
  rfl

-- ---------------------------------------------------------------------------
-- Words behind others
-- ---------------------------------------------------------------------------

theorem words_append (hfree : ∀ word ∈ words, '_' ∉ word) (hne : words ≠ []) (cs : List Char) :
    Name.words (['_'].intercalate words ++ '_' :: cs) = words ++ Name.words cs := by
  induction words with
  | nil => exact absurd rfl hne
  | cons word words ih =>
    obtain ⟨hword, hwords⟩ := List.forall_mem_cons.mp hfree
    cases words with
    | nil =>
      rw [List.intercalate_singleton]
      exact List.splitOn_append_cons_self_of_not_mem hword cs
    | cons next words =>
      have hnext : Name.words (['_'].intercalate (next :: words) ++ '_' :: cs) =
          next :: words ++ Name.words cs := ih hwords (by simp)
      rw [List.intercalate_cons_cons, List.append_assoc, List.append_assoc, List.singleton_append,
        List.cons_append, ← hnext]
      exact List.splitOn_append_cons_self_of_not_mem hword _

theorem exists_behind_dropRepeat (words : List Word) (hne : behind ≠ []) :
    ∃ rest, dropRepeat (words ++ behind) = words ++ rest := by
  by_cases hends : EndsAlike (words ++ behind)
  · exact ⟨behind.dropLast,
      by rw [dropRepeat_of_endsAlike hends, List.dropLast_append_of_ne_nil hne]⟩
  · exact ⟨behind, dropRepeat_of_not hends⟩

theorem exists_behind_closeOk (hlast : words.getLast? ≠ some "Ok".toList) (behind : List Word) :
    ∃ rest, closeOk (words ++ behind) = words ++ rest := by
  rcases closeOk_cases (words ++ behind) with hsame | ⟨init, hsplit, hspelled⟩
  · exact ⟨behind, hsame⟩
  · rcases List.eq_nil_or_concat' behind with rfl | ⟨mid, last, rfl⟩
    · rw [List.append_nil] at hsplit
      exact absurd (by rw [hsplit, List.getLast?_concat]) hlast
    · rw [← List.append_assoc] at hsplit
      obtain ⟨rfl, -⟩ := List.append_singleton_inj.mp hsplit
      exact ⟨mid ++ ["OK".toList], by rw [hspelled, List.append_assoc]⟩

-- ---------------------------------------------------------------------------
-- The Go names of a family
-- ---------------------------------------------------------------------------

namespace FamilyPrefix

variable (family : FamilyPrefix)

theorem isAcronym : ∀ word ∈ family.words, word.isAcronym = false :=
  fun word hword => isAcronym_of_no_capital fun c hc =>
    (toLower_of_isSmall (List.all_eq_true.mp (family.small word hword) c hc)).2

theorem underscore_notMem : ∀ word ∈ family.words, '_' ∉ word :=
  fun word hword => Text.notMem_of_all (family.small word hword) rfl

theorem goWords_raw : goWords family.raw.toList = family.words.map Word.capitalize := by
  have hwords : Name.words (stripLibrary family.raw.toList) = family.words := by
    have hstrip : stripLibrary family.raw.toList = ['_'].intercalate family.words := by
      simp [stripLibrary, raw]
    rw [hstrip, Name.words, List.splitOn_intercalate '_' family.underscore_notMem family.nonempty]
  have hcasing := casing_goWords family.raw.toList
  rw [hwords] at hcasing
  exact hcasing.of_no_acronym family.isAcronym

theorem goWords_member (suffix : String) :
    ∃ behind, behind ≠ [] ∧ goWords (family.raw ++ "_" ++ suffix).toList =
      family.words.map Word.capitalize ++ behind := by
  have hwords : Name.words (stripLibrary (family.raw ++ "_" ++ suffix).toList) =
      family.words ++ Name.words suffix.toList := by
    have hstrip : stripLibrary (family.raw ++ "_" ++ suffix).toList =
        ['_'].intercalate family.words ++ '_' :: suffix.toList := by
      simp [stripLibrary, raw]
    rw [hstrip, words_append family.underscore_notMem family.nonempty]
  exact (casing_goWords _).exists_behind hwords family.isAcronym (List.splitOn_ne_nil '_' _)

theorem getLast?_capitalized :
    (family.words.map Word.capitalize).getLast? ≠ some "Ok".toList := by
  rw [List.getLast?_map, Ne, Option.map_eq_some_iff]
  rintro ⟨word, hlast, hok⟩
  have hsmall := family.small word (List.mem_of_getLast? hlast)
  exact family.not_ok (by rw [hlast, eq_ok_of_capitalize hsmall hok])

end FamilyPrefix

/-- Whatever follows the prefix of a family in the name of a constant, the Go name of the constant
begins with the prefix as a type would be named by it. -/
theorem ofType_prefix_ofConstant (family : FamilyPrefix) (suffix : String) :
    (ofType family.raw).toList <+: (ofConstant (family.raw ++ "_" ++ suffix)).toList := by
  obtain ⟨behind, hne, hwords⟩ := family.goWords_member suffix
  obtain ⟨left, hleft⟩ := exists_behind_dropRepeat (family.words.map Word.capitalize) hne
  obtain ⟨rest, hrest⟩ := exists_behind_closeOk family.getLast?_capitalized left
  rw [ofType, ofConstant, String.toList_ofList, String.toList_ofList, family.goWords_raw, hwords,
    hleft, hrest, List.flatten_append]
  exact List.prefix_append _ _

/-- The families that are generated unless a configuration says otherwise have such prefixes. -/
theorem exists_default_prefix (family : Family) (h : family ∈ defaultFamilies) :
    ∃ stem : FamilyPrefix, family.effectivePrefix = stem.raw := by
  have hprefixes : ∀ family ∈ defaultFamilies,
      let words := Name.words (stripLibrary family.effectivePrefix.toList)
      (words ≠ [] ∧ (∀ word ∈ words, word.all isSmall = true) ∧
        words.getLast? ≠ some "ok".toList) ∧
      family.effectivePrefix = libraryPrefix ++ String.ofList (['_'].intercalate words) := by decide
  obtain ⟨⟨nonempty, small, not_ok⟩, hraw⟩ := hprefixes family h
  exact ⟨⟨_, nonempty, small, not_ok⟩, hraw⟩

/-- A last `ok` is spelled anew where nothing is left behind it. -/
example : ofType "heif_ok" = "Ok" ∧ ofConstant "heif_ok_ok" = "OK" := ⟨rfl, rfl⟩

end EnumBinding.Name
