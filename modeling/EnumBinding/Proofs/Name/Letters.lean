import EnumBinding.Proofs.Name.GoName

/-!
# The letters of a name

The Go names of a C identifier hold its letters and digits, all of them and in
their order, though not in their case. Only a constant whose last word repeats
the first goes without those of its last word (`goNames_letters`).
-/

namespace EnumBinding.Name

/-- What is left of a text without its underscores and the case of its letters. -/
def letters (cs : List Char) : List Char := (cs.filter (· != '_')).map Char.toLower

variable {words parts : List Word} {first second : List Char}

@[simp] theorem letters_append (first second : List Char) :
    letters (first ++ second) = letters first ++ letters second := by
  simp [letters]

@[simp] theorem letters_underscore : letters ['_'] = [] := rfl

theorem letters_eq (cs : List Char) : letters cs = (cs.map Char.toLower).filter (· != '_') := by
  rw [letters, List.filter_map]
  congr 1
  apply List.filter_congr
  intro c _
  simp [bne, beq_eq_beq, toLower_eq_underscore]

theorem letters_congr (h : first.map Char.toLower = second.map Char.toLower) :
    letters first = letters second := by
  rw [letters_eq, h, letters_eq]

theorem letters_intercalate (words : List Word) :
    letters (['_'].intercalate words) = letters words.flatten := by
  induction words with
  | nil => rfl
  | cons word words ih =>
    cases words with
    | nil => simp
    | cons next words =>
      rw [List.intercalate_cons_cons, letters_append, letters_append, letters_underscore,
        List.append_nil, ih, ← letters_append, ← List.flatten_cons]

theorem letters_words (name : List Char) : letters (Name.words name).flatten = letters name := by
  rw [← letters_intercalate, intercalate_words]

-- ---------------------------------------------------------------------------
-- Casing and rewrites
-- ---------------------------------------------------------------------------

theorem letters_capitalized (h : ∀ word ∈ words, IsWord word) :
    letters (words.map Word.capitalize).flatten = letters words.flatten := by
  induction words with
  | nil => rfl
  | cons word words ih =>
    obtain ⟨hword, hwords⟩ := List.forall_mem_cons.mp h
    rw [List.map_cons, List.flatten_cons, List.flatten_cons, letters_append, letters_append,
      letters_congr (map_toLower_capitalize hword), ih hwords]

theorem Casing.letters_flatten (h : Casing words parts) (hwords : ∀ word ∈ words, IsWord word) :
    letters parts.flatten = letters words.flatten := by
  cases h with
  | @paired init second last _ _ _ =>
    have hinit : ∀ word ∈ init, IsWord word := fun word hword => hwords word (by simp [hword])
    have hjoined : letters (second ++ '_' :: last) = letters [second, last].flatten := by
      simpa using letters_intercalate [second, last]
    rw [List.flatten_append, List.flatten_append, letters_append, letters_append,
      letters_capitalized hinit, List.flatten_singleton, hjoined]
  | @closed init last _ =>
    obtain ⟨hinit, hlast⟩ := List.forall_mem_append.mp hwords
    rw [List.flatten_append, List.flatten_append, letters_append, letters_append,
      letters_capitalized hinit, List.flatten_singleton, List.flatten_singleton,
      letters_congr (map_toLower_close (hlast last (by simp)))]

theorem letters_closeOk (words : List Word) :
    letters (closeOk words).flatten = letters words.flatten := by
  rcases closeOk_cases words with hsame | ⟨init, rfl, hspelled⟩
  · rw [hsame]
  · have hok : letters "OK".toList = letters "Ok".toList := by decide
    rw [hspelled, List.flatten_append, List.flatten_append, letters_append, letters_append,
      List.flatten_singleton, List.flatten_singleton, hok]

theorem letters_dropRepeat {last : Word} (h : EndsAlike words) (hlast : words.getLast? = some last) :
    letters (dropRepeat words).flatten ++ letters last = letters words.flatten := by
  obtain ⟨first, mid, rfl⟩ := exists_repeat h
  rw [← List.cons_append, List.getLast?_concat, Option.some.injEq] at hlast
  rw [dropRepeat_repeat, ← hlast, ← letters_append, ← List.cons_append, List.flatten_append,
    List.flatten_singleton]

-- ---------------------------------------------------------------------------
-- Both names
-- ---------------------------------------------------------------------------

/-- The Go names keep the letters of a C identifier behind the library's prefix, but for a repeated
word that the constant drops. -/
theorem goNames_letters {raw : String} (h : Config.isIdentifier raw = true) :
    letters (ofType raw).toList = letters (stripLibrary raw.toList) ∧
    (EndsAlike (goWords raw.toList) → ∀ last ∈ (goWords raw.toList).getLast?,
      letters (ofConstant raw).toList ++ letters last = letters (stripLibrary raw.toList)) ∧
    (¬ EndsAlike (goWords raw.toList) →
      letters (ofConstant raw).toList = letters (stripLibrary raw.toList)) := by
  have hwords := isWord_words (isWord_of_isIdentifier h)
  have hcased : letters (goWords raw.toList).flatten = letters (stripLibrary raw.toList) := by
    rw [(casing_goWords raw.toList).letters_flatten fun word hword => (hwords word hword).1,
      letters_words]
  refine ⟨?_, fun hends last hlast => ?_, fun hends => ?_⟩
  · rw [ofType, String.toList_ofList, hcased]
  · rw [ofConstant, String.toList_ofList, letters_closeOk, letters_dropRepeat hends hlast, hcased]
  · rw [ofConstant, String.toList_ofList, letters_closeOk, dropRepeat_of_not hends, hcased]

/-- The last word is dropped, and the one before it spelled anew. -/
theorem goNames_letters_codecError :
    Config.isIdentifier "heif_error_Decoder_av1_error" = true ∧
      ofType "heif_error_Decoder_av1_error" = "ErrorDecoderAV1Error" ∧
      ofConstant "heif_error_Decoder_av1_error" = "ErrorDecoderAV1" ∧
      letters "ErrorDecoderAV1Error".toList = letters "error_Decoder_av1_error".toList ∧
      letters "ErrorDecoderAV1".toList ++ letters "Error".toList =
        letters "error_Decoder_av1_error".toList := by
  have hname : Config.isIdentifier "heif_error_Decoder_av1_error" = true := rfl
  have hends : EndsAlike (goWords "heif_error_Decoder_av1_error".toList) := by decide
  obtain ⟨htype, hconstant, -⟩ := goNames_letters hname
  exact ⟨hname, rfl, rfl, htype, hconstant hends _ rfl⟩

end EnumBinding.Name
