import EnumBinding.Proofs.Name.CasingLaws

/-!
# Names that collide

Names of the library made of plain words, which hold small ASCII letters only,
keep their words in the Go names of types: the capitals tell where each word
begins. The Go name of a constant may forget how its name ends, but nothing
else: it is decided by the words that `kept` leaves (`plain_names_agree_iff`).
-/

namespace EnumBinding.Name

open Text (Stops)

def Word.IsPlain (word : Word) : Prop := word ≠ [] ∧ word.all Char.isLower = true

instance (word : Word) : Decidable word.IsPlain := inferInstanceAs (Decidable (_ ∧ _))

/-- The words of a name of the library, all of them plain. -/
@[ext] structure PlainName where
  words : List Word
  nonempty : words ≠ []
  plain : ∀ word ∈ words, word.IsPlain

def PlainName.raw (name : PlainName) : String :=
  libraryPrefix ++ String.ofList (['_'].intercalate name.words)

/-- The words without the last one, if there are at least two and it is the first one again. -/
def distinct (words : List Word) : List Word :=
  if 2 ≤ words.length ∧ words.getLast? = words.head? then words.dropLast else words

/-- The words with a last `ok` taken apart into two words of one letter. -/
def spreadOk (words : List Word) : List Word :=
  if words.getLast? = some ['o', 'k'] then words.dropLast ++ [['o'], ['k']] else words

def kept (words : List Word) : List Word := spreadOk (distinct words)

variable {word other : Word} {words others : List Word} {cs first second : List Char} {c d : Char}

-- ---------------------------------------------------------------------------
-- Capitals
-- ---------------------------------------------------------------------------

theorem toNat_of_isLower (h : c.isLower = true) : 97 ≤ c.toNat ∧ c.toNat ≤ 122 := by
  obtain ⟨hfirst, hlast⟩ := Bool.and_eq_true_iff.mp h
  exact ⟨UInt32.le_iff_toNat_le.mp (of_decide_eq_true hfirst),
    UInt32.le_iff_toNat_le.mp (of_decide_eq_true hlast)⟩

theorem isUpper_of_isLower (h : c.isLower = true) : c.isUpper = false := by
  have hlower := toNat_of_isLower h
  rw [Bool.eq_false_iff]
  intro hupper
  obtain ⟨-, hlast⟩ := of_decide_eq_true hupper
  have hcode : c.toNat ≤ 90 := UInt32.le_iff_toNat_le.mp hlast
  omega

theorem toNat_lt_of_isLower (h : c.isLower = true) : c.toNat < 128 :=
  Nat.lt_of_le_of_lt (toNat_of_isLower h).2 (by decide)

theorem toUpper_of_isLower (h : c.isLower = true) :
    c.toUpper.isLower = false ∧ c.toUpper.toLower = c :=
  Text.forall_ascii
    (P := fun c => c.isLower = true → c.toUpper.isLower = false ∧ c.toUpper.toLower = c)
    (by decide) (toNat_lt_of_isLower h) h

theorem toUpper_ne_one (h : c.isLower = true) : '1' ≠ c.toUpper :=
  Text.forall_ascii (P := fun c => c.isLower = true → '1' ≠ c.toUpper) (by decide)
    (toNat_lt_of_isLower h) h

theorem spellCodec_eq_self (h : '1' ∉ cs) : spellCodec cs = cs := by
  induction cs using spellCodec.induct with
  | case1 rest => simp at h
  | case2 c rest hne ih =>
    rw [List.mem_cons, not_or] at h
    rw [spellCodec, ih h.2]
    exact hne
  | case3 => rfl

theorem Word.IsPlain.isAcronym (h : word.IsPlain) : word.isAcronym = false :=
  isAcronym_of_no_capital fun c hc => isUpper_of_isLower (List.all_eq_true.mp h.2 c hc)

theorem Word.IsPlain.capitalize (h : word.IsPlain) :
    ∃ c rest, word = c :: rest ∧ c.isLower = true ∧ rest.all Char.isLower = true ∧
      Word.capitalize word = c.toUpper :: rest := by
  obtain ⟨hne, hlower⟩ := h
  obtain ⟨c, rest, rfl⟩ := List.exists_cons_of_ne_nil hne
  rw [List.all_cons, Bool.and_eq_true] at hlower
  have hrest : '1' ∉ rest := Text.notMem_of_all hlower.2 rfl
  have hcodec : '1' ∉ c.toUpper :: rest :=
    List.not_mem_cons_of_ne_of_not_mem (toUpper_ne_one hlower.1) hrest
  refine ⟨c, rest, rfl, hlower.1, hlower.2, ?_⟩
  rw [Word.capitalize, Text.upper_of_ascii (toNat_lt_of_isLower hlower.1)]
  exact spellCodec_eq_self hcodec

-- ---------------------------------------------------------------------------
-- Words run together
-- ---------------------------------------------------------------------------

theorem capitalize_append_inj (hword : word.IsPlain) (hother : other.IsPlain)
    (hfirst : Stops Char.isLower first) (hsecond : Stops Char.isLower second)
    (h : Word.capitalize word ++ first = Word.capitalize other ++ second) :
    word = other ∧ first = second := by
  obtain ⟨c, rest, rfl, hc, hrest, hcapital⟩ := hword.capitalize
  obtain ⟨d, tail, rfl, hd, htail, hcapitalOther⟩ := hother.capitalize
  rw [hcapital, hcapitalOther, List.cons_append, List.cons_append] at h
  obtain ⟨hhead, hbehind⟩ := List.cons.inj h
  have hletter : c = d := by
    rw [← (toUpper_of_isLower hc).2, hhead, (toUpper_of_isLower hd).2]
  have hletters : rest = tail := by
    rw [← Text.takeWhile_run hrest hfirst, hbehind, Text.takeWhile_run htail hsecond]
  have hafter : first = second := by
    rw [← Text.dropWhile_run hrest hfirst, hbehind, Text.dropWhile_run htail hsecond]
  exact ⟨by rw [hletter, hletters], hafter⟩

theorem capitalize_inj (hword : word.IsPlain) (hother : other.IsPlain) :
    Word.capitalize word = Word.capitalize other ↔ word = other := by
  refine ⟨fun h => ?_, congrArg _⟩
  exact (capitalize_append_inj hword hother Text.stops_nil Text.stops_nil (by rw [h])).1

theorem stops_capitalized (h : ∀ word ∈ words, word.IsPlain) :
    Stops Char.isLower (words.map Word.capitalize).flatten := by
  cases words with
  | nil => exact Text.stops_nil
  | cons word words =>
    obtain ⟨c, rest, -, hc, -, hcapital⟩ := (h word List.mem_cons_self).capitalize
    simp [hcapital, (toUpper_of_isLower hc).1]

/-- Capitalized words can be told apart after they were run together. -/
theorem capitalized_inj (hwords : ∀ word ∈ words, word.IsPlain)
    (hothers : ∀ word ∈ others, word.IsPlain)
    (h : (words.map Word.capitalize).flatten = (others.map Word.capitalize).flatten) :
    words = others := by
  induction words generalizing others with
  | nil =>
    cases others with
    | nil => rfl
    | cons other others =>
      obtain ⟨c, rest, -, -, -, hcapital⟩ := (hothers other List.mem_cons_self).capitalize
      simp [hcapital] at h
  | cons word words ih =>
    obtain ⟨hword, hwords⟩ := List.forall_mem_cons.mp hwords
    cases others with
    | nil =>
      obtain ⟨c, rest, -, -, -, hcapital⟩ := hword.capitalize
      simp [hcapital] at h
    | cons other others =>
      obtain ⟨hother, hothers⟩ := List.forall_mem_cons.mp hothers
      obtain ⟨hsame, hrest⟩ := capitalize_append_inj hword hother (stops_capitalized hwords)
        (stops_capitalized hothers) h
      rw [hsame, ih hwords hothers hrest]

-- ---------------------------------------------------------------------------
-- The words of the Go names
-- ---------------------------------------------------------------------------

theorem cased_plain (h : ∀ word ∈ words, word.IsPlain) : cased words = words.map Word.capitalize := by
  by_cases hne : words = []
  · rw [hne]
    rfl
  · exact (casing_cased hne).of_no_acronym fun word hword => (h word hword).isAcronym

theorem goWords_raw (name : PlainName) :
    goWords name.raw.toList = name.words.map Word.capitalize := by
  have hfree : ∀ word ∈ name.words, '_' ∉ word := fun word hword =>
    Text.notMem_of_all (name.plain word hword).2 rfl
  have hstrip : stripLibrary name.raw.toList = ['_'].intercalate name.words := by
    simp [stripLibrary, PlainName.raw]
  rw [goWords, hstrip, Name.words, List.splitOn_intercalate '_' hfree name.nonempty]
  exact cased_plain name.plain

theorem capitalized_ends_iff {word? other? : Option Word} (hword : ∀ word ∈ word?, word.IsPlain)
    (hother : ∀ word ∈ other?, word.IsPlain) :
    word?.map Word.capitalize = other?.map Word.capitalize ↔ word? = other? := by
  refine ⟨fun h => ?_, congrArg _⟩
  cases word? with
  | none => simpa [eq_comm] using h
  | some word =>
    obtain ⟨other, rfl, hsame⟩ := Option.map_eq_some_iff.mp h.symm
    rw [(capitalize_inj (hword word rfl) (hother other rfl)).mp hsame.symm]

theorem dropRepeat_capitalized (h : ∀ word ∈ words, word.IsPlain) :
    dropRepeat (words.map Word.capitalize) = (distinct words).map Word.capitalize := by
  have hends : (words.map Word.capitalize).head? = (words.map Word.capitalize).getLast? ↔
      words.getLast? = words.head? := by
    rw [List.head?_map, List.getLast?_map, eq_comm]
    exact capitalized_ends_iff (fun word hword => h word (List.mem_of_getLast? hword))
      (fun word hword => h word (List.mem_of_head? hword))
  unfold dropRepeat distinct
  rw [List.length_map]
  by_cases hrepeat : 2 ≤ words.length ∧ words.getLast? = words.head?
  · rw [if_pos hrepeat, if_pos ⟨hrepeat.1, hends.mpr hrepeat.2⟩, List.map_dropLast]
  · rw [if_neg hrepeat, if_neg fun h => hrepeat ⟨h.1, hends.mp h.2⟩]

theorem closeOk_capitalized (h : ∀ word ∈ words, word.IsPlain) :
    (closeOk (words.map Word.capitalize)).flatten =
      ((spreadOk words).map Word.capitalize).flatten := by
  have hok : Word.IsPlain ['o', 'k'] := by decide
  have hends : (words.map Word.capitalize).getLast? = some "Ok".toList ↔
      words.getLast? = some ['o', 'k'] := by
    have hcapital : some "Ok".toList = (some ['o', 'k']).map Word.capitalize := rfl
    rw [List.getLast?_map, hcapital]
    apply capitalized_ends_iff
    · exact fun word hword => h word (List.mem_of_getLast? hword)
    · rintro word ⟨⟩
      exact hok
  unfold closeOk spreadOk
  by_cases hlast : words.getLast? = some ['o', 'k']
  · rw [if_pos hlast, if_pos (hends.mpr hlast), List.map_append, List.map_dropLast,
      List.flatten_append, List.flatten_append]
    rfl
  · rw [if_neg hlast, if_neg (mt hends.mp hlast)]

theorem plain_distinct (h : ∀ word ∈ words, word.IsPlain) :
    ∀ word ∈ distinct words, word.IsPlain := by
  unfold distinct
  split
  · exact fun word hword => h word (List.dropLast_subset _ hword)
  · exact h

theorem plain_spreadOk (h : ∀ word ∈ words, word.IsPlain) :
    ∀ word ∈ spreadOk words, word.IsPlain := by
  have hletters : ∀ word ∈ [['o'], ['k']], Word.IsPlain word := by decide
  unfold spreadOk
  split
  · exact List.forall_mem_append.mpr
      ⟨fun word hword => h word (List.dropLast_subset _ hword), hletters⟩
  · exact h

theorem plain_kept (name : PlainName) : ∀ word ∈ kept name.words, word.IsPlain :=
  plain_spreadOk (plain_distinct name.plain)

theorem ofType_raw (name : PlainName) :
    ofType name.raw = String.ofList (name.words.map Word.capitalize).flatten := by
  rw [ofType, goWords_raw]

theorem ofConstant_raw (name : PlainName) :
    ofConstant name.raw = String.ofList ((kept name.words).map Word.capitalize).flatten := by
  rw [ofConstant, goWords_raw, dropRepeat_capitalized name.plain,
    closeOk_capitalized (plain_distinct name.plain), kept]

/-- Two plain names have one Go type only if they are the same, and one Go constant exactly if they
keep the same words: different C names meet only where a repeated word was dropped or a last `ok`
taken apart. -/
theorem plain_names_agree_iff (name other : PlainName) :
    (ofType name.raw = ofType other.raw ↔ name = other) ∧
    (ofConstant name.raw = ofConstant other.raw ↔ kept name.words = kept other.words) ∧
    (name.raw ≠ other.raw → ofConstant name.raw = ofConstant other.raw →
      kept name.words ≠ name.words ∨ kept other.words ≠ other.words) := by
  have htype : ofType name.raw = ofType other.raw ↔ name = other := by
    refine ⟨fun h => ?_, fun h => by rw [h]⟩
    rw [ofType_raw, ofType_raw, String.ofList_inj] at h
    exact PlainName.ext (capitalized_inj name.plain other.plain h)
  have hconstant :
      ofConstant name.raw = ofConstant other.raw ↔ kept name.words = kept other.words := by
    rw [ofConstant_raw, ofConstant_raw, String.ofList_inj]
    exact ⟨capitalized_inj (plain_kept name) (plain_kept other), fun h => by rw [h]⟩
  refine ⟨htype, hconstant, fun hne hsame => ?_⟩
  by_contra hkept
  rw [not_or, not_not, not_not] at hkept
  have hwords : name.words = other.words := by
    rw [← hkept.1, hconstant.mp hsame, hkept.2]
  exact hne (congrArg PlainName.raw (PlainName.ext hwords))

/-- Both rewrites make one name of these two. -/
def errorOkError : PlainName where
  words := ["error".toList, "ok".toList, "error".toList]
  nonempty := by decide
  plain := by decide

def errorLetters : PlainName where
  words := ["error".toList, "o".toList, "k".toList]
  nonempty := by decide
  plain := by decide

theorem plain_names_agree_errorOk :
    errorOkError.raw = "heif_error_ok_error" ∧ errorLetters.raw = "heif_error_o_k" ∧
      ofType errorOkError.raw ≠ ofType errorLetters.raw ∧
      ofConstant errorOkError.raw = ofConstant errorLetters.raw ∧
      (kept errorOkError.words ≠ errorOkError.words ∨ kept errorLetters.words ≠ errorLetters.words) := by
  obtain ⟨htype, hconstant, hkept⟩ := plain_names_agree_iff errorOkError errorLetters
  have hwords : errorOkError.words ≠ errorLetters.words := by decide
  have hsame : ofConstant errorOkError.raw = ofConstant errorLetters.raw :=
    hconstant.mpr (by decide)
  exact ⟨rfl, rfl, fun h => hwords (congrArg PlainName.words (htype.mp h)), hsame,
    hkept (by decide) hsame⟩

end EnumBinding.Name
