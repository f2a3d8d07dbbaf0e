import EnumBinding.Name.Casing
import EnumBinding.Proofs.Identifier
import EnumBinding.Proofs.Text.LineLaws
import Mathlib.Data.List.DropRight

/-!
# How the words of a name are cased

A name is cased in one of two ways. If it has more than two words and its last
two are acronyms, these two keep their spelling and become one word; in any
other name the last word alone may keep its spelling (`casing_cased`). Casing
a word changes no character but for its case.
-/

namespace EnumBinding.Name

open Config (isIdentifierRest toNat_lt_of_isIdentifierRest)

def IsWord (cs : List Char) : Prop := ∀ c ∈ cs, isIdentifierRest c = true

/-- More than two words, the last two of which are acronyms. -/
def EndsInPair (words : List Word) : Prop :=
  2 < words.length ∧ ∀ word ∈ words.rtake 2, word.isAcronym = true

instance (words : List Word) : Decidable (EndsInPair words) := inferInstanceAs (Decidable (_ ∧ _))

/-- The words of a name, and what casing makes of them. -/
inductive Casing : List Word → List Word → Prop
  | paired {init : List Word} {second last : Word} : init ≠ [] → second.isAcronym = true →
      last.isAcronym = true →
      Casing (init ++ [second, last]) (init.map Word.capitalize ++ [second ++ '_' :: last])
  | closed {init : List Word} {last : Word} : ¬ EndsInPair (init ++ [last]) →
      Casing (init ++ [last]) (init.map Word.capitalize ++ [last.close])

variable {word : Word} {words init parts : List Word} {second last : Word} {cs : List Char} {c : Char}

-- ---------------------------------------------------------------------------
-- The two ways
-- ---------------------------------------------------------------------------

theorem endsInPair_append :
    EndsInPair (init ++ [second, last]) ↔
      init ≠ [] ∧ second.isAcronym = true ∧ last.isAcronym = true := by
  have hlast : (init ++ [second, last]).rtake 2 = [second, last] := by simp [List.rtake]
  have hlength : 2 < (init ++ [second, last]).length ↔ init ≠ [] := by
    rw [List.length_append, ← List.length_pos_iff]
    simp
  rw [EndsInPair, hlast, hlength]
  simp

theorem cased_pair (hinit : init ≠ []) (hsecond : second.isAcronym = true)
    (hlast : last.isAcronym = true) :
    cased (init ++ [second, last]) = init.map Word.capitalize ++ [second ++ '_' :: last] := by
  obtain ⟨before, first, rfl⟩ := (List.eq_nil_or_concat' init).resolve_left hinit
  simp [cased, casedReversed, hsecond, hlast]

theorem cased_closed (h : ¬ EndsInPair (init ++ [last])) :
    cased (init ++ [last]) = init.map Word.capitalize ++ [last.close] := by
  rcases List.eq_nil_or_concat' init with rfl | ⟨before, second, rfl⟩
  · rfl
  rcases List.eq_nil_or_concat' before with rfl | ⟨before, first, rfl⟩
  · rfl
  have hopen : (last.isAcronym && second.isAcronym) = false := by
    rw [List.append_assoc, List.singleton_append, endsInPair_append] at h
    rw [Bool.eq_false_iff]
    intro hpair
    rw [Bool.and_eq_true] at hpair
    exact h ⟨by simp, hpair.2, hpair.1⟩
  simp [cased, casedReversed, hopen]

theorem casing_cased (h : words ≠ []) : Casing words (cased words) := by
  obtain ⟨init, last, rfl⟩ := (List.eq_nil_or_concat' words).resolve_left h
  by_cases hpair : EndsInPair (init ++ [last])
  · obtain ⟨before, second, rfl⟩ : ∃ before second, init = before ++ [second] :=
      (List.eq_nil_or_concat' init).resolve_left fun hinit => by simp [hinit, EndsInPair] at hpair
    rw [List.append_assoc, List.singleton_append] at hpair ⊢
    obtain ⟨hbefore, hsecond, hlast⟩ := endsInPair_append.mp hpair
    rw [cased_pair hbefore hsecond hlast]
    exact .paired hbefore hsecond hlast
  · rw [cased_closed hpair]
    exact .closed hpair

theorem casing_goWords (name : List Char) :
    Casing (Name.words (stripLibrary name)) (goWords name) :=
  casing_cased (List.splitOn_ne_nil '_' _)

theorem isAcronym_of_no_capital (h : ∀ c ∈ word, c.isUpper = false) : word.isAcronym = false := by
  have hcount : word.countP Char.isUpper = 0 := by
    rw [List.countP_eq_zero]
    intro c hc
    simp [h c hc]
  simp [Word.isAcronym, hcount]

theorem Casing.of_no_acronym (h : Casing words parts)
    (hwords : ∀ word ∈ words, word.isAcronym = false) : parts = words.map Word.capitalize := by
  cases h with
  | @paired init second last _ hsecond _ =>
    rw [hwords second (by simp)] at hsecond
    cases hsecond
  | @closed init last _ =>
    rw [List.map_append, List.map_singleton, Word.close, hwords last (by simp)]
    rfl

theorem Casing.exists_behind {before after : List Word} (h : Casing words parts)
    (hwords : words = before ++ after) (hbefore : ∀ word ∈ before, word.isAcronym = false)
    (hafter : after ≠ []) :
    ∃ behind, behind ≠ [] ∧ parts = before.map Word.capitalize ++ behind := by
  obtain ⟨mid, other, rfl⟩ := (List.eq_nil_or_concat' after).resolve_left hafter
  rw [← List.append_assoc] at hwords
  cases h with
  | @paired init second last _ hsecond _ =>
    have hinit : init ++ [second] ++ [last] = before ++ mid ++ [other] := by
      rw [← hwords, List.append_assoc, List.singleton_append]
    have hsplit := (List.append_singleton_inj.mp hinit).1
    rcases List.eq_nil_or_concat' mid with rfl | ⟨mid, third, rfl⟩
    · rw [List.append_nil] at hsplit
      rw [hbefore second (by simp [← hsplit])] at hsecond
      cases hsecond
    · rw [← List.append_assoc] at hsplit
      obtain ⟨rfl, -⟩ := List.append_singleton_inj.mp hsplit
      exact ⟨mid.map Word.capitalize ++ [second ++ '_' :: last], by simp, by simp⟩
  | @closed init last _ =>
    obtain ⟨rfl, -⟩ := List.append_singleton_inj.mp hwords
    exact ⟨mid.map Word.capitalize ++ [last.close], by simp, by simp⟩

-- ---------------------------------------------------------------------------
-- Characters without their case
-- ---------------------------------------------------------------------------

theorem isWord_cons : IsWord (c :: cs) ↔ isIdentifierRest c = true ∧ IsWord cs :=
  List.forall_mem_cons

theorem toLower_toUpper (h : c.toNat < 128) : c.toUpper.toLower = c.toLower :=
  Text.forall_ascii (P := fun c => c.toUpper.toLower = c.toLower) (by decide) h

theorem toLower_eq_underscore : c.toLower = '_' ↔ c = '_' := by
  refine ⟨fun h => ?_, fun h => by rw [h]; rfl⟩
  by_cases hascii : c.toNat < 128
  · exact Text.forall_ascii (P := fun c => c.toLower = '_' → c = '_') (by decide) hascii h
  · have hsame : c.toLower = c := dif_neg fun hcapital => by
      have hcode : c.toNat ≤ 90 := UInt32.le_iff_toNat_le.mp hcapital.2
      omega
    rw [← hsame, h]

theorem underscore_mem_map_toLower (cs : List Char) : '_' ∈ cs.map Char.toLower ↔ '_' ∈ cs := by
  simp [toLower_eq_underscore]

theorem map_toLower_spellCodec (cs : List Char) :
    (spellCodec cs).map Char.toLower = cs.map Char.toLower := by
  induction cs using spellCodec.induct with
  | case1 rest ih =>
    rw [spellCodec]
    simp only [List.map_cons, ih]
    rfl
  | case2 c rest hne ih =>
    rw [spellCodec]
    · simp only [List.map_cons, ih]
    · exact hne
  | case3 => rfl

theorem map_toLower_capitalize (h : IsWord word) :
    (Word.capitalize word).map Char.toLower = word.map Char.toLower := by
  cases word with
  | nil => rfl
  | cons c rest =>
    have hascii := Config.toNat_lt_of_isIdentifierRest (isWord_cons.mp h).1
    rw [Word.capitalize, map_toLower_spellCodec, Text.upper_of_ascii hascii]
    simp [toLower_toUpper hascii]

theorem map_toLower_close (h : IsWord word) :
    (Word.close word).map Char.toLower = word.map Char.toLower := by
  unfold Word.close
  split
  · rfl
  · exact map_toLower_capitalize h

theorem notMem_capitalize (h : IsWord word) (hfree : '_' ∉ word) : '_' ∉ Word.capitalize word := by
  rwa [← underscore_mem_map_toLower, map_toLower_capitalize h, underscore_mem_map_toLower]

theorem notMem_close (h : IsWord word) (hfree : '_' ∉ word) : '_' ∉ Word.close word := by
  rwa [← underscore_mem_map_toLower, map_toLower_close h, underscore_mem_map_toLower]

-- ---------------------------------------------------------------------------
-- The rewrites of constants
-- ---------------------------------------------------------------------------

def EndsAlike (words : List Word) : Prop := 2 ≤ words.length ∧ words.head? = words.getLast?

instance (words : List Word) : Decidable (EndsAlike words) := inferInstanceAs (Decidable (_ ∧ _))

theorem exists_repeat (h : EndsAlike words) :
    ∃ first mid, words = first :: (mid ++ [first]) := by
  obtain ⟨hlength, hsame⟩ := h
  cases words with
  | nil => simp at hlength
  | cons first rest =>
    rcases List.eq_nil_or_concat' rest with rfl | ⟨mid, last, rfl⟩
    · simp at hlength
    · rw [List.head?_cons, ← List.cons_append, List.getLast?_concat, Option.some.injEq] at hsame
      exact ⟨first, mid, by rw [hsame]⟩

theorem dropRepeat_of_endsAlike (h : EndsAlike words) : dropRepeat words = words.dropLast :=
  if_pos h

theorem dropRepeat_repeat (first : Word) (mid : List Word) :
    dropRepeat (first :: (mid ++ [first])) = first :: mid := by
  have hends : EndsAlike (first :: (mid ++ [first])) := by
    refine ⟨by simp, ?_⟩
    rw [List.head?_cons, ← List.cons_append, List.getLast?_concat]
  rw [dropRepeat_of_endsAlike hends, ← List.cons_append, List.dropLast_concat]

theorem dropRepeat_of_not (h : ¬ EndsAlike words) : dropRepeat words = words := if_neg h

theorem closeOk_concat (init : List Word) : closeOk (init ++ ["Ok".toList]) = init ++ ["OK".toList] := by
  simp [closeOk]

theorem closeOk_cases (words : List Word) : closeOk words = words ∨
    ∃ init, words = init ++ ["Ok".toList] ∧ closeOk words = init ++ ["OK".toList] := by
  by_cases h : words.getLast? = some "Ok".toList
  · obtain ⟨init, rfl⟩ := List.getLast?_eq_some_iff.mp h
    exact .inr ⟨init, rfl, closeOk_concat init⟩
  · exact .inl (if_neg h)

end EnumBinding.Name
