import EnumBinding.Proofs.Name.CasingLaws

/-!
# Characters of Go names

The characters of a Go name are characters of the C name, their capitals, and
the few that casing writes by itself. So a class of characters that casing does
not leave holds those of the Go names if it holds those of the C name: the Go
names of an identifier are ASCII letters, digits and underscores, though they
may be empty or begin with a digit, and no Go name breaks a line if the C name
does not.
-/

namespace EnumBinding.Name

open Config (isIdentifierRest toNat_lt_of_isIdentifierRest)

/-- A class of characters that holds what casing writes, and the capitals of its own. -/
structure CaseClosed (P : Char → Prop) : Prop where
  written : ∀ c ∈ ['V', '_', 'O', 'K'], P c
  upper : ∀ c, P c → ∀ d ∈ Text.upper c, P d

variable {P : Char → Prop} {name : List Char} {word : Word} {words parts : List Word} {c : Char}

theorem subset_of_mem_words (h : word ∈ Name.words (stripLibrary name)) : word ⊆ name := by
  have hstrip : stripLibrary name ⊆ name := by
    unfold stripLibrary
    cases hafter : Text.after? libraryPrefix.toList name with
    | none => exact List.Subset.refl _
    | some rest =>
      rw [Text.after?_eq_some_iff.mp hafter]
      exact List.subset_append_right _ _
  exact fun c hc => hstrip (Text.mem_splitOn h hc).1

-- ---------------------------------------------------------------------------
-- Classes of characters
-- ---------------------------------------------------------------------------

namespace CaseClosed

variable (hP : CaseClosed P)
include hP

theorem spellCodec (h : ∀ c ∈ word, P c) : ∀ c ∈ spellCodec word, P c := by
  induction word using Name.spellCodec.induct with
  | case1 rest ih =>
    rw [Name.spellCodec]
    simp only [List.forall_mem_cons] at h ⊢
    exact ⟨h.1, hP.written 'V' (by simp), h.2.2.1, ih h.2.2.2⟩
  | case2 c rest hne ih =>
    rw [Name.spellCodec]
    · rw [List.forall_mem_cons] at h ⊢
      exact ⟨h.1, ih h.2⟩
    · exact hne
  | case3 => exact h

theorem capitalize (h : ∀ c ∈ word, P c) : ∀ c ∈ Word.capitalize word, P c := by
  cases word with
  | nil => exact h
  | cons c rest =>
    obtain ⟨hc, hrest⟩ := List.forall_mem_cons.mp h
    exact hP.spellCodec (List.forall_mem_append.mpr ⟨hP.upper c hc, hrest⟩)

theorem close (h : ∀ c ∈ word, P c) : ∀ c ∈ Word.close word, P c := by
  unfold Word.close
  split
  · exact h
  · exact hP.capitalize h

theorem casing (h : Casing words parts) (hwords : ∀ word ∈ words, ∀ c ∈ word, P c) :
    ∀ part ∈ parts, ∀ c ∈ part, P c := by
  cases h with
  | @paired init second last _ _ _ =>
    obtain ⟨hinit, hpair⟩ := List.forall_mem_append.mp hwords
    refine List.forall_mem_append.mpr
      ⟨List.forall_mem_map.mpr fun word hword => hP.capitalize (hinit word hword), ?_⟩
    rw [List.forall_mem_singleton]
    exact List.forall_mem_append.mpr ⟨hpair second (by simp),
      List.forall_mem_cons.mpr ⟨hP.written '_' (by simp), hpair last (by simp)⟩⟩
  | @closed init last _ =>
    obtain ⟨hinit, hlast⟩ := List.forall_mem_append.mp hwords
    refine List.forall_mem_append.mpr
      ⟨List.forall_mem_map.mpr fun word hword => hP.capitalize (hinit word hword), ?_⟩
    rw [List.forall_mem_singleton]
    exact hP.close (hlast last (by simp))

theorem goWords (h : ∀ c ∈ name, P c) : ∀ word ∈ goWords name, ∀ c ∈ word, P c :=
  hP.casing (casing_goWords name) fun _ hword c hc => h c (subset_of_mem_words hword hc)

theorem closeOk (h : ∀ word ∈ words, ∀ c ∈ word, P c) : ∀ word ∈ closeOk words, ∀ c ∈ word, P c := by
  rcases closeOk_cases words with hsame | ⟨init, rfl, hspelled⟩
  · rwa [hsame]
  · rw [hspelled]
    refine List.forall_mem_append.mpr ⟨(List.forall_mem_append.mp h).1, ?_⟩
    rw [List.forall_mem_singleton]
    exact fun c hc => hP.written c (by simp_all)

theorem ofType {name : String} (h : ∀ c ∈ name.toList, P c) : ∀ c ∈ (ofType name).toList, P c := by
  rw [Name.ofType, String.toList_ofList]
  exact List.forall_mem_flatten.mpr (hP.goWords h)

theorem ofConstant {name : String} (h : ∀ c ∈ name.toList, P c) :
    ∀ c ∈ (ofConstant name).toList, P c := by
  have hkept : ∀ word ∈ dropRepeat (Name.goWords name.toList), ∀ c ∈ word, P c := by
    by_cases hends : EndsAlike (Name.goWords name.toList)
    · rw [dropRepeat_of_endsAlike hends]
      exact fun word hword => hP.goWords h word (List.dropLast_subset _ hword)
    · rw [dropRepeat_of_not hends]
      exact hP.goWords h
  rw [Name.ofConstant, String.toList_ofList]
  exact List.forall_mem_flatten.mpr (hP.closeOk hkept)

end CaseClosed

-- ---------------------------------------------------------------------------
-- Identifiers
-- ---------------------------------------------------------------------------

theorem caseClosed_isIdentifierRest : CaseClosed fun c => isIdentifierRest c = true where
  written := List.all_eq_true.mp rfl
  upper := by
    intro c hc d hd
    have hascii := toNat_lt_of_isIdentifierRest hc
    rw [Text.upper_of_ascii hascii, List.mem_singleton] at hd
    rw [hd]
    exact Text.forall_ascii
      (P := fun c => isIdentifierRest c = true → isIdentifierRest c.toUpper = true)
      (by decide) hascii hc

theorem isWord_ofType {name : String} (h : IsWord name.toList) : IsWord (ofType name).toList :=
  caseClosed_isIdentifierRest.ofType h

theorem isWord_ofConstant {name : String} (h : IsWord name.toList) :
    IsWord (ofConstant name).toList :=
  caseClosed_isIdentifierRest.ofConstant h

theorem isWord_words (h : IsWord name) :
    ∀ word ∈ Name.words (stripLibrary name), IsWord word ∧ '_' ∉ word :=
  fun _ hword =>
    ⟨fun c hc => h c (subset_of_mem_words hword hc), Text.notMem_of_mem_splitOn hword⟩

theorem isWord_of_isIdentifier {name : String} (h : Config.isIdentifier name = true) :
    IsWord name.toList :=
  List.all_eq_true.mp (Config.all_isIdentifierRest h)

-- ---------------------------------------------------------------------------
-- Line ends
-- ---------------------------------------------------------------------------

theorem newline_notMem_expandingCapitals : ∀ entry ∈ Text.expandingCapitals, '\n' ∉ entry.2 := by
  decide +kernel

theorem newline_lt_caseRuns : ∀ run ∈ Text.caseRuns, '\n'.toNat < run.capital := by
  decide +kernel

theorem ofNat_ne_newline {code : Nat} (h : '\n'.toNat < code) : Char.ofNat code ≠ '\n' := by
  by_cases hvalid : code.isValidChar
  · rw [Char.ofNat, dif_pos hvalid]
    exact fun hcode => Nat.ne_of_gt h (congrArg Char.toNat hcode)
  · rw [Char.ofNat, dif_neg hvalid]
    decide

theorem upper_ne_newline (h : c ≠ '\n') : ∀ d ∈ Text.upper c, d ≠ '\n' := by
  unfold Text.upper
  split
  · next hascii =>
    exact List.forall_mem_singleton.mpr
      (Text.forall_ascii (P := fun c => c ≠ '\n' → c.toUpper ≠ '\n') (by decide) hascii h)
  · split
    · next capitals hcapitals =>
      obtain ⟨_, _, htable, -⟩ := List.lookup_eq_some_iff.mp hcapitals
      have hfree := newline_notMem_expandingCapitals (c, capitals) (by simp [htable])
      exact fun d hd hnewline => hfree (hnewline ▸ hd)
    · split
      · next code hcode =>
        obtain ⟨run, hrun, hcapital⟩ := List.exists_of_findSome?_eq_some hcode
        obtain ⟨-, hsome⟩ := Option.ite_none_right_eq_some.mp hcapital
        have hlt : '\n'.toNat < code := by
          rw [← Option.some.inj hsome]
          exact Nat.lt_add_right _ (newline_lt_caseRuns run hrun)
        exact List.forall_mem_singleton.mpr (ofNat_ne_newline hlt)
      · exact List.forall_mem_singleton.mpr h

theorem caseClosed_ne_newline : CaseClosed (· ≠ '\n') where
  written := by simp
  upper := fun _ hc => upper_ne_newline hc

theorem newline_notMem_ofType {name : String} (h : '\n' ∉ name.toList) :
    '\n' ∉ (ofType name).toList := by
  rw [← List.forall_mem_ne'] at h ⊢
  exact caseClosed_ne_newline.ofType h

theorem newline_notMem_ofConstant {name : String} (h : '\n' ∉ name.toList) :
    '\n' ∉ (ofConstant name).toList := by
  rw [← List.forall_mem_ne'] at h ⊢
  exact caseClosed_ne_newline.ofConstant h

end EnumBinding.Name
