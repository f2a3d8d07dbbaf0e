import EnumBinding.Config
import Mathlib.Data.List.Induction
import Mathlib.Data.List.Nodup

/-!
# The first offence of a configuration

The check of a list of enums keeps a set of names, and at each entry that set
holds the names of the entries before it. So a configuration is accepted
exactly if it is well formed, and else the error names the first thing wrong
with it: the macro, the empty list, or the first entry that offends
(`validate_exact`).
-/

namespace EnumBinding.Config

open Text (isBlank)

/-- The prefix of an enum's members: the one it gives, or else its prefix in the table, or else its own
name. -/
inductive Prefixed : Family → String → Prop
  | explicit {name p : String} : Prefixed ⟨name, some p⟩ p
  | remapped {name p : String} : (name, p) ∈ prefixRemap → Prefixed ⟨name, none⟩ p
  | own {name : String} : (∀ entry ∈ prefixRemap, entry.1 ≠ name) → Prefixed ⟨name, none⟩ name

structure WellNamed (family : Family) : Prop where
  name : isIdentifier family.name = true
  memberPrefix : ∀ p, Prefixed family p → isIdentifier p = true

structure WellListed (families : List Family) : Prop where
  named : ∀ family ∈ families, WellNamed family
  distinct : (families.map Family.name).Nodup

/-- What is wrong with an enum behind enums of the names `earlier`. -/
inductive Offence (earlier : List String) (family : Family) : ConfigError → Prop
  | badName : isIdentifier family.name = false → Offence earlier family (.badName family.name)
  | badPrefix {p : String} : isIdentifier family.name = true → Prefixed family p →
      isIdentifier p = false → Offence earlier family (.badPrefix p family.name)
  | repeatedEnum : WellNamed family → family.name ∈ earlier →
      Offence earlier family (.repeatedEnum family.name)

def BlankMacro (config : Config) : Prop := ∀ c ∈ config.versionMacro.toList, isBlank c = true

/-- What is wrong with a configuration: its macro, else its list, else the first entry that offends. -/
inductive FirstOffence (config : Config) : ConfigError → Prop
  | blankMacro : BlankMacro config → FirstOffence config .blankMacro
  | noEnums : ¬ BlankMacro config → config.enums = [] → FirstOffence config .noEnums
  | entry {before after : List Family} {family : Family} {cause : ConfigError} :
      ¬ BlankMacro config → config.enums = before ++ family :: after →
      (∀ first other second, before = first ++ other :: second →
        ∀ cause, ¬ Offence (first.map Family.name) other cause) →
      Offence (before.map Family.name) family cause →
      FirstOffence config cause

variable {config : Config} {family : Family} {families before : List Family}
  {seen earlier : List String} {cause : ConfigError} {p : String}

-- ---------------------------------------------------------------------------
-- Prefixes
-- ---------------------------------------------------------------------------

theorem prefixed_iff : Prefixed family p ↔ family.effectivePrefix = p := by
  have htable : ∀ entry ∈ prefixRemap, remappedPrefix entry.1 = entry.2 := by decide
  constructor
  · intro h
    cases h with
    | explicit => rfl
    | remapped hentry => exact htable _ hentry
    | own hnone =>
      have hlookup : prefixRemap.lookup p = none :=
        List.lookup_eq_none_iff.mpr fun entry hentry => by simpa using (hnone entry hentry).symm
      simp [Family.effectivePrefix, remappedPrefix, hlookup]
  · rintro rfl
    obtain ⟨name, given⟩ := family
    cases given with
    | some given => exact .explicit
    | none =>
      simp only [Family.effectivePrefix, remappedPrefix, Option.getD_none]
      cases hlookup : prefixRemap.lookup name with
      | none =>
        refine .own fun entry hentry heq => ?_
        simpa [heq] using List.lookup_eq_none_iff.mp hlookup entry hentry
      | some p =>
        obtain ⟨first, second, hsplit, -⟩ := List.lookup_eq_some_iff.mp hlookup
        exact .remapped (by rw [hsplit]; simp)

theorem wellNamed_iff : WellNamed family ↔
    isIdentifier family.name = true ∧ isIdentifier family.effectivePrefix = true := by
  constructor
  · rintro ⟨hname, hprefix⟩
    exact ⟨hname, hprefix _ (prefixed_iff.mpr rfl)⟩
  · rintro ⟨hname, hprefix⟩
    refine ⟨hname, fun p hp => ?_⟩
    rwa [← prefixed_iff.mp hp]

-- ---------------------------------------------------------------------------
-- One entry
-- ---------------------------------------------------------------------------

theorem Offence.checkFamilies (h : Offence seen family cause) (families : List Family) :
    checkFamilies seen (family :: families) = .error cause := by
  cases h with
  | badName hbad => simp [Config.checkFamilies, hbad]
  | badPrefix hname hp hbad =>
    rw [← prefixed_iff.mp hp] at hbad ⊢
    simp [Config.checkFamilies, hname, hbad]
  | repeatedEnum hnamed hmem =>
    obtain ⟨hname, hprefix⟩ := wellNamed_iff.mp hnamed
    simp [Config.checkFamilies, hname, hprefix, hmem]

theorem checkFamilies_cons (hnamed : WellNamed family) (hfresh : family.name ∉ seen)
    (families : List Family) :
    checkFamilies seen (family :: families) = checkFamilies (family.name :: seen) families := by
  obtain ⟨hname, hprefix⟩ := wellNamed_iff.mp hnamed
  simp [checkFamilies, hname, hprefix, hfresh]

theorem forall_not_offence_iff :
    (∀ cause, ¬ Offence earlier family cause) ↔ WellNamed family ∧ family.name ∉ earlier := by
  constructor
  · intro h
    have hname : isIdentifier family.name = true := by
      simpa using fun hbad => h _ (.badName hbad)
    have hnamed : WellNamed family := ⟨hname, fun p hp => by
      simpa using fun hbad => h _ (.badPrefix hname hp hbad)⟩
    exact ⟨hnamed, fun hmem => h _ (.repeatedEnum hnamed hmem)⟩
  · rintro ⟨hnamed, hfresh⟩ cause (hbad | ⟨-, hp, hbad⟩ | ⟨-, hmem⟩)
    · simp [hnamed.name] at hbad
    · simp [hnamed.memberPrefix _ hp] at hbad
    · exact hfresh hmem

theorem Offence.mono (h : Offence seen family cause) (hsub : seen ⊆ earlier) :
    Offence earlier family cause := by
  cases h with
  | badName hbad => exact .badName hbad
  | badPrefix hname hp hbad => exact .badPrefix hname hp hbad
  | repeatedEnum hnamed hmem => exact .repeatedEnum hnamed (hsub hmem)

-- ---------------------------------------------------------------------------
-- The list of entries
-- ---------------------------------------------------------------------------

/-- Behind enums that were passed, the set holds their names as well. -/
theorem checkFamilies_append (h : WellListed before) (seen : List String)
    (hfresh : ∀ family ∈ before, family.name ∉ seen) (families : List Family) :
    checkFamilies seen (before ++ families) =
      checkFamilies ((before.map Family.name).reverse ++ seen) families := by
  induction before generalizing seen with
  | nil => rfl
  | cons family before ih =>
    obtain ⟨hnamed, hnameds⟩ := List.forall_mem_cons.mp h.named
    obtain ⟨hnew, hnews⟩ := List.forall_mem_cons.mp hfresh
    obtain ⟨hother, hdistinct⟩ := List.nodup_cons.mp h.distinct
    have hunseen : ∀ other ∈ before, other.name ∉ family.name :: seen := by
      intro other hmem hseen
      rcases List.mem_cons.mp hseen with hsame | hseen
      · exact hother (List.mem_map.mpr ⟨other, hmem, hsame⟩)
      · exact hnews other hmem hseen
    rw [List.cons_append, checkFamilies_cons hnamed hnew, ih ⟨hnameds, hdistinct⟩ _ hunseen]
    simp

theorem wellListed_concat :
    WellListed (families ++ [family]) ↔
      WellListed families ∧ WellNamed family ∧ family.name ∉ families.map Family.name := by
  constructor
  · rintro ⟨hnamed, hdistinct⟩
    obtain ⟨hothers, hlast⟩ := List.forall_mem_append.mp hnamed
    rw [List.map_append, List.map_singleton, List.nodup_append] at hdistinct
    exact ⟨⟨hothers, hdistinct.1⟩, hlast family List.mem_cons_self,
      fun hmem => hdistinct.2.2 _ hmem _ List.mem_cons_self rfl⟩
  · rintro ⟨⟨hnamed, hdistinct⟩, hlast, hnew⟩
    refine ⟨List.forall_mem_append.mpr ⟨hnamed, List.forall_mem_singleton.mpr hlast⟩, ?_⟩
    rw [List.map_append, List.map_singleton, List.nodup_append]
    refine ⟨hdistinct, List.nodup_singleton _, ?_⟩
    rintro name hname _ hsame rfl
    rw [List.mem_singleton.mp hsame] at hname
    exact hnew hname

theorem wellListed_iff : WellListed families ↔
    ∀ first other second, families = first ++ other :: second →
      ∀ cause, ¬ Offence (first.map Family.name) other cause := by
  induction families using List.reverseRecOn with
  | nil => exact iff_of_true ⟨by simp, by simp⟩ (by simp)
  | append_singleton families family ih =>
    rw [wellListed_concat, ih, ← forall_not_offence_iff]
    constructor
    · rintro ⟨hothers, hlast⟩ first other second hsplit
      rcases List.eq_nil_or_concat' second with rfl | ⟨mid, last, rfl⟩
      · obtain ⟨rfl, rfl⟩ := List.append_singleton_inj.mp hsplit
        exact hlast
      · rw [← List.cons_append, ← List.append_assoc] at hsplit
        exact hothers first other mid (List.append_singleton_inj.mp hsplit).1
    · intro h
      refine ⟨fun first other second hsplit => ?_, h families family [] rfl⟩
      exact h first other (second ++ [family]) (by simp [hsplit])

theorem exists_first_offence (h : ¬ WellListed families) :
    ∃ before family after cause, families = before ++ family :: after ∧ WellListed before ∧
      Offence (before.map Family.name) family cause := by
  induction families using List.reverseRecOn with
  | nil => exact absurd ⟨by simp, by simp⟩ h
  | append_singleton families last ih =>
    by_cases hothers : WellListed families
    · have hlast : ¬ ∀ cause, ¬ Offence (families.map Family.name) last cause := by
        rw [wellListed_concat, ← forall_not_offence_iff] at h
        exact fun hnone => h ⟨hothers, hnone⟩
      obtain ⟨cause, hoffence⟩ := not_forall_not.mp hlast
      exact ⟨families, last, [], cause, rfl, hothers, hoffence⟩
    · obtain ⟨before, family, after, cause, rfl, hbefore, hoffence⟩ := ih hothers
      exact ⟨before, family, after ++ [last], cause, by simp, hbefore, hoffence⟩

-- ---------------------------------------------------------------------------
-- The configuration
-- ---------------------------------------------------------------------------

theorem validate_of_visible (h : ¬ BlankMacro config) : config.validate =
    if config.enums.isEmpty then .error .noEnums else checkFamilies [] config.enums := by
  rw [validate, if_neg]
  rwa [List.all_eq_true]

theorem validate_of_wellListed (hvisible : ¬ BlankMacro config) (hne : config.enums ≠ [])
    (h : WellListed config.enums) : config.validate = .ok () := by
  have hcheck := checkFamilies_append h [] (by simp) []
  rw [List.append_nil] at hcheck
  rw [validate_of_visible hvisible, if_neg (by simpa using hne), hcheck]
  rfl

theorem FirstOffence.validate (h : FirstOffence config cause) : config.validate = .error cause := by
  cases h with
  | blankMacro hblank => rw [Config.validate, if_pos (List.all_eq_true.mpr hblank)]
  | noEnums hvisible hnil => rw [validate_of_visible hvisible, if_pos (List.isEmpty_iff.mpr hnil)]
  | @entry before after family cause hvisible hsplit hbefore hoffence =>
    have hpassed := checkFamilies_append (wellListed_iff.mpr hbefore) [] (by simp) (family :: after)
    rw [validate_of_visible hvisible, hsplit, if_neg (by simp), hpassed]
    exact (hoffence.mono fun name hname => by simpa using hname).checkFamilies after

theorem exists_firstOffence
    (h : ¬ (¬ BlankMacro config ∧ config.enums ≠ [] ∧ WellListed config.enums)) :
    ∃ cause, FirstOffence config cause := by
  rcases em (BlankMacro config) with hblank | hvisible
  · exact ⟨_, .blankMacro hblank⟩
  by_cases hnil : config.enums = []
  · exact ⟨_, .noEnums hvisible hnil⟩
  obtain ⟨before, family, after, cause, hsplit, hbefore, hoffence⟩ :=
    exists_first_offence fun hlisted => h ⟨hvisible, hnil, hlisted⟩
  exact ⟨cause, .entry hvisible hsplit (wellListed_iff.mp hbefore) hoffence⟩

theorem validate_eq_ok_iff : config.validate = .ok () ↔
    ¬ BlankMacro config ∧ config.enums ≠ [] ∧ WellListed config.enums := by
  constructor
  · intro hok
    by_contra hformed
    obtain ⟨cause, hoffence⟩ := exists_firstOffence hformed
    cases hok.symm.trans hoffence.validate
  · rintro ⟨hvisible, hne, hlisted⟩
    exact validate_of_wellListed hvisible hne hlisted

theorem validate_eq_error_iff : config.validate = .error cause ↔ FirstOffence config cause := by
  refine ⟨fun herror => ?_, FirstOffence.validate⟩
  have hformed : ¬ (¬ BlankMacro config ∧ config.enums ≠ [] ∧ WellListed config.enums) := by
    intro h
    cases herror.symm.trans (validate_eq_ok_iff.mpr h)
  obtain ⟨found, hfound⟩ := exists_firstOffence hformed
  cases herror.symm.trans hfound.validate
  exact hfound

/-- A configuration is accepted exactly if it is well formed, and else the error is its first
offence. -/
theorem validate_exact (config : Config) :
    (config.validate = .ok () ↔
      (∃ c ∈ config.versionMacro.toList, isBlank c = false) ∧ config.enums ≠ [] ∧
        (∀ family ∈ config.enums, WellNamed family) ∧ (config.enums.map Family.name).Nodup) ∧
    ∀ cause, config.validate = .error cause ↔ FirstOffence config cause := by
  have hvisible : (∃ c ∈ config.versionMacro.toList, isBlank c = false) ↔ ¬ BlankMacro config := by
    simp [BlankMacro]
  refine ⟨?_, fun cause => validate_eq_error_iff⟩
  rw [validate_eq_ok_iff, hvisible]
  constructor
  · rintro ⟨hsome, hne, hnamed, hdistinct⟩
    exact ⟨hsome, hne, hnamed, hdistinct⟩
  · rintro ⟨hsome, hne, hnamed, hdistinct⟩
    exact ⟨hsome, hne, hnamed, hdistinct⟩

end EnumBinding.Config
