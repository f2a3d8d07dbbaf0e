import EnumBinding.Config
import EnumBinding.Proofs.Text.RunLaws

/-!
# Characters of identifiers

A C identifier holds ASCII letters, digits and underscores, so no blank and
nothing that separates it from what stands around it.
-/

namespace EnumBinding.Config

open Text (isBlank isIndent)

variable {c : Char}

theorem toNat_of_isAlpha (h : c.isAlpha = true) :
    65 ≤ c.toNat ∧ c.toNat ≤ 90 ∨ 97 ≤ c.toNat ∧ c.toNat ≤ 122 := by
  rcases Bool.or_eq_true_iff.mp h with hupper | hlower
  · obtain ⟨hfirst, hlast⟩ := of_decide_eq_true hupper
    exact .inl ⟨UInt32.le_iff_toNat_le.mp hfirst, UInt32.le_iff_toNat_le.mp hlast⟩
  · obtain ⟨hfirst, hlast⟩ := Bool.and_eq_true_iff.mp hlower
    exact .inr ⟨UInt32.le_iff_toNat_le.mp (of_decide_eq_true hfirst),
      UInt32.le_iff_toNat_le.mp (of_decide_eq_true hlast)⟩

theorem isBlank_of_isIdentifierRest (h : isIdentifierRest c = true) : isBlank c = false := by
  have hall : Text.blanks.all (!isIdentifierRest ·) = true := rfl
  rw [Bool.eq_false_iff]
  intro hb
  have hmem : c ∈ Text.blanks := by simpa [isBlank] using hb
  simpa [h] using List.all_eq_true.mp hall c hmem

theorem isIdentifierRest_of_isIdentifierStart (h : isIdentifierStart c = true) :
    isIdentifierRest c = true := by
  simp only [isIdentifierStart, Bool.or_eq_true, beq_iff_eq] at h
  rcases h with rfl | h
  · rfl
  · simp [isIdentifierRest, Char.isAlphanum, h]

theorem isIdentifierRest_of_isDigit (h : c.isDigit = true) : isIdentifierRest c = true := by
  simp [isIdentifierRest, Char.isAlphanum, h]

theorem isBlank_of_isIdentifierStart (h : isIdentifierStart c = true) : isBlank c = false :=
  isBlank_of_isIdentifierRest (isIdentifierRest_of_isIdentifierStart h)

theorem isIndent_of_isIdentifierStart (h : isIdentifierStart c = true) : isIndent c = false := by
  rw [Bool.eq_false_iff]
  intro hindent
  exact Text.ne_of_kind (Text.isBlank_of_isIndent hindent) (isBlank_of_isIdentifierStart h) rfl

/-- Digits of other scripts are no ASCII characters, so no identifier begins with a digit. -/
theorem isDecimal_of_isIdentifierStart (h : isIdentifierStart c = true) :
    Text.isDecimal c = false := by
  have hzeros : Text.zeros.all (fun first => first == 48 || 1632 ≤ first) = true := rfl
  have hcode : 65 ≤ c.toNat ∧ c.toNat ≤ 122 := by
    simp only [isIdentifierStart, Bool.or_eq_true, beq_iff_eq] at h
    rcases h with rfl | h
    · simp
    · have := toNat_of_isAlpha h
      omega
  rw [Bool.eq_false_iff]
  intro hdec
  obtain ⟨first, hmem, hrange⟩ := List.any_eq_true.mp hdec
  simp only [Bool.and_eq_true, decide_eq_true_eq] at hrange
  have hfirst := List.all_eq_true.mp hzeros first hmem
  simp only [Bool.or_eq_true, beq_iff_eq, decide_eq_true_eq] at hfirst
  omega

theorem toNat_of_isIdentifierRest (h : isIdentifierRest c = true) :
    48 ≤ c.toNat ∧ c.toNat ≤ 122 := by
  simp only [isIdentifierRest, Char.isAlphanum, Bool.or_eq_true, beq_iff_eq] at h
  rcases h with rfl | h | h
  · simp
  · have := toNat_of_isAlpha h
    omega
  · have hdigits : 48 ≤ c.toNat ∧ c.toNat ≤ 57 := Char.isDigit_iff_toNat.mp h
    omega

theorem toNat_lt_of_isIdentifierRest (h : isIdentifierRest c = true) : c.toNat < 128 :=
  Nat.lt_of_le_of_lt (toNat_of_isIdentifierRest h).2 (by decide)

theorem all_isIdentifierRest {name : String} (h : isIdentifier name = true) :
    name.toList.all isIdentifierRest = true := by
  unfold isIdentifier at h
  split at h
  · cases h
  · next c cs hs =>
    rw [Bool.and_eq_true] at h
    simp [hs, isIdentifierRest_of_isIdentifierStart h.1, h.2]

end EnumBinding.Config
