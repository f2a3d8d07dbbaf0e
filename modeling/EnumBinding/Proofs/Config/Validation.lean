import EnumBinding.Config.Reading
import EnumBinding.Proofs.Config.Offences
import EnumBinding.Proofs.Outcomes

/-!
# Valid configurations

What a generation may rely on once its configuration is found valid.
-/

namespace EnumBinding.Config

variable {config : Config}

theorem validate_ok (h : config.validate = .ok ()) : config.enums ≠ [] ∧
    ∀ family ∈ config.enums, isIdentifier family.name = true ∧
      isIdentifier family.effectivePrefix = true := by
  obtain ⟨-, hne, hlisted⟩ := validate_eq_ok_iff.mp h
  exact ⟨hne, fun family hfamily => wellNamed_iff.mp (hlisted.named family hfamily)⟩

theorem validate_default : ({} : Config).validate = .ok () := by
  decide +kernel

theorem validate_ofYaml {text : String} (h : ofYaml text = .ok config) :
    config.validate = .ok () := by
  -- However the text was read, what follows is the same.
  have hvalid : ∀ read : Except ConfigError Config,
      (read >>= fun found => do found.validate; return found) = .ok config →
        config.validate = .ok () := by
    intro read hread
    obtain ⟨found, -, hfound⟩ := Outcomes.bind_eq_ok.mp hread
    obtain ⟨⟨⟩, hvalid, hsame⟩ := Outcomes.bind_eq_ok.mp hfound
    cases hsame
    exact hvalid
  unfold ofYaml at h
  dsimp only at h
  split at h
  · exact hvalid _ h
  · exact hvalid _ h
  · split at h
    · exact hvalid _ h
    · exact hvalid _ h

end EnumBinding.Config
