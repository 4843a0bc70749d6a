import Edwards25519.Proofs.Signature

/-! Canonical signatures. One algorithm compares the scalar with the group order, from the last byte down, and
another one reduces it on limbs. They agree: the signatures that the reduction leaves as they are, are those
with a scalar below the group order, and of these only the ones with the scalar zero are not canonical. -/
namespace Edwards25519.Signature

variable (sig : Signature)

lemma toNat_makeCanonical : sig.makeCanonical.s.toNat = sig.s.toNat % groupOrder := by
  change (Scalar.reduce sig.s.widen).toNat = _
  rw [Scalar.toNat_reduce, Bytes.toNat_widen]

lemma makeCanonical_eq :
    sig.makeCanonical = ⟨sig.r, Bytes.ofNat 32 (sig.s.toNat % groupOrder)⟩ := by
  rw [← toNat_makeCanonical, Bytes.ofNat_toNat]
  rfl

/-- A scalar is its own residue if it is below the group order. -/
theorem makeCanonical_eq_self_iff : sig.makeCanonical = sig ↔ sig.s.toNat < groupOrder := by
  constructor
  · intro h
    have hlt : sig.makeCanonical.s.toNat < groupOrder := by
      rw [toNat_makeCanonical]
      exact Nat.mod_lt _ (by decide)
    rwa [h] at hlt
  · intro h
    rw [makeCanonical_eq, Nat.mod_eq_of_lt h, Bytes.ofNat_toNat]

theorem makeCanonical_makeCanonical : sig.makeCanonical.makeCanonical = sig.makeCanonical := by
  rw [makeCanonical_eq_self_iff, toNat_makeCanonical]
  exact Nat.mod_lt _ (by decide)

/-- Only a scalar with the residue zero cannot be made canonical. -/
theorem isCanonical_makeCanonical_iff :
    sig.makeCanonical.isCanonical = true ↔ ¬ groupOrder ∣ sig.s.toNat := by
  have hlt : sig.s.toNat % groupOrder < groupOrder := Nat.mod_lt _ (by decide)
  rw [isCanonical_iff, toNat_makeCanonical, Nat.pos_iff_ne_zero, Nat.dvd_iff_mod_eq_zero]
  exact and_iff_left hlt

/-- The test and the reduction agree on all signatures: the test accepts the scalars between zero and the group
order, the reduction changes nothing but the scalar and leaves those below the group order as they are, once
is enough, and what it returns is canonical unless the group order divides the scalar. -/
theorem isCanonical_agrees :
    (sig.isCanonical = true ↔ 0 < sig.s.toNat ∧ sig.s.toNat < groupOrder) ∧
    sig.makeCanonical = ⟨sig.r, Bytes.ofNat 32 (sig.s.toNat % groupOrder)⟩ ∧
    sig.makeCanonical.s.toNat = sig.s.toNat % groupOrder ∧
    (sig.makeCanonical = sig ↔ sig.s.toNat < groupOrder) ∧
    (sig.isCanonical = true ↔ sig.makeCanonical = sig ∧ sig.s.toNat ≠ 0) ∧
    sig.makeCanonical.makeCanonical = sig.makeCanonical ∧
    (sig.makeCanonical.isCanonical = true ↔ ¬ groupOrder ∣ sig.s.toNat) := by
  refine ⟨isCanonical_iff, makeCanonical_eq sig, toNat_makeCanonical sig, makeCanonical_eq_self_iff sig, ?_,
    makeCanonical_makeCanonical sig, isCanonical_makeCanonical_iff sig⟩
  rw [makeCanonical_eq_self_iff, isCanonical_iff, Nat.pos_iff_ne_zero]
  exact and_comm

end Edwards25519.Signature
