import Edwards25519.Proofs.Scalar.Steps

/-! The arithmetic modulo the group order is exact and canonical, and nothing in it overflows. The limbs that
are packed are digits, except that the last one reaches `2 ^ 21` for residues from `2 ^ 252` on. -/
namespace Edwards25519

lemma Encoded.toScalar_modEq (s : Encoded) : s.toScalar.toNat ≡ s.toNat [MOD groupOrder] := by
  cases s with
  | short b => rfl
  | wide b =>
    rw [toScalar, Scalar.toNat_reduce]
    exact Nat.mod_modEq _ _

namespace Scalar

open WideLimbs LimbArithmetic

lemma eq_ofNat {b : Bytes 32} {n : ℕ} (h : b.toNat = n) : b = Bytes.ofNat 32 n := by
  rw [← h, Bytes.ofNat_toNat]

/-- The result is the encoding of the residue, also of those from `2 ^ 252` on, and no step on the way to it
overflows. The limbs that the bytes are cut into are those of their number (`load_eq_ofNat`). -/
theorem reduce_canonical :
    (∀ b : Bytes 64,
      let limbs : WideLimbs Int64 := reduceSteps.foldl Step.apply (ofNat b.toNat)
      reduce b = Bytes.ofNat 32 (b.toNat % groupOrder) ∧
      (reduce b).toNat = b.toNat % groupOrder ∧ (reduce b).toNat < groupOrder ∧
      reduce b = ofLimbs limbs ∧ Packable (limbs.map Int64.toInt) ∧
      ExactRun Step.apply Step.apply reduceSteps (ofNat b.toNat) (ofNat b.toNat)) ∧
    ∀ n : Fin groupOrder, (reduce (Bytes.ofNat 64 n)).toNat = n := by
  refine ⟨fun b => ?_, fun n => ?_⟩
  · have hresidue := toNat_reduce b
    have hholds := holds_ofNat (toNat_lt_wide b)
    have hstands := ofNat_related simulation_int64 b.toNat
    have hfit := fit_reduce_ofNat (toNat_lt_wide b)
    rw [reduce_eq_foldl] at hfit
    rw [← reduce_eq_foldl]
    refine ⟨eq_ofNat hresidue, hresidue, ?_, reduce_eq_ofLimbs b,
      packable_reduce reduces_wide hholds hstands, exactRun_of_fit hstands hfit⟩
    rw [hresidue]
    exact Nat.mod_lt _ (by decide)
  · have hlt : n.val < 256 ^ 64 := n.isLt.trans (by decide)
    rw [toNat_reduce, Bytes.toNat_ofNat, Nat.mod_eq_of_lt hlt, Nat.mod_eq_of_lt n.isLt]

/-- The result is the encoding of the residue of `a * b + c`, whatever the numbers, and no step on the way to
it overflows. The limbs of the factors and the summand are those of their numbers (`load_eq_split`). -/
theorem mulAdd_canonical :
    (∀ a b c : Bytes 32,
      let n := a.toNat * b.toNat + c.toNat
      let limbs : WideLimbs Int64 :=
        (spreadSteps ++ reduceSteps).foldl Step.apply (productLimbs a.toNat b.toNat c.toNat)
      mulAdd a b c = Bytes.ofNat 32 (n % groupOrder) ∧
      (mulAdd a b c).toNat = n % groupOrder ∧ (mulAdd a b c).toNat < groupOrder ∧
      mulAdd a b c = ofLimbs limbs ∧ Packable (limbs.map Int64.toInt) ∧
      ExactRun Step.apply Step.apply (spreadSteps ++ reduceSteps)
        (productLimbs a.toNat b.toNat c.toNat) (productLimbs a.toNat b.toNat c.toNat)) ∧
    ∀ a b c : Encoded,
      a.mulAdd b c = Bytes.ofNat 32 ((a.toNat * b.toNat + c.toNat) % groupOrder) := by
  refine ⟨fun a b c => ?_, fun a b c => ?_⟩
  · have ha := toNat_lt_short a
    have hb := toNat_lt_short b
    have hc := toNat_lt_short c
    have hresidue := toNat_mulAdd a b c
    have hstands := mulAdd_related simulation_int64 a.toNat b.toNat c.toNat
    have hfit := fit_reduce_mulAdd ha hb hc
    rw [reduce_eq_foldl, mulAdd_eq_foldl, ← List.foldl_append] at hfit
    rw [List.foldl_append, ← mulAdd_eq_foldl, ← reduce_eq_foldl]
    refine ⟨eq_ofNat hresidue, hresidue, ?_, mulAdd_eq_ofLimbs a b c,
      packable_reduce reduces_mulAdd (holds_mulAdd ha hb hc) hstands,
      exactRun_of_fit (productLimbs_related simulation_int64 _ _ _) hfit⟩
    rw [hresidue]
    exact Nat.mod_lt _ (by decide)
  · refine eq_ofNat ((toNat_mulAdd _ _ _).trans ?_)
    exact ((a.toScalar_modEq.mul b.toScalar_modEq).add c.toScalar_modEq)

end Scalar
end Edwards25519
