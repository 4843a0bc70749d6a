import Edwards25519.Proofs.Point.Base
import Mathlib.GroupTheory.OrderOfElement

/-! The order of the base point is prime, so it is the order of every point that it takes to the neutral
one, except for that one itself. Different residues give different multiples of such a point. -/
namespace Edwards25519.CurvePoint

lemma base_ne_zero : base ≠ 0 := by
  intro h
  have hx : base.x = 0 := congrArg EdwardsCurve.Point.x h
  exact absurd hx (by decide)

/-- Scalars below the group order are determined by what they make of a point. -/
theorem nsmul_injOn {P : CurvePoint} (horder : groupOrder • P = 0) (hP : P ≠ 0) {m n : ℕ}
    (hm : m < groupOrder) (hn : n < groupOrder) (h : m • P = n • P) : m = n := by
  have hmod := nsmul_eq_nsmul_iff_modEq.mp h
  rw [addOrderOf_eq_prime horder hP] at hmod
  exact hmod.eq_of_lt_of_lt hm hn

lemma groupOrder_dvd_of_nsmul_base {n : ℕ} (h : n • base = 0) : groupOrder ∣ n := by
  rw [← addOrderOf_eq_prime groupOrder_nsmul_base base_ne_zero]
  exact addOrderOf_dvd_of_nsmul_eq_zero h

end Edwards25519.CurvePoint
