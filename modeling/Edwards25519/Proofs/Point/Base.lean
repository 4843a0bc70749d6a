import Edwards25519.Point.Base
import Edwards25519.Proofs.Point.Denotes
import Edwards25519.Scalar.Order

/-! The base point lies on the curve, and the group order is a multiple of its order: the multiple by
it, computed with the formulas of the library over the residues, is the neutral point. -/
namespace Edwards25519

def CurvePoint.base : CurvePoint where
  x := (Extended.base : Extended Residue).x
  y := (Extended.base : Extended Residue).y
  on := by
    unfold EdwardsCurve.On
    decide +kernel

namespace Extended

theorem denotes_base : (base : Extended Residue).Denotes CurvePoint.base :=
  ⟨one_ne_zero, (mul_one _).symm, (mul_one _).symm, (mul_one _).symm⟩

/-- The multiple by a number of at most `bits` bits, by doubling and adding. -/
def times {F : Type} [Coordinate F] (p : Extended F) : ℕ → ℕ → Extended F
  | 0, _ => neutral
  | bits + 1, n =>
    let half := p.times bits (n / 2)
    let twice := half.plus half
    if n % 2 = 0 then twice else twice.plus p

theorem denotes_times {p : Extended Residue} {P : CurvePoint} (h : p.Denotes P) {bits n : ℕ}
    (hn : n < 2 ^ bits) : (p.times bits n).Denotes (n • P) := by
  induction bits generalizing n with
  | zero =>
    obtain rfl : n = 0 := by simpa using hn
    rw [zero_nsmul]
    exact denotes_neutral
  | succ bits ih =>
    have hhalf := ih (show n / 2 < 2 ^ bits by rw [pow_succ] at hn; omega)
    have htwice := hhalf.plus hhalf
    rw [← add_nsmul] at htwice
    rw [times]
    split_ifs with hparity
    · rwa [show n / 2 + n / 2 = n by omega] at htwice
    · have hplus := htwice.plus h
      rwa [← succ_nsmul, show n / 2 + n / 2 + 1 = n by omega] at hplus

end Extended

namespace CurvePoint

theorem groupOrder_nsmul_base : groupOrder • base = 0 := by
  have hbits : groupOrder < 2 ^ 253 := by decide
  have htimes := Extended.denotes_times Extended.denotes_base hbits
  have hneutral : ((Extended.base : Extended Residue).times 253 groupOrder).x = 0 ∧
      ((Extended.base : Extended Residue).times 253 groupOrder).y =
        ((Extended.base : Extended Residue).times 253 groupOrder).z := by
    decide +kernel
  have hz := htimes.z_ne_zero
  have hx := htimes.x
  have hy := htimes.y
  rw [hneutral.1] at hx
  rw [hneutral.2] at hy
  apply EdwardsCurve.Point.ext
  · exact (mul_eq_zero.mp hx.symm).resolve_right hz
  · exact mul_right_cancel₀ hz (hy.symm.trans (one_mul _).symm)

/-- Scalars act by their residues. -/
theorem mod_nsmul {P : CurvePoint} (h : groupOrder • P = 0) (n : ℕ) :
    (n % groupOrder) • P = n • P :=
  (nsmul_eq_mod_nsmul n h).symm

theorem mod_nsmul_base (n : ℕ) : (n % groupOrder) • base = n • base :=
  mod_nsmul groupOrder_nsmul_base n

/-- The order takes all multiples of the base point to the neutral one. -/
lemma groupOrder_nsmul_nsmul_base (n : ℕ) : groupOrder • n • base = 0 := by
  rw [nsmul_left_comm, groupOrder_nsmul_base, nsmul_zero]

/-- The group order is odd, and the points with `y = 0` have order 4. -/
theorem y_ne_zero {P : CurvePoint} (h : groupOrder • P = 0) : P.y ≠ 0 := by
  intro hy
  have hP : P = 0 := by
    have hmod : groupOrder % 4 = 1 := by decide
    rw [← one_nsmul P, ← hmod,
      ← nsmul_eq_mod_nsmul _ (EdwardsCurve.Point.four_nsmul_of_y_eq_zero hy), h]
  rw [hP] at hy
  exact one_ne_zero hy

end CurvePoint
end Edwards25519
