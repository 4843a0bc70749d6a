import Edwards25519.Proofs.Curve.Group
import Edwards25519.Proofs.Field.Powers

/-! The curve over the residues modulo `2 ^ 255 - 19` whose coefficient is `-121665 / 121666`. -/
namespace Edwards25519

namespace Residue

lemma natCast_eq_zero {n : ℕ} (h : fieldOrder ∣ n) : (n : Residue) = 0 :=
  (ZMod.natCast_eq_zero_iff n fieldOrder).mpr h

lemma natCast_ne_zero {n : ℕ} (h : ¬ fieldOrder ∣ n) : (n : Residue) ≠ 0 :=
  fun h0 => h ((ZMod.natCast_eq_zero_iff n fieldOrder).mp h0)

lemma sqrtNegOne_sq : (Coordinate.sqrtNegOne : Residue) ^ 2 = -1 := by
  have h : ((rootOfNegOne ^ 2 + 1 : ℕ) : Residue) = 0 := natCast_eq_zero (by decide)
  push_cast at h
  exact eq_neg_of_add_eq_zero_left h

/-- By Euler's criterion. -/
lemma d_nonsquare : ¬ IsSquare (Coordinate.d : Residue) := by
  have hd : (curveCoefficient : Residue) ≠ 0 := natCast_ne_zero (by decide)
  have hpow : (curveCoefficient : Residue) ^ (fieldOrder / 2) =
      (powMod fieldOrder curveCoefficient 255 (fieldOrder / 2) : ℕ) := natCast_pow _ (by decide)
  have hvalue : powMod fieldOrder curveCoefficient 255 (fieldOrder / 2) = fieldOrder - 1 := by
    decide +kernel
  change ¬ IsSquare (curveCoefficient : Residue)
  rw [ZMod.euler_criterion fieldOrder hd, hpow, hvalue]
  intro h
  have hone : ((fieldOrder - 1 : ℕ) : Residue) = ((1 : ℕ) : Residue) := h.trans Nat.cast_one.symm
  rw [ZMod.natCast_eq_natCast_iff'] at hone
  exact absurd hone (by decide)

lemma two_ne_zero : (2 : Residue) ≠ 0 := by
  have h : ((2 : ℕ) : Residue) ≠ 0 := natCast_ne_zero (by decide)
  exact_mod_cast h

lemma twoD_eq : (Coordinate.twoD : Residue) = 2 * Coordinate.d := Nat.cast_mul 2 curveCoefficient

end Residue

/-- The curve of the library. -/
def curve : EdwardsCurve Residue where
  d := Coordinate.d
  i := Coordinate.sqrtNegOne
  i_sq := Residue.sqrtNegOne_sq
  d_nonsquare := Residue.d_nonsquare
  two_ne_zero := Residue.two_ne_zero

/-- The group of the points of the curve. -/
abbrev CurvePoint : Type := curve.Point

lemma curve_d : curve.d = (Coordinate.d : Residue) := rfl

end Edwards25519
