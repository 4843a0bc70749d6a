import Edwards25519.Proofs.Curve.Ed25519
import Edwards25519.Proofs.Field.Encoding

/-! Square roots of fractions. The candidate is a root of the fraction or of its negative just if the fraction
is a square, since `-1` is a square itself; in the second case the candidate times the root of `-1` is a root
of the fraction. -/
namespace Edwards25519

namespace Residue

open Coordinate

lemma isSquare_div_iff {u v : Residue} (hv : v ≠ 0) : IsSquare (u / v) ↔ ∃ r, v * r ^ 2 = u := by
  constructor
  · rintro ⟨r, hr⟩
    refine ⟨r, ?_⟩
    rw [pow_two, ← hr, mul_div_cancel₀ u hv]
  · rintro ⟨r, rfl⟩
    refine ⟨r, ?_⟩
    rw [mul_div_cancel_left₀ _ hv, pow_two]

/-- A root of the negative gives a root. -/
lemma mul_sqrtNegOne_sq {u v x : Residue} (h : v * x ^ 2 = -u) :
    v * (x * sqrtNegOne) ^ 2 = u := by
  rw [mul_pow, sqrtNegOne_sq]
  linear_combination -h

theorem sqrtRatio_iff {u v : Residue} (hv : v ≠ 0) :
    v * sqrtRatio u v ^ 2 = u ∨ v * sqrtRatio u v ^ 2 = -u ↔ IsSquare (u / v) := by
  rw [isSquare_div_iff hv]
  constructor
  · rintro (h | h)
    · exact ⟨_, h⟩
    · exact ⟨_, mul_sqrtNegOne_sq h⟩
  · rintro ⟨r, hr⟩
    exact sqrtRatio_of_square hr

lemma sqrtRatio_zero_right (u : Residue) : sqrtRatio u 0 = 0 := by
  have hfactor : u * (square 0 * 0) = 0 := by rw [mul_zero, mul_zero]
  unfold sqrtRatio
  dsimp only
  rw [hfactor, mul_zero]

end Residue

namespace FieldElement

open Coordinate

variable {u v x : FieldElement}

/-- What the program computes from a candidate, compared with an element as the program compares. -/
lemma mul_square_eq_iff (hv : v.IsOperand) (hx : x.IsOperand) {w : FieldElement} {y : Residue}
    (hw : w.residue = y) : (v * Coordinate.square x == w) = true ↔ v.residue * x.residue ^ 2 = y := by
  have hmul := hv.residue_mul hx.carried_square.isOperand
  rw [hx.residue_square] at hmul
  rw [← hw, ← hmul]
  exact congruent_iff

/-- The candidate on limbs is carried and stands for that of the residues. -/
lemma sqrtRatio_carried (hu : u.IsOperand) (hv : v.IsOperand) :
    (sqrtRatio u v).Carried ∧ (sqrtRatio u v).residue = sqrtRatio u.residue v.residue :=
  represents_one_iff.mp (factors_represents.sqrtRatio hu.representsFactor hv.representsFactor)

lemma sqrtNegOne_carried : (sqrtNegOne : FieldElement).Carried ∧
    (sqrtNegOne : FieldElement).residue = sqrtNegOne :=
  represents_one_iff.mp simulation_represents.sqrtNegOne

/-- The candidate for a root of `u / v` decides whether there is one. It is zero if `v` is. The comparisons
that the program makes tell the two cases apart. -/
theorem sqrtRatio_decides (hu : u.IsOperand) (hv : v.IsOperand) :
    let x := sqrtRatio u v
    x.Carried ∧
    (v.residue ≠ 0 →
      (v.residue * x.residue ^ 2 = u.residue ∨ v.residue * x.residue ^ 2 = -u.residue ↔
        IsSquare (u.residue / v.residue))) ∧
    (v.residue * x.residue ^ 2 = -u.residue →
      v.residue * (x * sqrtNegOne).residue ^ 2 = u.residue) ∧
    (v.residue = 0 → x.residue = 0) ∧
    ((v * Coordinate.square x == u) = true ↔ v.residue * x.residue ^ 2 = u.residue) ∧
    ((v * Coordinate.square x == -u) = true ↔ v.residue * x.residue ^ 2 = -u.residue) := by
  intro x
  obtain ⟨hx, hresidue⟩ : x.Carried ∧ x.residue = sqrtRatio u.residue v.residue :=
    sqrtRatio_carried hu hv
  obtain ⟨hi, hvalue⟩ := sqrtNegOne_carried
  refine ⟨hx, fun hne => ?_, fun h => ?_, fun hzero => ?_, mul_square_eq_iff hv hx.isOperand rfl,
    mul_square_eq_iff hv hx.isOperand hu.residue_neg⟩
  · rw [hresidue]
    exact Residue.sqrtRatio_iff hne
  · rw [hx.isOperand.residue_mul hi.isOperand, hvalue]
    exact Residue.mul_sqrtNegOne_sq h
  · rw [hresidue, hzero]
    exact Residue.sqrtRatio_zero_right u.residue

/-- The candidate for a root of `-1` is a root of its negative, so the other case does arise. -/
theorem sqrtRatio_decides_negOne :
    let u : FieldElement := -1
    let v : FieldElement := 1
    let x := sqrtRatio u v
    u.IsOperand ∧ v.IsOperand ∧ v.residue ≠ 0 ∧ IsSquare (u.residue / v.residue) ∧
    v.residue * x.residue ^ 2 = -u.residue ∧
    v.residue * (x * sqrtNegOne).residue ^ 2 = u.residue ∧
    (0 : FieldElement).residue = 0 ∧ (sqrtRatio v 0).residue = 0 := by
  intro u v x
  obtain ⟨hv, hone⟩ := represents_one_iff.mp simulation_represents.one
  obtain ⟨hu, hnegOne⟩ :=
    represents_one_iff.mp (simulation_represents.neg simulation_represents.one (by decide))
  obtain ⟨hzero, hzeroResidue⟩ := represents_one_iff.mp simulation_represents.zero
  have hne : v.residue ≠ 0 := by
    rw [hone]
    exact one_ne_zero
  have hodd : Odd ((fieldOrder - 1) / 4) := by decide
  have hcase : v.residue * x.residue ^ 2 = -u.residue := by
    rw [(sqrtRatio_carried hu.isOperand hv.isOperand).2, Residue.sqrtRatio_sq, hone, hnegOne, one_pow,
      mul_one, hodd.neg_one_pow]
    ring
  obtain ⟨-, hsquare, hroot, -⟩ := sqrtRatio_decides hu.isOperand hv.isOperand
  obtain ⟨-, -, -, hvanish, -⟩ := sqrtRatio_decides hv.isOperand hzero.isOperand
  exact ⟨hu.isOperand, hv.isOperand, hne, (hsquare hne).mp (.inr hcase), hcase, hroot hcase, hzeroResidue,
    hvanish hzeroResidue⟩

end FieldElement

end Edwards25519
