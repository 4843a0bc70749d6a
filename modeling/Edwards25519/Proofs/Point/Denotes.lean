import Edwards25519.Point.Addition
import Edwards25519.Point.Compression
import Edwards25519.Proofs.Curve.Ed25519

/-! The points of the curve that coordinates stand for, and the formulas as operations of the group.
The formulas hold without exceptions, because the addition law of the curve is complete. -/
namespace Edwards25519

structure Affine.Denotes (p : Affine Residue) (P : CurvePoint) : Prop where
  x : p.x = P.x
  y : p.y = P.y

structure Projective.Denotes (p : Projective Residue) (P : CurvePoint) : Prop where
  z_ne_zero : p.z ≠ 0
  x : p.x = P.x * p.z
  y : p.y = P.y * p.z

structure Extended.Denotes (p : Extended Residue) (P : CurvePoint) : Prop where
  z_ne_zero : p.z ≠ 0
  x : p.x = P.x * p.z
  y : p.y = P.y * p.z
  t : p.t = P.x * P.y * p.z

structure Completed.Denotes (p : Completed Residue) (P : CurvePoint) : Prop where
  z_ne_zero : p.z ≠ 0
  t_ne_zero : p.t ≠ 0
  x : p.x = P.x * p.z
  y : p.y = P.y * p.t

structure Precomputed.Denotes (p : Precomputed Residue) (P : CurvePoint) : Prop where
  yPlusX : p.yPlusX = P.y + P.x
  yMinusX : p.yMinusX = P.y - P.x
  xy2d : p.xy2d = 2 * curve.d * P.x * P.y

structure Cached.Denotes (p : Cached Residue) (P : CurvePoint) : Prop where
  z_ne_zero : p.z ≠ 0
  yPlusX : p.yPlusX = (P.y + P.x) * p.z
  yMinusX : p.yMinusX = (P.y - P.x) * p.z
  t2d : p.t2d = 2 * curve.d * P.x * P.y * p.z

variable {P Q : CurvePoint}

theorem Projective.denotes_neutral : (neutral : Projective Residue).Denotes 0 :=
  ⟨one_ne_zero, (zero_mul _).symm, (one_mul _).symm⟩

theorem Extended.denotes_neutral : (neutral : Extended Residue).Denotes 0 :=
  ⟨one_ne_zero, (zero_mul _).symm, (one_mul _).symm, by simp [neutral]⟩

theorem Precomputed.denotes_neutral : (neutral : Precomputed Residue).Denotes 0 := by
  constructor <;> simp [neutral]

theorem Precomputed.Denotes.negate {p : Precomputed Residue} (h : p.Denotes P) :
    p.negate.Denotes (-P) := by
  constructor
  · rw [Precomputed.negate, h.yMinusX, EdwardsCurve.Point.neg_x, EdwardsCurve.Point.neg_y]
    ring
  · rw [Precomputed.negate, h.yPlusX, EdwardsCurve.Point.neg_x, EdwardsCurve.Point.neg_y]
    ring
  · rw [Precomputed.negate, h.xy2d, EdwardsCurve.Point.neg_x, EdwardsCurve.Point.neg_y]
    ring

section conversions

theorem Projective.Denotes.toAffine {p : Projective Residue} (h : p.Denotes P) :
    p.toAffine.Denotes P where
  x := by
    change p.x * Coordinate.invert p.z = P.x
    rw [Residue.invert_eq, h.x, mul_inv_cancel_right₀ h.z_ne_zero]
  y := by
    change p.y * Coordinate.invert p.z = P.y
    rw [Residue.invert_eq, h.y, mul_inv_cancel_right₀ h.z_ne_zero]

variable {p : Extended Residue}

theorem Extended.Denotes.toProjective (h : p.Denotes P) : p.toProjective.Denotes P :=
  ⟨h.z_ne_zero, h.x, h.y⟩

/-- The fourth coordinate follows from the other ones. -/
lemma Extended.denotes_of_product (h : p.toProjective.Denotes P) (hproduct : p.x * p.y = p.z * p.t) :
    p.Denotes P := by
  have hx : p.x = P.x * p.z := h.x
  have hy : p.y = P.y * p.z := h.y
  refine ⟨h.z_ne_zero, hx, hy, mul_left_cancel₀ h.z_ne_zero ?_⟩
  change p.z * p.t = p.z * (P.x * P.y * p.z)
  rw [← hproduct, hx, hy]
  ring

theorem Extended.Denotes.toCached (h : p.Denotes P) : p.toCached.Denotes P := by
  refine ⟨h.z_ne_zero, ?_, ?_, ?_⟩
  · change p.y + p.x = _
    rw [h.x, h.y]
    exact (add_mul ..).symm
  · change p.y - p.x = _
    rw [h.x, h.y]
    exact (sub_mul ..).symm
  · change p.t * Coordinate.twoD = _
    rw [h.t, Residue.twoD_eq, curve_d]
    change _ = 2 * Coordinate.d * P.x * P.y * p.z
    ring

theorem Extended.Denotes.toPrecomputed (h : p.Denotes P) : p.toPrecomputed.Denotes P := by
  have haffine := h.toProjective.toAffine
  refine ⟨?_, ?_, ?_⟩
  · change p.toProjective.toAffine.y + p.toProjective.toAffine.x = _
    rw [haffine.x, haffine.y]
  · change p.toProjective.toAffine.y - p.toProjective.toAffine.x = _
    rw [haffine.x, haffine.y]
  · change p.toProjective.toAffine.x * p.toProjective.toAffine.y * Coordinate.twoD = _
    rw [haffine.x, haffine.y, Residue.twoD_eq, curve_d]
    ring

variable {c : Completed Residue}

theorem Completed.Denotes.toProjective (h : c.Denotes P) : c.toProjective.Denotes P := by
  refine ⟨mul_ne_zero h.z_ne_zero h.t_ne_zero, ?_, ?_⟩
  · change c.x * c.t = P.x * (c.z * c.t)
    rw [h.x]
    ring
  · change c.y * c.z = P.y * (c.z * c.t)
    rw [h.y]
    ring

theorem Completed.Denotes.toExtended (h : c.Denotes P) : c.toExtended.Denotes P := by
  obtain ⟨hz, hx, hy⟩ := h.toProjective
  refine ⟨hz, hx, hy, ?_⟩
  change c.x * c.y = P.x * P.y * (c.z * c.t)
  rw [h.x, h.y]
  ring

end conversions

/-- The program's check is the curve equation. -/
theorem Affine.onCurve_iff {p : Affine Residue} : p.onCurve = true ↔ curve.On p.x p.y := by
  rw [onCurve, Residue.congruent_iff, Residue.square_eq, Residue.square_eq]
  rfl

theorem Projective.Denotes.onCurve {p : Projective Residue} (h : p.Denotes P) :
    p.onCurve = true := by
  have haffine := h.toAffine
  rw [Projective.onCurve, Affine.onCurve_iff, haffine.x, haffine.y]
  exact P.on

/-- Cross multiplication decides whether two points are equal. -/
theorem Extended.Denotes.agrees_iff {p q : Extended Residue} (hp : p.Denotes P) (hq : q.Denotes Q) :
    p.agrees q = true ↔ P = Q := by
  have hz := mul_ne_zero hp.z_ne_zero hq.z_ne_zero
  have hx : p.x * q.z = q.x * p.z ↔ P.x = Q.x := by
    rw [hp.x, hq.x, mul_assoc, mul_assoc, mul_comm q.z, mul_left_inj' hz]
  have hy : p.y * q.z = q.y * p.z ↔ P.y = Q.y := by
    rw [hp.y, hq.y, mul_assoc, mul_assoc, mul_comm q.z, mul_left_inj' hz]
  rw [agrees, Bool.and_eq_true, Residue.congruent_iff, Residue.congruent_iff, hx, hy,
    EdwardsCurve.Point.ext_iff]

section addition

/-- The numerators and denominators of a sum, up to a common factor. -/
lemma Completed.denotes_add {c : Completed Residue} {s : Residue} (hs : s ≠ 0)
    (hx : c.x = s * (P.x * Q.y + P.y * Q.x)) (hy : c.y = s * (P.y * Q.y + P.x * Q.x))
    (hz : c.z = s * (1 + curve.cross P.x P.y Q.x Q.y))
    (ht : c.t = s * (1 - curve.cross P.x P.y Q.x Q.y)) : c.Denotes (P + Q) := by
  have hplus := EdwardsCurve.one_add_cross_ne_zero P.on Q.on
  have hminus := EdwardsCurve.one_sub_cross_ne_zero P.on Q.on
  refine ⟨hz ▸ mul_ne_zero hs hplus, ht ▸ mul_ne_zero hs hminus, ?_, ?_⟩
  · rw [hx, hz, EdwardsCurve.Point.add_x, ← EdwardsCurve.sumX_mul P.on Q.on]
    ring
  · rw [hy, ht, EdwardsCurve.Point.add_y, ← EdwardsCurve.sumY_mul P.on Q.on]
    ring

theorem Projective.Denotes.double {p : Projective Residue} (h : p.Denotes P) :
    p.double.Denotes (P + P) := by
  have hP := P.on
  unfold EdwardsCurve.On at hP
  apply Completed.denotes_add (s := p.z ^ 2) (pow_ne_zero 2 h.z_ne_zero)
  · change (p.x + p.y) * (p.x + p.y) - (p.y * p.y + p.x * p.x) = _
    rw [h.x, h.y]
    ring
  · change p.y * p.y + p.x * p.x = _
    rw [h.x, h.y]
    ring
  · change p.y * p.y - p.x * p.x = _
    rw [h.x, h.y, EdwardsCurve.cross]
    linear_combination p.z ^ 2 * hP
  · change 2 * (p.z * p.z) - (p.y * p.y - p.x * p.x) = _
    rw [h.x, h.y, EdwardsCurve.cross]
    linear_combination -p.z ^ 2 * hP

variable {p : Extended Residue}

theorem Extended.Denotes.double (h : p.Denotes P) : p.double.Denotes (P + P) :=
  h.toProjective.double

theorem Extended.Denotes.negate (h : p.Denotes P) : p.negate.Denotes (-P) := by
  refine ⟨h.z_ne_zero, ?_, h.y, ?_⟩
  · change -p.x = -P.x * p.z
    rw [h.x]
    ring
  · change -p.t = -P.x * P.y * p.z
    rw [h.t]
    ring

theorem Extended.Denotes.add (h : p.Denotes P) {q : Cached Residue} (hq : q.Denotes Q) :
    (p.add q).Denotes (P + Q) := by
  apply Completed.denotes_add (s := 2 * (p.z * q.z))
    (mul_ne_zero Residue.two_ne_zero (mul_ne_zero h.z_ne_zero hq.z_ne_zero))
  · change (p.y + p.x) * q.yPlusX - (p.y - p.x) * q.yMinusX = _
    rw [h.x, h.y, hq.yPlusX, hq.yMinusX]
    ring
  · change (p.y + p.x) * q.yPlusX + (p.y - p.x) * q.yMinusX = _
    rw [h.x, h.y, hq.yPlusX, hq.yMinusX]
    ring
  · change p.z * q.z + p.z * q.z + q.t2d * p.t = _
    rw [h.t, hq.t2d, EdwardsCurve.cross]
    ring
  · change p.z * q.z + p.z * q.z - q.t2d * p.t = _
    rw [h.t, hq.t2d, EdwardsCurve.cross]
    ring

/-- A subtraction adds the negated point. -/
theorem Extended.Denotes.subtract (h : p.Denotes P) {q : Cached Residue} (hq : q.Denotes Q) :
    (p.subtract q).Denotes (P - Q) := by
  rw [sub_eq_add_neg]
  apply Completed.denotes_add (s := 2 * (p.z * q.z))
    (mul_ne_zero Residue.two_ne_zero (mul_ne_zero h.z_ne_zero hq.z_ne_zero))
  · change (p.y + p.x) * q.yMinusX - (p.y - p.x) * q.yPlusX = _
    rw [h.x, h.y, hq.yPlusX, hq.yMinusX, EdwardsCurve.Point.neg_x, EdwardsCurve.Point.neg_y]
    ring
  · change (p.y + p.x) * q.yMinusX + (p.y - p.x) * q.yPlusX = _
    rw [h.x, h.y, hq.yPlusX, hq.yMinusX, EdwardsCurve.Point.neg_x, EdwardsCurve.Point.neg_y]
    ring
  · change p.z * q.z + p.z * q.z - q.t2d * p.t = _
    rw [h.t, hq.t2d, EdwardsCurve.cross, EdwardsCurve.Point.neg_x, EdwardsCurve.Point.neg_y]
    ring
  · change p.z * q.z + p.z * q.z + q.t2d * p.t = _
    rw [h.t, hq.t2d, EdwardsCurve.cross, EdwardsCurve.Point.neg_x, EdwardsCurve.Point.neg_y]
    ring

theorem Extended.Denotes.addPrecomputed (h : p.Denotes P) {q : Precomputed Residue}
    (hq : q.Denotes Q) : (p.addPrecomputed q).Denotes (P + Q) := by
  apply Completed.denotes_add (s := 2 * p.z) (mul_ne_zero Residue.two_ne_zero h.z_ne_zero)
  · change (p.y + p.x) * q.yPlusX - (p.y - p.x) * q.yMinusX = _
    rw [h.x, h.y, hq.yPlusX, hq.yMinusX]
    ring
  · change (p.y + p.x) * q.yPlusX + (p.y - p.x) * q.yMinusX = _
    rw [h.x, h.y, hq.yPlusX, hq.yMinusX]
    ring
  · change p.z + p.z + q.xy2d * p.t = _
    rw [h.t, hq.xy2d, EdwardsCurve.cross]
    ring
  · change p.z + p.z - q.xy2d * p.t = _
    rw [h.t, hq.xy2d, EdwardsCurve.cross]
    ring

theorem Extended.Denotes.subtractPrecomputed (h : p.Denotes P) {q : Precomputed Residue}
    (hq : q.Denotes Q) : (p.subtractPrecomputed q).Denotes (P - Q) := by
  have hadd := h.addPrecomputed hq.negate
  have heq : p.subtractPrecomputed q = p.addPrecomputed q.negate := by
    simp only [Extended.subtractPrecomputed, Extended.addPrecomputed, Precomputed.negate, neg_mul,
      sub_neg_eq_add, ← sub_eq_add_neg]
  rw [heq, sub_eq_add_neg]
  exact hadd

theorem Extended.Denotes.plus (h : p.Denotes P) {q : Extended Residue} (hq : q.Denotes Q) :
    (p.plus q).Denotes (P + Q) :=
  (h.add hq.toCached).toExtended

end addition

end Edwards25519
