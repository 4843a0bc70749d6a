import Edwards25519.Proofs.Field.Operand
import Edwards25519.Proofs.Point.Represents

/-! Which extended points are valid, said of their limbs, and the formulas on them. The formulas are
the addition law of the curve for all valid points, equal, opposite and of small order included. -/
namespace Edwards25519

/-- The coordinates are carried, the denominator is not zero, the fourth coordinate is the product of
the first two over it, and the quotients lie on the curve. -/
structure Extended.Valid (p : Extended FieldElement) : Prop where
  x : p.x.Carried
  y : p.y.Carried
  z : p.z.Carried
  t : p.t.Carried
  z_ne_zero : p.z.residue ≠ 0
  product : p.x.residue * p.y.residue = p.z.residue * p.t.residue
  on : curve.On (p.x.residue / p.z.residue) (p.y.residue / p.z.residue)

/-- The point with the quotients as its coordinates. -/
def Extended.Valid.point {p : Extended FieldElement} (h : p.Valid) : CurvePoint :=
  ⟨p.x.residue / p.z.residue, p.y.residue / p.z.residue, h.on⟩

/-- Both conversions of a completed point give the point of the curve. -/
structure Completed.Gives (c : Completed FieldElement) (P : CurvePoint) : Prop where
  extended : ∃ h : c.toExtended.Valid, h.point = P
  z_ne_zero : c.toProjective.z.residue ≠ 0
  x : c.toProjective.x.residue / c.toProjective.z.residue = P.x
  y : c.toProjective.y.residue / c.toProjective.z.residue = P.y

variable {P : CurvePoint}

/-- The quotients of the residues are the coordinates of the point. -/
lemma Projective.Represents.div {p : Projective FieldElement} (h : p.Represents P) :
    p.z.residue ≠ 0 ∧ p.x.residue / p.z.residue = P.x ∧ p.y.residue / p.z.residue = P.y := by
  obtain ⟨q, hq, hP⟩ := h
  rw [(FieldElement.represents_one_iff.mp hq.x).2, (FieldElement.represents_one_iff.mp hq.y).2,
    (FieldElement.represents_one_iff.mp hq.z).2, hP.x, hP.y]
  exact ⟨hP.z_ne_zero, mul_div_cancel_right₀ _ hP.z_ne_zero, mul_div_cancel_right₀ _ hP.z_ne_zero⟩

section extended

variable {p : Extended FieldElement}

lemma Extended.Valid.represents (h : p.Valid) : p.Represents h.point := by
  refine ⟨⟨p.x.residue, p.y.residue, p.z.residue, p.t.residue⟩, ?_,
    Extended.denotes_of_product ⟨h.z_ne_zero, ?_, ?_⟩ h.product⟩
  · constructor <;> rw [FieldElement.represents_one_iff]
    exacts [⟨h.x, rfl⟩, ⟨h.y, rfl⟩, ⟨h.z, rfl⟩, ⟨h.t, rfl⟩]
  · exact (div_mul_cancel₀ _ h.z_ne_zero).symm
  · exact (div_mul_cancel₀ _ h.z_ne_zero).symm

/-- Validity is what it takes to stand for a point. -/
theorem Extended.represents_iff : p.Represents P ↔ ∃ h : p.Valid, h.point = P := by
  constructor
  · intro h
    obtain ⟨hz, hdivx, hdivy⟩ :
        p.z.residue ≠ 0 ∧ p.x.residue / p.z.residue = P.x ∧ p.y.residue / p.z.residue = P.y :=
      h.toProjective.div
    have hon : curve.On (p.x.residue / p.z.residue) (p.y.residue / p.z.residue) := by
      rw [hdivx, hdivy]
      exact P.on
    obtain ⟨q, hq, hP⟩ := h
    obtain ⟨hxb, hqx⟩ := FieldElement.represents_one_iff.mp hq.x
    obtain ⟨hyb, hqy⟩ := FieldElement.represents_one_iff.mp hq.y
    obtain ⟨hzb, hqz⟩ := FieldElement.represents_one_iff.mp hq.z
    obtain ⟨htb, hqt⟩ := FieldElement.represents_one_iff.mp hq.t
    have hproduct : p.x.residue * p.y.residue = p.z.residue * p.t.residue := by
      rw [hqx, hqy, hqz, hqt, hP.x, hP.y, hP.t]
      ring
    exact ⟨⟨hxb, hyb, hzb, htb, hz, hproduct, hon⟩, EdwardsCurve.Point.ext hdivx hdivy⟩
  · rintro ⟨h, rfl⟩
    exact h.represents

end extended

lemma Completed.Represents.gives {c : Completed FieldElement} (h : c.Represents P) :
    c.Gives P := by
  obtain ⟨hz, hdivx, hdivy⟩ := h.toProjective.div
  exact ⟨Extended.represents_iff.mp h.toExtended, hz, hdivx, hdivy⟩

/-- The formulas are the addition law of the curve, which is complete: its denominators are never
zero. -/
theorem Extended.addition_law {p q : Extended FieldElement} (hp : p.Valid) (hq : q.Valid) :
    1 + curve.cross hp.point.x hp.point.y hq.point.x hq.point.y ≠ 0 ∧
    1 - curve.cross hp.point.x hp.point.y hq.point.x hq.point.y ≠ 0 ∧
    (p.add q.toCached).Gives (hp.point + hq.point) ∧
    (p.addPrecomputed q.toPrecomputed).Gives (hp.point + hq.point) ∧
    (p.subtract q.toCached).Gives (hp.point - hq.point) ∧
    (p.subtractPrecomputed q.toPrecomputed).Gives (hp.point - hq.point) ∧
    p.double.Gives (hp.point + hp.point) ∧
    ∃ h : p.negate.Valid, h.point = -hp.point ∧ (neutral.subtract p.toCached).Gives h.point := by
  have hP := hp.represents
  have hQ := hq.represents
  obtain ⟨hneg, hpoint⟩ := represents_iff.mp hP.negate
  refine ⟨EdwardsCurve.one_add_cross_ne_zero hp.point.on hq.point.on,
    EdwardsCurve.one_sub_cross_ne_zero hp.point.on hq.point.on, (hP.add hQ).gives,
    (hP.addPrecomputed hQ).gives, (hP.subtract hQ).gives, (hP.subtractPrecomputed hQ).gives,
    hP.double.gives, hneg, hpoint, ?_⟩
  rw [hpoint, ← zero_sub]
  exact (represents_neutral.subtract hP).gives

/-- The base point and its negative, which are opposite. -/
theorem Extended.addition_law_opposite :
    (base : Extended FieldElement).Valid ∧ (base : Extended FieldElement).negate.Valid ∧
    (base.add base.negate.toCached).Gives 0 ∧
    (base.subtract base.negate.toCached).Gives (CurvePoint.base + CurvePoint.base) := by
  obtain ⟨hp, hpoint⟩ := represents_iff.mp represents_base
  obtain ⟨hq, hopposite⟩ := represents_iff.mp represents_base.negate
  obtain ⟨-, -, hadd, -, hsubtract, -⟩ := addition_law hp hq
  rw [hpoint, hopposite, add_neg_cancel] at hadd
  rw [hpoint, hopposite, sub_neg_eq_add] at hsubtract
  exact ⟨hp, hq, hadd, hsubtract⟩

end Edwards25519
