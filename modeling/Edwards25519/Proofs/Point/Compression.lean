import Edwards25519.Point.Element
import Edwards25519.Proofs.Point.Order
import Edwards25519.Proofs.Point.Validity

/-! Encoding a point and decoding it again. An encoding determines the point, and a point is encoded in
one way only: of the strings that are decoded to it, the one whose residue is reduced and whose bit 255
is the parity of `x`. -/
namespace Edwards25519

variable {P Q : CurvePoint}

/-- The string that a decoded point is encoded to again. -/
theorem CurvePoint.Decodes.encode_eq_iff {b : Bytes 32} (h : Decodes b P) :
    P.encode = b ↔ b.toNat % 2 ^ 255 < fieldOrder ∧ ¬ (P.x = 0 ∧ b.topBit = true) := by
  have horder : fieldOrder = 2 ^ 255 - 19 := rfl
  have hy := ZMod.val_lt P.y
  constructor
  · rintro rfl
    rw [Bytes.topBit_iff, toNat_encode]
    refine ⟨by split_ifs <;> omega, fun ⟨hx, hbit⟩ => ?_⟩
    rw [hx, ZMod.val_zero, if_neg (by decide)] at hbit
    omega
  · rintro ⟨hlow, hzero⟩
    have hb := b.toNat_lt
    have hval : P.y.val = b.toNat % 2 ^ 255 := by
      rw [h.y, ZMod.val_natCast, Nat.mod_eq_of_lt hlow]
    have hparity : Odd P.x.val ↔ 2 ^ 255 ≤ b.toNat := by
      rw [← Bytes.topBit_iff]
      by_cases hx : P.x = 0
      · rw [hx, ZMod.val_zero]
        exact iff_of_false (by decide) fun hbit => hzero ⟨hx, hbit⟩
      · exact h.sign hx
    apply Bytes.toNat_injective
    rw [toNat_encode, hval]
    split_ifs with hodd
    · rw [hparity] at hodd
      omega
    · rw [hparity] at hodd
      omega

/-- The coordinates are operands, the denominator is not zero, and the quotients lie on the curve. -/
structure Projective.Valid (p : Projective FieldElement) : Prop where
  x : p.x.IsOperand
  y : p.y.IsOperand
  z : p.z.IsOperand
  z_ne_zero : p.z.residue ≠ 0
  on : curve.On (p.x.residue / p.z.residue) (p.y.residue / p.z.residue)

/-- The point with the quotients as its coordinates. -/
def Projective.Valid.point {p : Projective FieldElement} (h : p.Valid) : CurvePoint :=
  ⟨p.x.residue / p.z.residue, p.y.residue / p.z.residue, h.on⟩

/-- The coordinates are operands, the denominators are not zero, and the quotients lie on the curve. -/
structure Completed.Valid (c : Completed FieldElement) : Prop where
  x : c.x.IsOperand
  y : c.y.IsOperand
  z : c.z.IsOperand
  t : c.t.IsOperand
  z_ne_zero : c.z.residue ≠ 0
  t_ne_zero : c.t.residue ≠ 0
  on : curve.On (c.x.residue / c.z.residue) (c.y.residue / c.t.residue)

@[inherit_doc Projective.Valid.point]
def Completed.Valid.point {c : Completed FieldElement} (h : c.Valid) : CurvePoint :=
  ⟨c.x.residue / c.z.residue, c.y.residue / c.t.residue, h.on⟩

open FieldElement

def Projective.residues (p : Projective FieldElement) : Projective Residue :=
  ⟨p.x.residue, p.y.residue, p.z.residue⟩

def Extended.residues (p : Extended FieldElement) : Extended Residue :=
  ⟨p.x.residue, p.y.residue, p.z.residue, p.t.residue⟩

def Completed.residues (c : Completed FieldElement) : Completed Residue :=
  ⟨c.x.residue, c.y.residue, c.z.residue, c.t.residue⟩

def Affine.residues (p : Affine FieldElement) : Affine Residue := ⟨p.x.residue, p.y.residue⟩

def Precomputed.residues (p : Precomputed FieldElement) : Precomputed Residue :=
  ⟨p.yPlusX.residue, p.yMinusX.residue, p.xy2d.residue⟩

def Cached.residues (c : Cached FieldElement) : Cached Residue :=
  ⟨c.yPlusX.residue, c.yMinusX.residue, c.z.residue, c.t2d.residue⟩

lemma Projective.Valid.denotes {p : Projective FieldElement} (h : p.Valid) :
    p.residues.Denotes h.point :=
  ⟨h.z_ne_zero, (div_mul_cancel₀ _ h.z_ne_zero).symm, (div_mul_cancel₀ _ h.z_ne_zero).symm⟩

lemma Completed.Valid.denotes {c : Completed FieldElement} (h : c.Valid) :
    c.residues.Denotes h.point :=
  ⟨h.z_ne_zero, h.t_ne_zero, (div_mul_cancel₀ _ h.z_ne_zero).symm,
    (div_mul_cancel₀ _ h.t_ne_zero).symm⟩

lemma Projective.Valid.related_toAffine {p : Projective FieldElement} (h : p.Valid) :
    p.toAffine.Related FieldElement.Represents p.residues.toAffine :=
  factors_represents.projective_toAffine h.x.representsFactor h.y.representsFactor
    h.z.representsFactor

theorem Projective.Valid.encode {p : Projective FieldElement} (h : p.Valid) :
    p.encode = h.point.encode :=
  (simulation_represents.affine_encode h.related_toAffine).trans h.denotes.encode

lemma Completed.Valid.represents_toExtended {c : Completed FieldElement} (h : c.Valid) :
    c.toExtended.Represents h.point :=
  ⟨_, factors_represents.completed_toExtended h.x.representsFactor h.y.representsFactor
    h.z.representsFactor h.t.representsFactor, h.denotes.toExtended⟩

lemma Completed.Valid.represents_toProjective {c : Completed FieldElement} (h : c.Valid) :
    c.toProjective.Represents h.point :=
  h.represents_toExtended.toProjective

theorem Completed.Valid.encode {c : Completed FieldElement} (h : c.Valid) :
    c.toProjective.encode = h.point.encode :=
  h.represents_toProjective.encode

lemma Projective.Represents.valid {p : Projective FieldElement} (h : p.Represents P) :
    ∃ h : p.Valid, h.point = P := by
  obtain ⟨hz, hx, hy⟩ := h.div
  obtain ⟨q, hq, -⟩ := h
  have hon : curve.On (p.x.residue / p.z.residue) (p.y.residue / p.z.residue) := by
    rw [hx, hy]
    exact P.on
  have hoperand {x : FieldElement} {y : Residue} (h : FieldElement.Represents 1 x y) : x.IsOperand :=
    (represents_one_iff.mp h).1.isOperand
  exact ⟨⟨hoperand hq.x, hoperand hq.y, hoperand hq.z, hz, hon⟩, EdwardsCurve.Point.ext hx hy⟩

/-- The coordinates of a sum are not carried, but they are operands. -/
lemma Completed.Represents.valid {c : Completed FieldElement} (h : c.Represents P) :
    ∃ h : c.Valid, h.point = P := by
  obtain ⟨q, hq, hP⟩ := h
  obtain ⟨hxb, hx⟩ := represents_operand hq.x
  obtain ⟨hyb, hy⟩ := represents_operand hq.y
  obtain ⟨hzb, hz⟩ := represents_operand hq.z
  obtain ⟨htb, ht⟩ := represents_operand hq.t
  have hdivx : c.x.residue / c.z.residue = P.x := by
    rw [hx, hz, hP.x, mul_div_cancel_right₀ _ hP.z_ne_zero]
  have hdivy : c.y.residue / c.t.residue = P.y := by
    rw [hy, ht, hP.y, mul_div_cancel_right₀ _ hP.t_ne_zero]
  have hon : curve.On (c.x.residue / c.z.residue) (c.y.residue / c.t.residue) := by
    rw [hdivx, hdivy]
    exact P.on
  exact ⟨⟨hxb, hyb, hzb, htb, hz ▸ hP.z_ne_zero, ht ▸ hP.t_ne_zero, hon⟩,
    EdwardsCurve.Point.ext hdivx hdivy⟩

/-- The point that an element in a system with denominators holds. -/
inductive Element.Holds : Element FieldElement → CurvePoint → Prop
  | projective {p : Projective FieldElement} (h : p.Valid) : Holds (.projective p) h.point
  | extended {p : Extended FieldElement} (h : p.toProjective.Valid) : Holds (.extended p) h.point
  | completed {c : Completed FieldElement} (h : c.Valid) : Holds (.completed c) h.point

theorem Element.Holds.encode {e : Element FieldElement} (h : e.Holds P) :
    e.encode = .ok P.encode := by
  cases h with
  | projective h => exact congrArg Except.ok h.encode
  | extended h => exact congrArg Except.ok h.encode
  | completed h => exact congrArg Except.ok h.encode

lemma Extended.Represents.holds {p : Extended FieldElement} (h : p.Represents P) :
    Element.Holds (.extended p) P := by
  obtain ⟨hvalid, rfl⟩ := h.toProjective.valid
  exact .extended hvalid

lemma Completed.Represents.holds {c : Completed FieldElement} (h : c.Represents P) :
    Element.Holds (.completed c) P := by
  obtain ⟨hvalid, rfl⟩ := h.valid
  exact .completed hvalid

/-- Points are compressed without loss. Encoding and decoding gives the same point, elements have equal
encodings if they hold the same point, and a string that is decoded is the encoding of what it is
decoded to unless its residue is not reduced or bit 255 is set where `x` is zero. -/
theorem Element.encode_decode :
    (∀ e P, Element.Holds e P → ∃ b p, e.encode = .ok b ∧
      Extended.decode? b = some p ∧ ∃ h : p.Valid, h.point = P) ∧
    (∀ e f P Q, Element.Holds e P → Element.Holds f Q → (e.encode = f.encode ↔ P = Q)) ∧
    ∀ b p, Extended.decode? b = some p → ∃ h : p.Valid,
      (p.encode = b ↔
        b.toNat % 2 ^ 255 < fieldOrder ∧ ¬ (h.point.x = 0 ∧ b.topBit = true)) := by
  refine ⟨fun e P he => ?_, fun e f P Q he hf => ?_, fun b p hp => ?_⟩
  · obtain ⟨p, hp, hpoint⟩ := Extended.decode_of_decodes (CurvePoint.decodes_encode P)
    exact ⟨P.encode, p, he.encode, hp, Extended.represents_iff.mp hpoint⟩
  · rw [he.encode, hf.encode, Except.ok.injEq, CurvePoint.encode_inj]
  · obtain ⟨P, hP, hpoint⟩ := Extended.represents_of_decode hp
    obtain ⟨hvalid, rfl⟩ := Extended.represents_iff.mp hpoint
    refine ⟨hvalid, ?_⟩
    rw [hpoint.encode, hP.encode_eq_iff]

/-- The base point, its double as it leaves the formula, and a string for the neutral point with bit
255 set. -/
theorem Element.encode_decode_base :
    let e : Element FieldElement := .extended .base
    let f : Element FieldElement := .completed Extended.base.double
    let b := Bytes.ofNat 32 (2 ^ 255 + 1)
    (∃ b p, e.encode = .ok b ∧ Extended.decode? b = some p ∧ ∃ h : p.Valid, h.point = .base) ∧
    (∃ b p, f.encode = .ok b ∧ Extended.decode? b = some p ∧
      ∃ h : p.Valid, h.point = CurvePoint.base + CurvePoint.base) ∧
    e.encode ≠ f.encode ∧ ∃ p, Extended.decode? b = some p ∧ p.Valid ∧ p.encode ≠ b := by
  intro e f b
  obtain ⟨hround, hequal, hstring⟩ := encode_decode
  have he : e.Holds CurvePoint.base := Extended.represents_base.holds
  have hf : f.Holds (CurvePoint.base + CurvePoint.base) := Extended.represents_base.double.holds
  refine ⟨hround e _ he, hround f _ hf, ?_, ?_⟩
  · rw [ne_eq, hequal e f _ _ he hf]
    exact fun h => CurvePoint.base_ne_zero (left_eq_add.mp h)
  · have hb : b.toNat = 2 ^ 255 + 1 := (Bytes.toNat_ofNat 32 _).trans (by decide)
    have hdecodes : CurvePoint.Decodes b 0 :=
      ⟨by rw [hb]; exact Nat.cast_one.symm, fun h => absurd rfl h⟩
    obtain ⟨p, hp, hpoint⟩ := Extended.decode_of_decodes hdecodes
    obtain ⟨hvalid, hpoint⟩ := Extended.represents_iff.mp hpoint
    obtain ⟨hvalid', hiff⟩ := hstring b p hp
    have hx : hvalid'.point.x = 0 := congrArg EdwardsCurve.Point.x hpoint
    have hbit : b.topBit = true := by
      rw [Bytes.topBit_iff, hb]
      exact Nat.le_succ _
    refine ⟨p, hp, hvalid', ?_⟩
    rw [ne_eq, hiff]
    exact fun h => h.2 ⟨hx, hbit⟩

end Edwards25519
