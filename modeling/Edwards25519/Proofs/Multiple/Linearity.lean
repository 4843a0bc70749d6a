import Edwards25519.Proofs.Multiple.Represents
import Edwards25519.Proofs.Point.Validity

/-! Arithmetic modulo the group order and arithmetic of points agree: the multiple by a product and a
summand is the sum of multiples, and the multiple by a number is that by its residue. -/
namespace Edwards25519

namespace Encoded

variable (a b c : Encoded)

lemma toNat_toRecodable_mod : a.toRecodable.toNat % groupOrder = a.toScalar.toNat % groupOrder := by
  unfold toRecodable
  dsimp only
  split_ifs
  · rw [Scalar.toNat_reduce, Bytes.toNat_widen, Nat.mod_mod]
  · rfl

lemma toNat_reduce : a.reduce.toNat = a.toScalar.toNat % groupOrder := by
  cases a with
  | short b =>
    rw [reduce, Scalar.toNat_reduce, Bytes.toNat_widen]
    rfl
  | wide b =>
    rw [reduce, toScalar, Scalar.toNat_reduce, Nat.mod_mod]

lemma toNat_mulAdd : (a.mulAdd b c).toNat =
    (a.toScalar.toNat * b.toScalar.toNat + c.toScalar.toNat) % groupOrder :=
  Scalar.toNat_mulAdd _ _ _

end Encoded

namespace TabledPoint

/-- Of a point that the group order takes to the neutral one, recoding a residue in place of the scalar
makes no difference. -/
theorem represents_multiply {p : Extended FieldElement} {P : CurvePoint} (h : p.Represents P)
    (horder : groupOrder • P = 0) (s : Encoded) :
    ((ofPoint p).multiply s).value.1.Represents (s.toScalar.toNat • P) := by
  rw [multiply_ofPoint, ← CurvePoint.mod_nsmul horder, ← s.toNat_toRecodable_mod,
    CurvePoint.mod_nsmul horder]
  exact FixedBaseTable.represents_multiply h s

theorem represents_multiply_base (s : Encoded) :
    (basePoint.multiply s).value.1.Represents (s.toScalar.toNat • CurvePoint.base) :=
  represents_multiply Extended.represents_base CurvePoint.groupOrder_nsmul_base s

end TabledPoint

/-- Both points are valid, they are the same point of the curve, and the comparison says so. -/
structure Extended.Same (p q : Extended FieldElement) : Prop where
  point : ∃ (hp : p.Valid) (hq : q.Valid), hp.point = hq.point
  agrees : p.agrees q = true

lemma Extended.Represents.same {p q : Extended FieldElement} {P : CurvePoint}
    (hp : p.Represents P) (hq : q.Represents P) : p.Same q := by
  obtain ⟨hpValid, hpPoint⟩ := represents_iff.mp hp
  obtain ⟨hqValid, hqPoint⟩ := represents_iff.mp hq
  exact ⟨⟨hpValid, hqValid, hpPoint.trans hqPoint.symm⟩, (hp.agrees_iff hq).mpr rfl⟩

open TabledPoint in
/-- Multiples respect the arithmetic modulo the group order, whatever the size of the numbers. -/
theorem TabledPoint.multiply_linear (a k b : Encoded) :
    (basePoint.multiply (.short (a.mulAdd k b))).value.1.Same
      (((ofPoint (basePoint.multiply k).value.1).multiply a).value.1.plus
        (basePoint.multiply b).value.1) ∧
    (basePoint.multiply a).value.1.Same (basePoint.multiply (.short a.reduce)).value.1 := by
  have hk := represents_multiply (represents_multiply_base k)
    (CurvePoint.groupOrder_nsmul_nsmul_base _) a
  have hsum := represents_multiply_base (.short (a.mulAdd k b))
  have hreduce := represents_multiply_base (.short a.reduce)
  change Extended.Represents _ ((a.mulAdd k b).toNat • CurvePoint.base) at hsum
  change Extended.Represents _ (a.reduce.toNat • CurvePoint.base) at hreduce
  rw [Encoded.toNat_mulAdd, CurvePoint.mod_nsmul_base, add_nsmul, mul_nsmul'] at hsum
  rw [Encoded.toNat_reduce, CurvePoint.mod_nsmul_base] at hreduce
  exact ⟨hsum.same (hk.plus (represents_multiply_base b)),
    (represents_multiply_base a).same hreduce⟩

end Edwards25519
