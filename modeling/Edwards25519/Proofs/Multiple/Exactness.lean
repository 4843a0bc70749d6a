import Edwards25519.Proofs.Multiple.Coherence
import Edwards25519.Proofs.Multiple.Represents
import Edwards25519.Proofs.Point.SmallOrder

/-! Multiplications are exact for points of any order: the result is the multiple by the number itself
that the scalar stands for, and not only by one with the same residue. -/
namespace Edwards25519

/-- The number that a scalar multiplies by. For 64 bytes, and for 32 bytes with bit 255 set, it is the
residue. -/
def Encoded.multiplier : Encoded → ℕ
  | short b => if b.toNat < 2 ^ 255 then b.toNat else b.toNat % groupOrder
  | wide b => b.toNat % groupOrder

/-- What is recoded is the number that multiplies. -/
theorem Encoded.toNat_toRecodable (s : Encoded) : s.toRecodable.toNat = s.multiplier := by
  cases s with
  | short b =>
    rw [multiplier]
    split_ifs with hlow
    · rw [toRecodable_short hlow]
    · have htop : b.topBit = true := b.topBit_iff.mpr (Nat.not_lt.mp hlow)
      have hreduced : (short b).toRecodable = Scalar.reduce b.widen := if_pos htop
      rw [hreduced, Scalar.toNat_reduce, Bytes.toNat_widen]
  | wide b =>
    have htop : (Scalar.reduce b).topBit ≠ true := Bool.eq_false_iff.mp (Scalar.topBit_reduce b)
    have hreduced : (wide b).toRecodable = Scalar.reduce b := if_neg htop
    rw [hreduced, Scalar.toNat_reduce, multiplier]

lemma Encoded.multiplier_short {n : ℕ} (hn : n < 2 ^ 255) :
    (short (Bytes.ofNat 32 n)).multiplier = n := by
  have hbytes : (Bytes.ofNat 32 n).toNat = n :=
    (Bytes.toNat_ofNat 32 n).trans (Nat.mod_eq_of_lt (hn.trans (by decide)))
  rw [multiplier, hbytes, if_pos hn]

lemma Encoded.multiplier_groupOrder : (wide (Bytes.ofNat 64 groupOrder)).multiplier = 0 := by
  rw [multiplier, Bytes.toNat_ofNat]
  decide

namespace TabledPoint

/-- Whether the table has been built before makes no difference. -/
lemma Coherent.value_multiply {F : Type} [Coordinate F] {p : TabledPoint F} (h : p.Coherent)
    (s : Encoded) :
    (p.multiply s).value = ((FixedBaseTable.ofPoint p.point).multiply s, p.withFixedBase) := by
  rw [multiply, Logged.value_bind, h.value_fixedBase]
  rfl

/-- The multiple of a valid point is valid, and is that by the number of the scalar. -/
theorem multiply_exact {p : TabledPoint FieldElement} (hp : p.Coherent) (h : p.point.Valid)
    (s : Encoded) : ∃ h' : (p.multiply s).value.1.Valid, h'.point = s.multiplier • h.point := by
  have hmultiply := FixedBaseTable.represents_multiply h.represents s
  rw [s.toNat_toRecodable] at hmultiply
  rw [hp.value_multiply]
  exact Extended.represents_iff.mp hmultiply

lemma coherent_basePoint : basePoint.Coherent :=
  ⟨fun _ h => (Option.some.inj h).symm, fun _ h => (Option.some.inj h).symm⟩

/-- The base point with its tables, and a point of order 4 without any. The scalars are the largest one
that is taken as it is, and the group order in 64 bytes, whose residue is zero. -/
theorem multiply_exact_ofOrderFour :
    let largest : Encoded := .short (Bytes.ofNat 32 (2 ^ 255 - 1))
    let order : Encoded := .wide (Bytes.ofNat 64 groupOrder)
    (∃ h : (basePoint.multiply largest).value.1.Valid,
      h.point = (2 ^ 255 - 1) • CurvePoint.base) ∧
    ∃ p : Extended FieldElement, (∃ h : p.Valid, h.point = CurvePoint.ofOrderFour) ∧
      (∃ h : ((ofPoint p).multiply largest).value.1.Valid,
        h.point = (2 ^ 255 - 1) • CurvePoint.ofOrderFour) ∧
      ∃ h : ((ofPoint p).multiply order).value.1.Valid, h.point = 0 := by
  intro largest order
  have hlargest : largest.multiplier = 2 ^ 255 - 1 := Encoded.multiplier_short (by decide)
  have horder : order.multiplier = 0 := Encoded.multiplier_groupOrder
  constructor
  · obtain ⟨hbase, hpoint⟩ := Extended.represents_iff.mp Extended.represents_base
    rw [← hlargest, ← hpoint]
    exact multiply_exact coherent_basePoint hbase largest
  · obtain ⟨p, -, hrepresents⟩ := Extended.decode_of_decodes CurvePoint.decodes_ofOrderFour
    obtain ⟨hvalid, hpoint⟩ := Extended.represents_iff.mp hrepresents
    have hexact := multiply_exact (coherent_ofPoint p) hvalid
    refine ⟨p, ⟨hvalid, hpoint⟩, ?_, ?_⟩
    · rw [← hlargest, ← hpoint]
      exact hexact largest
    · have hzero := hexact order
      rwa [horder, zero_nsmul] at hzero

end TabledPoint

end Edwards25519
