import Edwards25519.Proofs.Field.Encoding
import Edwards25519.Proofs.Point.Decoding
import Edwards25519.Proofs.Point.Denotes
import Mathlib.Tactic.Tauto

/-! Encodings of points. An encoding has the residue `y` and the parity of `x`, which determine the
point, because the negative of an odd residue is even. Decoding finds the point that is meant if there
is one. -/
namespace Edwards25519

namespace CurvePoint

/-- The encoding of a point: the residue `y`, and in bit 255 the parity of `x`. -/
def encode (P : CurvePoint) : Bytes 32 :=
  Bytes.ofNat 32 (P.y.val + if Odd P.x.val then 2 ^ 255 else 0)

/-- An encoding that is read as the point. Its number below bit 255 need not be a least residue, and
the bit does not matter where `x` is zero. -/
structure Decodes (b : Bytes 32) (P : CurvePoint) : Prop where
  y : P.y = (b.toNat % 2 ^ 255 : ℕ)
  sign : P.x ≠ 0 → (Odd P.x.val ↔ b.topBit = true)

lemma toNat_encode (P : CurvePoint) :
    P.encode.toNat = P.y.val + if Odd P.x.val then 2 ^ 255 else 0 := by
  have hlt := ZMod.val_lt P.y
  have horder : fieldOrder = 2 ^ 255 - 19 := rfl
  rw [encode, Bytes.toNat_ofNat]
  apply Nat.mod_eq_of_lt
  split_ifs <;> omega

theorem decodes_encode (P : CurvePoint) : Decodes P.encode P := by
  have hlt := ZMod.val_lt P.y
  have horder : fieldOrder = 2 ^ 255 - 19 := rfl
  constructor
  · rw [toNat_encode]
    have hmod : (P.y.val + if Odd P.x.val then 2 ^ 255 else 0) % 2 ^ 255 = P.y.val := by
      split_ifs <;> omega
    rw [hmod]
    exact (ZMod.natCast_zmod_val P.y).symm
  · intro _
    rw [Bytes.topBit_iff, toNat_encode]
    split_ifs with hodd
    · exact iff_of_true hodd (by omega)
    · exact iff_of_false hodd (by omega)

end CurvePoint

open CurvePoint

lemma Bytes.setHighBit_toNat (x : UInt8) (hx : x.toNat < 128) : (x ||| 128).toNat = x.toNat + 128 := by
  have hor : 2 ^ 7 * 1 + x.toNat = 2 ^ 7 * 1 ||| x.toNat := Nat.two_pow_add_eq_or_of_lt hx 1
  rw [UInt8.toNat_or, Nat.or_comm, add_comm]
  exact hor.symm

theorem Affine.Denotes.encode {p : Affine Residue} {P : CurvePoint} (h : p.Denotes P) :
    p.encode = P.encode := by
  have hlt := ZMod.val_lt P.y
  have horder : fieldOrder = 2 ^ 255 - 19 := rfl
  have hy := Residue.toNat_toBytes P.y
  have hlast := Bytes.toNat_last (Coordinate.toBytes P.y)
  apply Bytes.toNat_injective
  rw [toNat_encode, Affine.encode, h.x, h.y]
  by_cases hodd : Odd P.x.val
  · have hmap := Bytes.toNat_mapLast (Coordinate.toBytes P.y) (· ||| 128)
    rw [Bytes.setHighBit_toNat _ (by omega)] at hmap
    rw [(Residue.isNegative_iff P.x).mpr hodd, if_pos rfl, if_pos hodd]
    omega
  · have hmap := Bytes.toNat_mapLast (Coordinate.toBytes P.y) (· ||| 0)
    rw [UInt8.or_zero] at hmap
    rw [if_neg (mt (Residue.isNegative_iff P.x).mp hodd), if_neg hodd]
    omega

theorem Projective.Denotes.encode {p : Projective Residue} {P : CurvePoint} (h : p.Denotes P) :
    p.encode = P.encode :=
  h.toAffine.encode

namespace Extended

lemma denominator_ne_zero (b : Bytes 32) : (denominator b : Residue) ≠ 0 := by
  intro h
  have hy : (Coordinate.ofBytes b : Residue) ≠ 0 := by
    intro hy
    rw [denominator, Residue.square_eq, hy] at h
    simp at h
  apply curve.d_nonsquare
  refine ⟨curve.i / Coordinate.ofBytes b, ?_⟩
  rw [denominator, Residue.square_eq] at h
  rw [div_mul_div_comm, eq_div_iff (mul_ne_zero hy hy), curve_d]
  linear_combination h - curve.i_sq

/-- The curve equation, solved for `x`. -/
lemma on_iff (b : Bytes 32) (x : Residue) : curve.On x (Coordinate.ofBytes b) ↔
    denominator b * x ^ 2 = (numerator b : Residue) := by
  rw [EdwardsCurve.On, curve_d, denominator, numerator, Residue.square_eq]
  constructor <;> intro h <;> linear_combination -h

/-- The root with the sign that the encoding gives. -/
lemma sign_ofRoot (b : Bytes 32) (x : Residue) :
    ((ofRoot b x).x = x ∨ (ofRoot b x).x = -x) ∧
      ((ofRoot b x).x ≠ 0 → (Odd (ofRoot b x).x.val ↔ b.topBit = true)) := by
  have hx : (ofRoot b x).x = if Coordinate.isNegative x != b.topBit then -x else x := rfl
  rw [hx]
  have hsign := Residue.isNegative_iff x
  split_ifs with hne
  · refine ⟨.inr rfl, fun hx => ?_⟩
    rw [Residue.odd_neg (neg_ne_zero.mp hx), ← hsign]
    revert hne
    cases Coordinate.isNegative x <;> cases b.topBit <;> simp
  · refine ⟨.inl rfl, fun _ => ?_⟩
    rw [← hsign]
    revert hne
    cases Coordinate.isNegative x <;> cases b.topBit <;> simp

/-- A root gives a point that the encoding is read as. -/
lemma denotes_ofRoot {b : Bytes 32} {x : Residue}
    (h : denominator b * x ^ 2 = (numerator b : Residue)) :
    ∃ P, Decodes b P ∧ (ofRoot b x).Denotes P := by
  obtain ⟨hroot, hsign⟩ := sign_ofRoot b x
  have hsq : (ofRoot b x).x ^ 2 = x ^ 2 := by
    rcases hroot with hx | hx <;> rw [hx]
    exact neg_sq x
  have hon : curve.On (ofRoot b x).x (Coordinate.ofBytes b) := by
    rw [on_iff, hsq, h]
  refine ⟨⟨(ofRoot b x).x, Coordinate.ofBytes b, hon⟩, ⟨rfl, hsign⟩, one_ne_zero, ?_, ?_, ?_⟩
  · exact (mul_one _).symm
  · exact (mul_one _).symm
  · exact (mul_one _).symm

lemma isNonZero_defect (b : Bytes 32) : Coordinate.isNonZero (defect b : Residue) = true ↔
    ¬ denominator b * candidate b ^ 2 = (numerator b : Residue) := by
  rw [Residue.isNonZero_iff, defect, Residue.square_eq, sub_ne_zero, mul_comm]

lemma isNonZero_negatedDefect (b : Bytes 32) :
    Coordinate.isNonZero (negatedDefect b : Residue) = true ↔
      ¬ denominator b * candidate b ^ 2 = -(numerator b : Residue) := by
  rw [Residue.isNonZero_iff, negatedDefect, Residue.square_eq, ne_eq, add_eq_zero_iff_eq_neg,
    mul_comm]

/-- What is decoded is a point that the encoding is read as. -/
theorem decode_sound {b : Bytes 32} {p : Extended Residue} (h : decode? b = some p) :
    ∃ P, Decodes b P ∧ p.Denotes P := by
  rw [decode?_eq] at h
  split_ifs at h with hdefect hnegated
  · rw [isNonZero_negatedDefect, not_not] at hnegated
    obtain rfl := Option.some.inj h
    apply denotes_ofRoot
    have hi := curve.i_sq
    change (Coordinate.sqrtNegOne : Residue) ^ 2 = -1 at hi
    linear_combination denominator b * candidate b ^ 2 * hi - hnegated
  · rw [isNonZero_defect, not_not] at hdefect
    obtain rfl := Option.some.inj h
    exact denotes_ofRoot hdefect

/-- If there is such a point, the candidate is a root up to its sign. -/
theorem decode_complete {b : Bytes 32} {P : CurvePoint} (h : Decodes b P) :
    ∃ p : Extended Residue, decode? b = some p := by
  have hon := P.on
  have hy : P.y = Coordinate.ofBytes b := h.y
  rw [hy, on_iff] at hon
  have hroot := Residue.sqrtRatio_of_square hon
  rw [decode?_eq]
  split_ifs with hdefect hnegated
  · rw [isNonZero_defect] at hdefect
    rw [isNonZero_negatedDefect] at hnegated
    exact absurd hroot (not_or.mpr ⟨hdefect, hnegated⟩)
  · exact ⟨_, rfl⟩
  · exact ⟨_, rfl⟩

/-- An encoding is read as one point only. -/
theorem decodes_unique {b : Bytes 32} {P Q : CurvePoint} (hP : Decodes b P) (hQ : Decodes b Q) :
    P = Q := by
  have hy : P.y = Q.y := hP.y.trans hQ.y.symm
  have hb : P.y = Coordinate.ofBytes b := hP.y
  have honP := P.on
  have honQ := Q.on
  rw [← hy, hb, on_iff] at honQ
  rw [hb, on_iff] at honP
  have hsq := mul_left_cancel₀ (denominator_ne_zero b) (honP.trans honQ.symm)
  refine EdwardsCurve.Point.ext ?_ hy
  rcases sq_eq_sq_iff_eq_or_eq_neg.mp hsq with hx | hx
  · exact hx
  · rcases eq_or_ne Q.x 0 with h0 | h0
    · rw [hx, h0, neg_zero]
    · have hPx : P.x ≠ 0 := hx ▸ neg_ne_zero.mpr h0
      have hcontra := (hP.sign hPx).trans (hQ.sign h0).symm
      rw [hx, Residue.odd_neg h0] at hcontra
      tauto

end Extended

/-- Different points have different encodings. -/
theorem CurvePoint.encode_injective {P Q : CurvePoint} (h : P.encode = Q.encode) : P = Q := by
  have hQ := decodes_encode Q
  rw [← h] at hQ
  exact Extended.decodes_unique (decodes_encode P) hQ

lemma CurvePoint.encode_inj {P Q : CurvePoint} : P.encode = Q.encode ↔ P = Q :=
  ⟨encode_injective, congrArg encode⟩

end Edwards25519
