import Edwards25519.Proofs.Point.Compression

/-! Points whose order divides 8, and points that have the group order. The point of order 4 and the
neutral one have short encodings. -/
namespace Edwards25519.CurvePoint

/-- Multiplication by 8 takes no point of prime order to the neutral one. -/
lemma eight_nsmul_ne_zero {P : CurvePoint} (horder : groupOrder • P = 0) (hP : P ≠ 0) :
    8 • P ≠ 0 := by
  intro h
  have height : 8 < groupOrder := by decide
  have hzero := nsmul_injOn horder hP height (by decide) (h.trans (zero_nsmul P).symm)
  exact absurd hzero (by decide)

lemma encode_base : base.encode = basePointEncoded := by
  have heven : ¬ Odd base.x.val := by decide
  have hbit : ¬ basePointEncoded.topBit = true := by decide
  have hreduced : basePointEncoded.toNat % 2 ^ 255 < fieldOrder := by decide
  have hdecodes : Decodes basePointEncoded base := ⟨rfl, fun _ => iff_of_false heven hbit⟩
  exact hdecodes.encode_eq_iff.mpr ⟨hreduced, fun h => hbit h.2⟩

/-- The neutral point is encoded as one. -/
lemma decodes_neutral : Decodes (Bytes.ofNat 32 1) 0 :=
  ⟨by rw [Bytes.toNat_ofNat]; exact Nat.cast_one.symm, fun h => absurd rfl h⟩

/-- The point of order 4 whose coordinate `x` is even. -/
def ofOrderFour : CurvePoint where
  x := Coordinate.sqrtNegOne
  y := 0
  on := by
    have h := Residue.sqrtNegOne_sq
    unfold EdwardsCurve.On
    linear_combination -h

lemma decodes_ofOrderFour : Decodes (Bytes.zero 32) ofOrderFour := by
  have heven : ¬ Odd ofOrderFour.x.val := by decide
  exact ⟨Nat.cast_zero.symm, fun _ => iff_of_false heven (by decide)⟩

lemma eight_nsmul_ofOrderFour : 8 • ofOrderFour = 0 := by
  have h : 4 • ofOrderFour = 0 := EdwardsCurve.Point.four_nsmul_of_y_eq_zero rfl
  rw [show 8 = 2 * 4 from rfl, mul_nsmul', h, nsmul_zero]

end Edwards25519.CurvePoint
