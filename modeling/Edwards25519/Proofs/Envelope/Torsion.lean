import Edwards25519.Proofs.Envelope
import Edwards25519.Proofs.Point.SmallOrder

/-! The shared key does not depend on the part of the peer's point whose order divides 8, because the
secret scalar is a multiple of 8 and is not reduced before it multiplies the point. -/
namespace Edwards25519

/-- A string is decoded, to coordinates of the point. -/
def Extended.DecodesTo (b : Bytes 32) (P : CurvePoint) : Prop :=
  ∃ (p : Extended FieldElement) (h : p.Valid), decode? b = some p ∧ h.point = P

lemma CurvePoint.Decodes.decodesTo {b : Bytes 32} {P : CurvePoint} (h : Decodes b P) :
    Extended.DecodesTo b P := by
  obtain ⟨p, hp, hrepresents⟩ := Extended.decode_of_decodes h
  obtain ⟨hvalid, hpoint⟩ := Extended.represents_iff.mp hrepresents
  exact ⟨p, hvalid, hp, hpoint⟩

/-- A multiple of 8 takes a point whose order divides 8 away. -/
lemma CurvePoint.nsmul_add_of_smallOrder {n : ℕ} (hn : 8 ∣ n) (P : CurvePoint) {T : CurvePoint}
    (hT : 8 • T = 0) : n • (P + T) = n • P := by
  obtain ⟨m, rfl⟩ := hn
  rw [nsmul_add, mul_nsmul T, hT, nsmul_zero, add_zero]

namespace Envelope

variable (suite : Suite)

/-- The key shared with the owner of a public key that is decoded. -/
lemma sharedKey_of_decodesTo (key : PrivateKey) {peer : Bytes 32} {P : CurvePoint}
    (hpeer : Extended.DecodesTo peer P) (salt : Bytes 32) :
    (sharedKey suite key ⟨peer.toList⟩ salt).value = .ok (suite.hash256
      (Bytes.xor ((key.scalar suite).toNat • P).encode salt).toList) := by
  obtain ⟨p, hvalid, hp, rfl⟩ := hpeer
  exact sharedKey_of_represents suite key hp hvalid.represents salt

/-- Keys whose points differ by one whose order divides 8 give the same shared key. In particular, with a
peer whose point has such an order every owner shares the same key. -/
theorem sharedKey_torsion :
    (∀ (key : PrivateKey) (salt peer peer' : Bytes 32) (P T : CurvePoint),
      Extended.DecodesTo peer P → Extended.DecodesTo peer' (P + T) → 8 • T = 0 →
      ∃ shared, (sharedKey suite key ⟨peer.toList⟩ salt).value = .ok shared ∧
        (sharedKey suite key ⟨peer'.toList⟩ salt).value = .ok shared) ∧
    ∀ (salt peer : Bytes 32) (T : CurvePoint), Extended.DecodesTo peer T → 8 • T = 0 →
      ∃ shared, ∀ key, (sharedKey suite key ⟨peer.toList⟩ salt).value = .ok shared := by
  have height (key : PrivateKey) : 8 ∣ (key.scalar suite).toNat := (Scalar.clamp_bounds _).1
  constructor
  · intro key salt peer peer' P T hpeer hpeer' hT
    refine ⟨_, sharedKey_of_decodesTo suite key hpeer salt, ?_⟩
    rw [sharedKey_of_decodesTo suite key hpeer' salt,
      CurvePoint.nsmul_add_of_smallOrder (height key) P hT]
  · intro salt peer T hpeer hT
    refine ⟨suite.hash256 (Bytes.xor (CurvePoint.encode 0) salt).toList, fun key => ?_⟩
    have hzero := CurvePoint.nsmul_add_of_smallOrder (height key) 0 hT
    rw [zero_add, nsmul_zero] at hzero
    rw [sharedKey_of_decodesTo suite key hpeer salt, hzero]

/-- The base point and its sum with a point of order 4, whose keys are different, and the key of zeros,
which that point is encoded to. -/
theorem sharedKey_torsion_ofOrderFour :
    let zeros := Bytes.zero 32
    let peer := CurvePoint.base.encode
    let peer' := (CurvePoint.base + CurvePoint.ofOrderFour).encode
    peer ≠ peer' ∧
    (∃ shared, (sharedKey .standard ⟨zeros⟩ ⟨peer.toList⟩ zeros).value = .ok shared ∧
      (sharedKey .standard ⟨zeros⟩ ⟨peer'.toList⟩ zeros).value = .ok shared) ∧
    ∃ shared, ∀ key, (sharedKey .standard key ⟨zeros.toList⟩ zeros).value = .ok shared := by
  intro zeros peer peer'
  obtain ⟨hsum, hsmall⟩ := sharedKey_torsion .standard
  have horder := CurvePoint.eight_nsmul_ofOrderFour
  have hne : CurvePoint.ofOrderFour ≠ 0 := fun h =>
    zero_ne_one (congrArg EdwardsCurve.Point.y h)
  refine ⟨fun h => hne (left_eq_add.mp (CurvePoint.encode_injective h)), ?_, ?_⟩
  · exact hsum ⟨zeros⟩ zeros peer peer' _ _ (CurvePoint.decodes_encode _).decodesTo
      (CurvePoint.decodes_encode _).decodesTo horder
  · exact hsmall zeros zeros _ CurvePoint.decodes_ofOrderFour.decodesTo horder

end Envelope
end Edwards25519
