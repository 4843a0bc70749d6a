import Edwards25519.Key
import Edwards25519.Proofs.Multiple.Represents
import Edwards25519.Proofs.Point.Order

/-! A public key is the encoding of the multiple of the base point by the secret scalar. -/
namespace Edwards25519

namespace PrivateKey

variable (suite : Suite) (key : PrivateKey)

/-- The scalar is clamped, and so recoded without a reduction. -/
lemma toNat_scalar_lt : (key.scalar suite).toNat < 2 ^ 255 := (Scalar.clamp_bounds _).2.2

/-- The point of the public key. -/
def point : CurvePoint := (key.scalar suite).toNat • CurvePoint.base

theorem derive_eq : key.derive suite = (key.point suite).encode :=
  (FixedBaseTable.represents_baseTable (key.toNat_scalar_lt suite)).encode

lemma groupOrder_nsmul_point : groupOrder • key.point suite = 0 :=
  CurvePoint.groupOrder_nsmul_nsmul_base _

/-- The scalar is a multiple of 8, and less than 8 times the order. -/
theorem point_ne_zero : key.point suite ≠ 0 := by
  intro h
  obtain ⟨height, hlow, hhigh⟩ := Scalar.clamp_bounds (key.expand suite).low
  change 8 ∣ (key.scalar suite).toNat at height
  have horder : groupOrder ∣ (key.scalar suite).toNat := CurvePoint.groupOrder_dvd_of_nsmul_base h
  have hproduct : 8 * groupOrder ∣ (key.scalar suite).toNat :=
    Nat.Coprime.mul_dvd_of_dvd_of_dvd (by decide) height horder
  have hle := Nat.le_of_dvd (Nat.zero_lt_of_lt hlow) hproduct
  have hbounds := Scalar.groupOrder_bounds
  have hlt := key.toNat_scalar_lt suite
  omega

/-- The key of zeros encodes a point of order 4. -/
theorem derive_ne_zero : key.derive suite ≠ Bytes.zero 32 := by
  intro h
  rw [derive_eq] at h
  have hy := (CurvePoint.decodes_encode (key.point suite)).y
  rw [h] at hy
  exact CurvePoint.y_ne_zero (key.groupOrder_nsmul_point suite) (hy.trans (by decide))

/-- A public key that was derived is decoded. -/
theorem decode_derive : ∃ p : Extended FieldElement,
    Extended.decode? (key.derive suite) = some p ∧ p.Represents (key.point suite) := by
  rw [derive_eq]
  exact Extended.decode_of_decodes (CurvePoint.decodes_encode _)

end PrivateKey

lemma PublicKey.toBytes?_toList (b : Bytes 32) : (PublicKey.mk b.toList).toBytes? = some b :=
  b.ofList?_toList

/-- The pair of the public key alone. -/
theorem KeyPair.ofPublic_publicKey (pair : KeyPair) :
    ofPublic pair.publicKey = .ok ⟨none, pair.encoded⟩ := by
  rw [ofPublic, ofKeys, publicKey, PublicKey.toBytes?_toList]

end Edwards25519
