import Edwards25519.Envelope
import Edwards25519.Proofs.Key

/-! The key that two owners share is the same for both of them, because scalars act on the points of
the curve one after the other in any order. -/
namespace Edwards25519

open PrivateKey

namespace Envelope

variable (suite : Suite)

/-- A peer of 32 bytes may fail to be decoded. -/
lemma value_sharedKey (key : PrivateKey) {peer : PublicKey} {encoded : Bytes 32}
    (hbytes : peer.toBytes? = some encoded) (salt : Bytes 32) :
    (sharedKey suite key peer salt).value =
      (Extended.decode? encoded : Option (Extended FieldElement)).elim (.error .invalidCurvePoint)
        fun p => .ok (suite.hash256 (Bytes.xor
          ((FixedBaseTable.ofPoint p).multiply (.short (key.scalar suite))).encode salt).toList) := by
  unfold sharedKey
  -- a name for the decoder, so that reducing the matches does not start to decode
  obtain ⟨decode, hdecode⟩ :
      ∃ f, f = (Extended.decode? : Bytes 32 → Option (Extended FieldElement)) := ⟨_, rfl⟩
  rw [← hdecode]
  simp only [hbytes]
  cases decode encoded with
  | none => rfl
  | some p =>
    dsimp only
    rw [Logged.value_bind, TabledPoint.multiply_ofPoint, Option.elim_some, Logged.value_pure]

/-- What is hashed encodes the multiple of the peer's point by the owner's scalar. -/
lemma sharedKey_of_decode (key : PrivateKey) {peer : PublicKey} {encoded : Bytes 32}
    (hbytes : peer.toBytes? = some encoded) {p : Extended FieldElement}
    (hp : Extended.decode? encoded = some p) (salt : Bytes 32) :
    (sharedKey suite key peer salt).value = .ok (suite.hash256
      (Bytes.xor ((FixedBaseTable.ofPoint p).multiply (.short (key.scalar suite))).encode
        salt).toList) := by
  rw [value_sharedKey suite key hbytes, hp, Option.elim_some]

lemma sharedKey_of_decode_eq_none (key : PrivateKey) {peer : PublicKey} {encoded : Bytes 32}
    (hbytes : peer.toBytes? = some encoded)
    (hp : (Extended.decode? encoded : Option (Extended FieldElement)) = none) (salt : Bytes 32) :
    (sharedKey suite key peer salt).value = .error .invalidCurvePoint := by
  rw [value_sharedKey suite key hbytes, hp, Option.elim_none]

/-- For a peer whose point is known. -/
lemma sharedKey_of_represents (key : PrivateKey) {peer : Bytes 32} {p : Extended FieldElement}
    {P : CurvePoint} (hp : Extended.decode? peer = some p) (hpoint : p.Represents P) (salt : Bytes 32) :
    (sharedKey suite key ⟨peer.toList⟩ salt).value =
      .ok (suite.hash256 (Bytes.xor ((key.scalar suite).toNat • P).encode salt).toList) := by
  have hmultiply := FixedBaseTable.represents_multiply_short hpoint (key.toNat_scalar_lt suite)
  rw [← hmultiply.encode, sharedKey_of_decode suite key (PublicKey.toBytes?_toList _) hp]

lemma sharedKey_derive (key peer : PrivateKey) (salt : Bytes 32) :
    (sharedKey suite key ⟨(peer.derive suite).toList⟩ salt).value =
      .ok (suite.hash256
        (Bytes.xor ((key.scalar suite).toNat • peer.point suite).encode salt).toList) := by
  obtain ⟨p, hp, hpoint⟩ := peer.decode_derive suite
  exact sharedKey_of_represents suite key hp hpoint salt

/-- Both owners derive a key from the other one's public key, and it is the same. -/
theorem sharedKey_comm (a b : PrivateKey) (salt : Bytes 32) : ∃ shared,
    (sharedKey suite a ⟨(b.derive suite).toList⟩ salt).value = .ok shared ∧
      (sharedKey suite b ⟨(a.derive suite).toList⟩ salt).value = .ok shared := by
  refine ⟨_, sharedKey_derive suite a b salt, ?_⟩
  rw [sharedKey_derive, point, point, nsmul_left_comm]

end Envelope
end Edwards25519
