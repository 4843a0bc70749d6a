import Edwards25519.Proofs.Point.SmallOrder
import Edwards25519.Proofs.Signature

/-! Keys whose point has an order that divides 8. No private key has such a public key, because the
order of a derived point is the group order. Verification refuses one encoding of such a point, the
string of zeros; under the others it accepts what solves its equation, in which the challenge counts
only modulo 8. -/
namespace Edwards25519

/-- A derived key is the canonical encoding of a point that has the group order, and is not the one
that verification refuses. -/
theorem PrivateKey.derive_order (suite : Suite) (key : PrivateKey) :
    ∃ (p : Extended FieldElement) (h : p.Valid), Extended.decode? (key.derive suite) = some p ∧
      p.encode = key.derive suite ∧ h.point.encode = key.derive suite ∧
      h.point ≠ 0 ∧ groupOrder • h.point = 0 ∧ 8 • h.point ≠ 0 ∧
      key.derive suite ≠ Bytes.zero 32 := by
  obtain ⟨p, hp, hrepresents⟩ := key.decode_derive suite
  obtain ⟨hvalid, hpoint⟩ := Extended.represents_iff.mp hrepresents
  have horder := key.groupOrder_nsmul_point suite
  have hne := key.point_ne_zero suite
  refine ⟨p, hvalid, hp, ?_, ?_, ?_⟩
  · rw [hrepresents.encode, key.derive_eq]
  · rw [hpoint, key.derive_eq]
  · rw [hpoint]
    exact ⟨hne, horder, CurvePoint.eight_nsmul_ne_zero horder hne, key.derive_ne_zero suite⟩

namespace Signature

variable {suite : Suite} {pair : KeyPair} {message : ByteString} {sig : Signature}

/-- What is verified under a key that is decoded. -/
lemma verify_of_decode {p : Extended FieldElement} {A : CurvePoint}
    (hp : Extended.decode? pair.encoded = some p) (hA : p.Represents A) :
    (verify suite pair message sig).value = true ↔ sig.isCanonical = true ∧
      pair.encoded ≠ Bytes.zero 32 ∧ sig.r = (target suite pair message sig A).encode := by
  rw [verify_eq_true_iff]
  refine and_congr_right fun hs => and_congr_right fun _ => ?_
  rw [hp, ← encode_combine hs hA]
  constructor
  · rintro ⟨_, hq, hr⟩
    obtain rfl := Option.some.inj hq
    exact hr.symm
  · exact fun hr => ⟨p, rfl, hr.symm⟩

/-- A point whose order divides 8 is multiplied by the residue of the challenge. -/
lemma target_of_smallOrder {A : CurvePoint} (hA : 8 • A = 0) :
    target suite pair message sig A = sig.s.toNat • CurvePoint.base -
      ((suite.hash512 (sig.r.toList ++ pair.encoded.toList ++ message)).toNat % groupOrder % 8) •
        A := by
  rw [target, toNat_challenge, ← nsmul_eq_mod_nsmul _ hA]

/-- Under the key of the neutral point a signature of scalar one is accepted. -/
theorem verify_neutral_key :
    let pair : KeyPair := ⟨none, Bytes.ofNat 32 1⟩
    let sig : Signature := ⟨basePointEncoded, Bytes.ofNat 32 1⟩
    ∃ (p : Extended FieldElement) (h : p.Valid), Extended.decode? pair.encoded = some p ∧
      8 • h.point = 0 ∧ (verify .standard pair [] sig).value = true := by
  intro pair sig
  have hdecodes : CurvePoint.Decodes pair.encoded 0 := CurvePoint.decodes_neutral
  obtain ⟨p, hp, hrepresents⟩ := Extended.decode_of_decodes hdecodes
  obtain ⟨hvalid, hpoint⟩ := Extended.represents_iff.mp hrepresents
  have hs : sig.s.toNat = 1 := (Bytes.toNat_ofNat 32 1).trans (by decide)
  refine ⟨p, hvalid, hp, by rw [hpoint, nsmul_zero], ?_⟩
  rw [verify_of_decode hp hrepresents, isCanonical_iff, target, hs, nsmul_zero, sub_zero, one_nsmul,
    CurvePoint.encode_base]
  exact ⟨by decide, by decide, rfl⟩

/-- Signatures under a key whose point has an order that divides 8. -/
theorem verify_smallOrder {p : Extended FieldElement} (hp : Extended.decode? pair.encoded = some p)
    (hvalid : p.Valid) (hsmall : 8 • hvalid.point = 0) :
    (pair.encoded = Bytes.zero 32 → (verify suite pair message sig).value = false) ∧
    (pair.encoded ≠ Bytes.zero 32 → ((verify suite pair message sig).value = true ↔
      (0 < sig.s.toNat ∧ sig.s.toNat < groupOrder) ∧
        sig.r = (sig.s.toNat • CurvePoint.base -
          ((suite.hash512 (sig.r.toList ++ pair.encoded.toList ++ message)).toNat %
            groupOrder % 8) • hvalid.point).encode)) := by
  have hiff : (verify suite pair message sig).value = true ↔ _ :=
    verify_of_decode hp hvalid.represents
  rw [target_of_smallOrder hsmall, isCanonical_iff] at hiff
  refine ⟨fun hzero => ?_, fun hzero => ?_⟩
  · rw [← Bool.not_eq_true, hiff]
    exact fun h => h.2.1 hzero
  · rw [hiff, and_iff_right hzero]

/-- The key of zeros, and the key of the neutral point, which binds a signature to no message. -/
theorem verify_smallOrder_zero_neutral :
    let zero : KeyPair := ⟨none, Bytes.zero 32⟩
    let neutral : KeyPair := ⟨none, Bytes.ofNat 32 1⟩
    (∃ (p : Extended FieldElement) (h : p.Valid), Extended.decode? zero.encoded = some p ∧
      8 • h.point = 0 ∧ ∀ message sig, (verify .standard zero message sig).value = false) ∧
    ∃ (p : Extended FieldElement) (h : p.Valid), Extended.decode? neutral.encoded = some p ∧
      8 • h.point = 0 ∧ ∀ message sig, (verify .standard neutral message sig).value = true ↔
        (0 < sig.s.toNat ∧ sig.s.toNat < groupOrder) ∧
          sig.r = (sig.s.toNat • CurvePoint.base).encode := by
  intro zero neutral
  have hzero : CurvePoint.Decodes zero.encoded CurvePoint.ofOrderFour :=
    CurvePoint.decodes_ofOrderFour
  have hneutral : CurvePoint.Decodes neutral.encoded 0 := CurvePoint.decodes_neutral
  constructor
  · obtain ⟨p, hp, hpoint⟩ := Extended.decode_of_decodes hzero
    obtain ⟨hvalid, hpoint⟩ := Extended.represents_iff.mp hpoint
    have hsmall : 8 • hvalid.point = 0 := by
      rw [hpoint]
      exact CurvePoint.eight_nsmul_ofOrderFour
    exact ⟨p, hvalid, hp, hsmall, fun _ _ => (verify_smallOrder hp hvalid hsmall).1 rfl⟩
  · obtain ⟨p, hp, hpoint⟩ := Extended.decode_of_decodes hneutral
    obtain ⟨hvalid, hpoint⟩ := Extended.represents_iff.mp hpoint
    have hsmall : 8 • hvalid.point = 0 := by rw [hpoint, nsmul_zero]
    refine ⟨p, hvalid, hp, hsmall, fun message sig => ?_⟩
    rw [(verify_smallOrder hp hvalid hsmall).2 (by decide), hpoint, nsmul_zero, sub_zero]

end Signature
end Edwards25519
