import Edwards25519.Proofs.Key
import Edwards25519.Signature

/-! Verification decides an equation between points, and accepts what was signed. Signing fails only
where the scalar would be zero. -/
namespace Edwards25519

namespace Signature

variable {suite : Suite} {pair : KeyPair} {message : ByteString} {sig : Signature}

lemma isCanonical_iff :
    sig.isCanonical = true ↔ 0 < sig.s.toNat ∧ sig.s.toNat < groupOrder := by
  have hzero : sig.s ≠ Bytes.zero 32 ↔ 0 < sig.s.toNat := by
    rw [Nat.pos_iff_ne_zero, not_iff_not]
    exact ⟨fun h => h ▸ by decide, fun h => Bytes.toNat_injective (h.trans (by decide))⟩
  rw [isCanonical, Bool.and_eq_true, bne_iff_ne, Scalar.isCanonical_iff, hzero]

/-- The challenge is a residue of the hash. -/
lemma toNat_challenge (r key : Bytes 32) : (challenge suite r key message).toNat =
    (suite.hash512 (r.toList ++ key.toList ++ message)).toNat % groupOrder :=
  Scalar.toNat_reduce _

lemma toNat_challenge_lt (r key : Bytes 32) :
    (challenge suite r key message).toNat < groupOrder := by
  rw [toNat_challenge]
  exact Nat.mod_lt _ (by decide)

/-- What verification computes with the point that it decodes. -/
lemma verify_eq_true_iff : (verify suite pair message sig).value = true ↔
    sig.isCanonical = true ∧ pair.encoded ≠ Bytes.zero 32 ∧
      ∃ p : Extended FieldElement, Extended.decode? pair.encoded = some p ∧
        (OddMultiples.combine baseOddMultiples (OddMultiples.ofPoint p)
          (challenge suite sig.r pair.encoded message) sig.s).encode = sig.r := by
  unfold verify
  by_cases hcanonical : sig.isCanonical = true
  · by_cases hzero : pair.encoded = Bytes.zero 32
    · simp [hcanonical, hzero]
    · cases hp : (Extended.decode? pair.encoded : Option (Extended FieldElement)) with
      | none => simp [hcanonical, hzero]
      | some p =>
        -- a point that was just decoded has no table yet
        have hodd : (TabledPoint.ofPoint p).oddMultiples.value.1 = OddMultiples.ofPoint p := rfl
        simp [hcanonical, hzero, hodd]
  · simp [hcanonical]

/-- The point that a signature is compared with. -/
def target (suite : Suite) (pair : KeyPair) (message : ByteString) (sig : Signature)
    (A : CurvePoint) : CurvePoint :=
  sig.s.toNat • CurvePoint.base - (challenge suite sig.r pair.encoded message).toNat • A

lemma encode_combine (hs : sig.isCanonical = true) {p : Extended FieldElement} {A : CurvePoint}
    (hp : p.Represents A) :
    (OddMultiples.combine baseOddMultiples (OddMultiples.ofPoint p)
      (challenge suite sig.r pair.encoded message) sig.s).encode =
        (target suite pair message sig A).encode := by
  have hchallenge : (challenge suite sig.r pair.encoded message).toNat < 2 ^ 253 :=
    Scalar.toNat_reduce_lt _
  have hs := (isCanonical_iff.mp hs).2.trans Scalar.groupOrder_bounds.2
  exact (OddMultiples.represents_combine Extended.represents_base hp (by omega) (by omega)).encode

theorem verify_iff : (verify suite pair message sig).value = true ↔
    (0 < sig.s.toNat ∧ sig.s.toNat < groupOrder) ∧ pair.encoded ≠ Bytes.zero 32 ∧
      ∃ A : CurvePoint, CurvePoint.Decodes pair.encoded A ∧
        sig.r = (sig.s.toNat • CurvePoint.base -
          ((suite.hash512 (sig.r.toList ++ pair.encoded.toList ++ message)).toNat % groupOrder) •
            A).encode := by
  rw [verify_eq_true_iff, ← isCanonical_iff]
  refine and_congr_right fun hs => and_congr_right fun _ => ⟨?_, ?_⟩
  · rintro ⟨p, hp, hr⟩
    obtain ⟨A, hA, hpA⟩ := Extended.represents_of_decode hp
    refine ⟨A, hA, ?_⟩
    rw [encode_combine hs hpA, target, toNat_challenge] at hr
    exact hr.symm
  · rintro ⟨A, hA, hr⟩
    obtain ⟨p, hp, hpA⟩ := Extended.decode_of_decodes hA
    refine ⟨p, hp, ?_⟩
    rw [encode_combine hs hpA, target, toNat_challenge]
    exact hr.symm

section sign

variable (suite : Suite) (key : PrivateKey) (message : ByteString)

/-- The signature that is made, before it is checked. -/
def made : Signature :=
  let n := nonce suite key message
  let r := (baseTable.multiply (.short n)).encode
  ⟨r, Scalar.mulAdd (challenge suite r (key.derive suite) message) (key.scalar suite) n⟩

/-- A signature that is made leaves only if it is canonical. -/
lemma value_check (sig : Signature) :
    (if sig.isCanonical then (pure (.ok sig) : Logged (Except Error Signature))
      else do
        Logged.note (.madeNonCanonicalSignature sig.toBytes.toList)
        return .error .nonCanonicalSignatureGenerated).value =
    if sig.isCanonical then .ok sig else .error .nonCanonicalSignatureGenerated := by
  split_ifs
  · rfl
  · rfl

lemma sign_ofPrivate : (sign suite (.ofPrivate suite key) message).value =
    if (made suite key message).isCanonical then .ok (made suite key message)
    else .error .nonCanonicalSignatureGenerated := by
  simp only [sign, KeyPair.requireSecret, KeyPair.ofPrivate, made]
  exact value_check _

/-- The nonce is a residue, and so recoded without another reduction. -/
lemma r_made : (made suite key message).r =
    ((nonce suite key message).toNat • CurvePoint.base).encode := by
  have hnonce : (nonce suite key message).toNat < 2 ^ 253 := Scalar.toNat_reduce_lt _
  have hlow : (nonce suite key message).toNat < 2 ^ 255 := by omega
  exact (FixedBaseTable.represents_baseTable hlow).encode

lemma toNat_s_made : (made suite key message).s.toNat =
    ((challenge suite (made suite key message).r (key.derive suite) message).toNat *
      (key.scalar suite).toNat + (nonce suite key message).toNat) % groupOrder :=
  Scalar.toNat_mulAdd _ _ _

/-- The challenge's multiple of the key's point falls out of the equation. -/
lemma target_made {pair : KeyPair} (hpair : pair.encoded = key.derive suite) :
    target suite pair message (made suite key message) (key.point suite) =
      (nonce suite key message).toNat • CurvePoint.base := by
  rw [target, hpair, toNat_s_made, CurvePoint.mod_nsmul_base, add_nsmul, PrivateKey.point,
    mul_nsmul', add_sub_cancel_left]

/-- Whoever has the public key accepts the signature, unless its scalar is zero. -/
lemma verify_made {pair : KeyPair} (hpair : pair.encoded = key.derive suite)
    (hs : (made suite key message).isCanonical = true) :
    (verify suite pair message (made suite key message)).value = true := by
  obtain ⟨p, hp, hpoint⟩ := key.decode_derive suite
  rw [verify_eq_true_iff, hpair]
  refine ⟨hs, key.derive_ne_zero suite, p, hp, ?_⟩
  rw [← hpair, encode_combine hs hpoint, target_made suite key message hpair, r_made]

/-- The scalar is a residue, and so canonical unless it is zero. -/
lemma isCanonical_made : (made suite key message).isCanonical = true ↔
    (made suite key message).s.toNat ≠ 0 := by
  have hlt : (made suite key message).s.toNat < groupOrder := by
    rw [toNat_s_made]
    exact Nat.mod_lt _ (by decide)
  rw [isCanonical_iff, Nat.pos_iff_ne_zero]
  exact and_iff_left hlt

/-- What is signed is accepted by the owner of the key and by everyone who has the public key. Signing
fails only where the scalar of the signature would be zero. -/
theorem sign_verify :
    (∀ sig, (sign suite (.ofPrivate suite key) message).value = .ok sig →
      (verify suite (.ofPrivate suite key) message sig).value = true ∧
        ∃ pair, KeyPair.ofPublic (KeyPair.ofPrivate suite key).publicKey = .ok pair ∧
          (verify suite pair message sig).value = true) ∧
    ∀ e, (sign suite (.ofPrivate suite key) message).value = .error e →
      ((nonce suite key message).toNat +
        (challenge suite (baseTable.multiply (.short (nonce suite key message))).encode
          (KeyPair.ofPrivate suite key).encoded message).toNat * (key.scalar suite).toNat) %
        groupOrder = 0 := by
  rw [sign_ofPrivate]
  by_cases hs : (made suite key message).isCanonical = true
  · rw [if_pos hs]
    refine ⟨fun sig hsig => ?_, nofun⟩
    obtain rfl := Except.ok.inj hsig
    exact ⟨verify_made suite key message rfl hs, _, KeyPair.ofPublic_publicKey _,
      verify_made suite key message rfl hs⟩
  · rw [if_neg hs]
    refine ⟨nofun, fun e _ => ?_⟩
    rw [isCanonical_made, not_not, toNat_s_made, add_comm] at hs
    exact hs

/-- With hashes of one a signature is made, with hashes of zero none. -/
theorem sign_verify_constant :
    let one : Suite := ⟨fun _ => Bytes.ofNat 64 1, fun _ => Bytes.zero 32, fun _ b => b, fun _ b => b⟩
    let zero : Suite := ⟨fun _ => Bytes.zero 64, fun _ => Bytes.zero 32, fun _ b => b, fun _ b => b⟩
    let key : PrivateKey := ⟨Bytes.zero 32⟩
    (∃ sig, (sign one (.ofPrivate one key) []).value = .ok sig ∧
      (verify one (.ofPrivate one key) [] sig).value = true) ∧
    ∃ e, (sign zero (.ofPrivate zero key) []).value = .error e ∧
      ((nonce zero key []).toNat +
        (challenge zero (baseTable.multiply (.short (nonce zero key []))).encode
          (KeyPair.ofPrivate zero key).encoded []).toNat * (key.scalar zero).toNat) %
        groupOrder = 0 := by
  intro one zero key
  have hone : (made one key []).isCanonical = true := by
    rw [isCanonical_made, toNat_s_made, toNat_challenge, nonce, Scalar.toNat_reduce]
    decide
  have hzero : ¬ (made zero key []).isCanonical = true := by
    rw [isCanonical_made, toNat_s_made, toNat_challenge, nonce, Scalar.toNat_reduce]
    decide
  have hsign := sign_ofPrivate one key []
  have hfail := sign_ofPrivate zero key []
  rw [if_pos hone] at hsign
  rw [if_neg hzero] at hfail
  exact ⟨⟨_, hsign, ((sign_verify one key []).1 _ hsign).1⟩,
    ⟨_, hfail, (sign_verify zero key []).2 _ hfail⟩⟩

end sign

end Signature
end Edwards25519
