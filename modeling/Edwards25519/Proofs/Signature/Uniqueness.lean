import Edwards25519.Proofs.Signature

/-! What accepted signatures determine. With the key, the message and the encoded point the scalar is
determined, and a signature made for a derived key determines the residue of the hash. -/
namespace Edwards25519.Signature

variable {suite : Suite} {pair : KeyPair} {message message' : ByteString} {sig : Signature}

/-- An accepted signature starts with the encoding of its target. -/
lemma target_of_verify (h : (verify suite pair message sig).value = true) :
    sig.s.toNat < groupOrder ∧ ∃ A, CurvePoint.Decodes pair.encoded A ∧
      (target suite pair message sig A).encode = sig.r := by
  obtain ⟨hs, -, p, hp, hr⟩ := verify_eq_true_iff.mp h
  obtain ⟨A, hA, hpA⟩ := Extended.represents_of_decode hp
  rw [encode_combine hs hpA] at hr
  exact ⟨(isCanonical_iff.mp hs).2, A, hA, hr⟩

/-- The scalar of an accepted signature cannot be exchanged. -/
theorem scalar_unique {r s s' : Bytes 32} (h : (verify suite pair message ⟨r, s⟩).value = true)
    (h' : (verify suite pair message ⟨r, s'⟩).value = true) : s = s' := by
  obtain ⟨hs, A, hA, hr⟩ := target_of_verify h
  obtain ⟨hs', A', hA', hr'⟩ := target_of_verify h'
  obtain rfl := Extended.decodes_unique hA hA'
  have htarget := CurvePoint.encode_injective (hr.trans hr'.symm)
  have hbase : s.toNat • CurvePoint.base = s'.toNat • CurvePoint.base :=
    sub_left_injective htarget
  exact Bytes.toNat_injective (CurvePoint.nsmul_injOn CurvePoint.groupOrder_nsmul_base
    CurvePoint.base_ne_zero hs hs' hbase)

/-- With hashes of one the clamped scalar is `2 ^ 254`, and the challenge and the nonce are one. -/
theorem scalar_unique_constant :
    let one : Suite := ⟨fun _ => Bytes.ofNat 64 1, fun _ => Bytes.zero 32, fun _ b => b, fun _ b => b⟩
    let key : PrivateKey := ⟨Bytes.zero 32⟩
    let pair := KeyPair.ofPrivate one key
    let sig := made one key []
    let s := Bytes.ofNat 32 ((2 ^ 254 + 1) % groupOrder)
    (verify one pair [] ⟨sig.r, sig.s⟩).value = true ∧
      (verify one pair [] ⟨sig.r, s⟩).value = true ∧ sig.s = s := by
  intro one key pair sig s
  have hs : sig.s.toNat = (2 ^ 254 + 1) % groupOrder := by
    rw [toNat_s_made, toNat_challenge, nonce, Scalar.toNat_reduce]
    decide
  have hcanonical : sig.isCanonical = true := by
    rw [isCanonical_made, hs]
    decide
  have heq : sig.s = s := by
    apply Bytes.toNat_injective
    rw [hs, Bytes.toNat_ofNat]
    decide
  have hkey : pair.encoded = key.derive one := rfl
  have h := verify_made one key [] hkey hcanonical
  have h' : (verify one pair [] ⟨sig.r, s⟩).value = true := heq ▸ h
  exact ⟨h, h', scalar_unique h h'⟩

/-- A signature is accepted for two messages only if their hashes have the same residue. -/
theorem challenge_unique {key : PrivateKey} (hkey : pair.encoded = key.derive suite)
    (h : (verify suite pair message sig).value = true)
    (h' : (verify suite pair message' sig).value = true) :
    (suite.hash512 (sig.r.toList ++ (key.derive suite).toList ++ message)).toNat % groupOrder =
      (suite.hash512 (sig.r.toList ++ (key.derive suite).toList ++ message')).toNat %
        groupOrder := by
  obtain ⟨-, A, hA, hr⟩ := target_of_verify h
  obtain ⟨-, A', hA', hr'⟩ := target_of_verify h'
  obtain rfl := Extended.decodes_unique hA hA'
  have hpoint : A = key.point suite := by
    rw [hkey, key.derive_eq] at hA
    exact Extended.decodes_unique hA (CurvePoint.decodes_encode _)
  have htarget := CurvePoint.encode_injective (hr.trans hr'.symm)
  have hmultiple := sub_right_injective htarget
  rw [hpoint] at hmultiple
  rw [← hkey, ← toNat_challenge, ← toNat_challenge]
  exact CurvePoint.nsmul_injOn (key.groupOrder_nsmul_point suite) (key.point_ne_zero suite)
    (toNat_challenge_lt _ _) (toNat_challenge_lt _ _) hmultiple

/-- Hashes of two messages that differ by the group order. -/
theorem challenge_unique_shifted :
    let suite : Suite := ⟨fun m => Bytes.ofNat 64 (if m.getLast? = some 1 then 1 + groupOrder else 1),
      fun _ => Bytes.zero 32, fun _ b => b, fun _ b => b⟩
    let key : PrivateKey := ⟨Bytes.zero 32⟩
    let pair := KeyPair.ofPrivate suite key
    let sig := made suite key [0]
    pair.encoded = key.derive suite ∧ (verify suite pair [0] sig).value = true ∧
      (verify suite pair [1] sig).value = true ∧
      (suite.hash512 (sig.r.toList ++ (key.derive suite).toList ++ [0])).toNat % groupOrder =
        (suite.hash512 (sig.r.toList ++ (key.derive suite).toList ++ [1])).toNat % groupOrder := by
  intro suite key pair sig
  have hzero (m : ByteString) : (suite.hash512 (m ++ [0])).toNat % groupOrder = 1 := by
    simp only [suite, List.getLast?_concat]
    decide
  have hone (m : ByteString) : (suite.hash512 (m ++ [1])).toNat % groupOrder = 1 := by
    simp only [suite, List.getLast?_concat]
    decide
  have hmade : made suite key [1] = sig := by
    have hnonce : nonce suite key [1] = nonce suite key [0] := by
      apply Bytes.toNat_injective
      rw [nonce, nonce, Scalar.toNat_reduce, Scalar.toNat_reduce, hone, hzero]
    have hchallenge (r b : Bytes 32) : challenge suite r b [1] = challenge suite r b [0] := by
      apply Bytes.toNat_injective
      rw [toNat_challenge, toNat_challenge, hone, hzero]
    simp only [sig, made, hnonce, hchallenge]
  have hs : sig.s.toNat = (1 * (key.scalar suite).toNat + 1) % groupOrder := by
    rw [toNat_s_made, toNat_challenge, nonce, Scalar.toNat_reduce, hzero, hzero]
  have hcanonical : sig.isCanonical = true := by
    rw [isCanonical_made, hs]
    decide
  have hkey : pair.encoded = key.derive suite := rfl
  have h := verify_made suite key [0] hkey hcanonical
  have h' := verify_made suite key [1] hkey (hmade ▸ hcanonical)
  rw [hmade] at h'
  exact ⟨hkey, h, h', challenge_unique hkey h h'⟩

end Edwards25519.Signature
