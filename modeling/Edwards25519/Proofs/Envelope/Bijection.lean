import Edwards25519.Proofs.Cipher.Aes256
import Edwards25519.Proofs.Cipher.Chaining
import Edwards25519.Proofs.Envelope
import Edwards25519.Proofs.Randomness
import Mathlib.Data.Fintype.EquivFin

/-! Envelopes between two key pairs. The recipient opens what the sender makes, and accepts nothing
else: what is opened is made again from the same plaintext and the same random bytes. -/
namespace Edwards25519

instance Bytes.finite (n : ℕ) : Finite (Bytes n) :=
  Finite.of_injective (fun b => (⟨b.toNat, b.toNat_lt⟩ : Fin (256 ^ n))) fun _ _ h =>
    toNat_injective (Fin.mk.inj h)

namespace Envelope

variable {suite : Suite} {sender recipient : KeyPair} {input : ByteString}

/-- The salt at the start of a string. -/
def saltOf (s : ByteString) : Bytes 32 := Bytes.ofPrefix 32 s

/-- The initial vector after the salt. -/
def ivOf (s : ByteString) : Bytes 16 := Bytes.ofPrefix 16 (s.drop 32)

lemma take_eq {s : ByteString} (h : 48 ≤ s.length) :
    s.take 48 = (saltOf s).toList ++ (ivOf s).toList := by
  rw [saltOf, ivOf, Bytes.toList_ofPrefix (by omega),
    Bytes.toList_ofPrefix (by rw [List.length_drop]; omega), ← List.take_add]

lemma saltOf_append (salt : Bytes 32) (iv : Bytes 16) (s : ByteString) :
    saltOf (salt.toList ++ iv.toList ++ s) = salt := by
  rw [saltOf, List.append_assoc, Bytes.ofPrefix_toList_append]

lemma ivOf_append (salt : Bytes 32) (iv : Bytes 16) (s : ByteString) :
    ivOf (salt.toList ++ iv.toList ++ s) = iv := by
  rw [ivOf, List.append_assoc, List.drop_left' (by simp), Bytes.ofPrefix_toList_append]

/-- Encryption by an owner whose shared key is known. -/
lemma runFrom_encrypt {key : PrivateKey} (hsecret : sender.requireSecret = .ok key)
    {salt : Bytes 32} {iv : Bytes 16} {shared : Bytes 32}
    (hshared : (sharedKey suite key recipient.publicKey salt).value = .ok shared)
    (m rest : ByteString) :
    (Randomized.runFrom ⟨salt.toList ++ iv.toList ++ rest⟩ (encrypt suite sender recipient m)).value =
      (.ok (salt.toList ++ iv.toList ++ Chaining.encrypt (suite.encryptBlock shared) iv m), ⟨rest⟩) := by
  have hpure : (pure sender.requireSecret : Logged (Except Error PrivateKey)).value = .ok key := hsecret
  rw [encrypt, Randomized.value_ofLogged_bind hpure, List.append_assoc, Randomized.runFrom_draw_bind,
    Randomized.runFrom_draw_bind, Randomized.value_ofLogged_bind hshared]
  rfl

lemma value_decrypt_short (h : input.length < minimumLength) :
    (decrypt suite sender recipient input).value = .error (.ciphertextTooShort input.length) := by
  rw [decrypt, if_pos h]
  rfl

/-- Decryption by an owner whose shared key is known. -/
lemma value_decrypt (h : minimumLength ≤ input.length) {key : PrivateKey}
    (hsecret : recipient.requireSecret = .ok key) {shared : Bytes 32}
    (hshared : (sharedKey suite key sender.publicKey (saltOf input)).value = .ok shared) :
    (decrypt suite sender recipient input).value =
      (Chaining.decrypt (suite.decryptBlock shared) (ivOf input) (input.drop 48)).elim
        (.error .decryptionFailed) .ok := by
  rw [saltOf] at hshared
  rw [decrypt, if_neg (Nat.not_lt.mpr h), hsecret]
  dsimp only
  rw [Logged.value_bind, hshared]
  dsimp only
  rw [← ivOf]
  cases Chaining.decrypt (suite.decryptBlock shared) (ivOf input) (input.drop 48) <;> rfl

section derived

variable (suite) (a b : PrivateKey) (x y : Option PrivateKey)

/-- The key that the owners of two private keys share. -/
def agreed (salt : Bytes 32) : Bytes 32 :=
  suite.hash256 (Bytes.xor ((a.scalar suite).toNat • b.point suite).encode salt).toList

/-- The envelope made with a salt and an initial vector. -/
def envelope (salt : Bytes 32) (iv : Bytes 16) (m : ByteString) : ByteString :=
  salt.toList ++ iv.toList ++ Chaining.encrypt (suite.encryptBlock (agreed suite a b salt)) iv m

lemma agreed_comm (salt : Bytes 32) : agreed suite b a salt = agreed suite a b salt := by
  rw [agreed, agreed, PrivateKey.point, PrivateKey.point, nsmul_left_comm]

lemma runFrom_encrypt_derive (salt : Bytes 32) (iv : Bytes 16) (m rest : ByteString) :
    (Randomized.runFrom ⟨salt.toList ++ iv.toList ++ rest⟩
      (encrypt suite (.ofPrivate suite a) ⟨x, b.derive suite⟩ m)).value =
      (.ok (envelope suite a b salt iv m), ⟨rest⟩) := by
  have hshared : (sharedKey suite a (KeyPair.publicKey ⟨x, b.derive suite⟩) salt).value =
      .ok (agreed suite a b salt) := sharedKey_derive suite a b salt
  have hsecret : (KeyPair.ofPrivate suite a).requireSecret = .ok a := rfl
  exact runFrom_encrypt hsecret hshared m rest

/-- The recipient reaches the same key from the other private key. -/
lemma value_decrypt_derive (h : minimumLength ≤ input.length) :
    (decrypt suite ⟨y, a.derive suite⟩ (.ofPrivate suite b) input).value =
      (Chaining.decrypt (suite.decryptBlock (agreed suite a b (saltOf input))) (ivOf input)
        (input.drop 48)).elim (.error .decryptionFailed) .ok := by
  have hshared := sharedKey_derive suite b a (saltOf input)
  rw [← agreed, agreed_comm] at hshared
  exact value_decrypt h rfl hshared

/-- The only failure of a string that is long enough. -/
lemma decrypt_eq_error (h : minimumLength ≤ input.length) {e : Error}
    (he : (decrypt suite ⟨y, a.derive suite⟩ (.ofPrivate suite b) input).value = .error e) :
    e = .decryptionFailed := by
  rw [value_decrypt_derive suite a b y h] at he
  generalize Chaining.decrypt (suite.decryptBlock (agreed suite a b (saltOf input))) (ivOf input)
    (input.drop 48) = m? at he
  cases m? with
  | none => exact (Except.error.inj he).symm
  | some m => exact nomatch he

/-- What is decrypted. -/
lemma decrypt_eq_ok_iff {m : ByteString} :
    (decrypt suite ⟨y, a.derive suite⟩ (.ofPrivate suite b) input).value = .ok m ↔
      minimumLength ≤ input.length ∧ Chaining.decrypt
        (suite.decryptBlock (agreed suite a b (saltOf input))) (ivOf input) (input.drop 48) =
          some m := by
  by_cases h : minimumLength ≤ input.length
  · rw [value_decrypt_derive suite a b y h, and_iff_right h]
    generalize Chaining.decrypt (suite.decryptBlock (agreed suite a b (saltOf input))) (ivOf input)
      (input.drop 48) = m?
    cases m? with
    | none => exact iff_of_false nofun nofun
    | some m => rw [Option.elim_some, Except.ok.injEq, Option.some.injEq]
  · rw [value_decrypt_short (Nat.not_le.mp h)]
    exact iff_of_false nofun fun hm => h hm.1

variable {a b} {salt : Bytes 32} {iv : Bytes 16} {m : ByteString}

lemma length_envelope :
    (envelope suite a b salt iv m).length = 48 + 16 * (m.length / 16 + 1) := by
  simp only [envelope, List.length_append, Vector.length_toList, Chaining.length_encrypt]

lemma take_envelope : (envelope suite a b salt iv m).take 48 = salt.toList ++ iv.toList := by
  rw [envelope, List.take_left' (by simp)]

lemma drop_envelope : (envelope suite a b salt iv m).drop 48 =
    Chaining.encrypt (suite.encryptBlock (agreed suite a b salt)) iv m := by
  rw [envelope, List.drop_left' (by simp)]

end derived

section bijection

variable (hinverse : ∀ key block, suite.decryptBlock key (suite.encryptBlock key block) = block)
  {a b : PrivateKey} {y : Option PrivateKey}

include hinverse

lemma value_decrypt_envelope (salt : Bytes 32) (iv : Bytes 16) (m : ByteString) :
    (decrypt suite ⟨y, a.derive suite⟩ (.ofPrivate suite b) (envelope suite a b salt iv m)).value =
      .ok m := by
  rw [decrypt_eq_ok_iff, length_envelope, drop_envelope, envelope, saltOf_append, ivOf_append]
  refine ⟨?_, Chaining.decrypt_encrypt (hinverse (agreed suite a b salt)) iv m⟩
  change 64 ≤ _
  omega

/-- An injective function on blocks is also surjective, so that encryption inverts decryption. -/
lemma encryptBlock_decryptBlock (key : Bytes 32) :
    Function.RightInverse (suite.decryptBlock key) (suite.encryptBlock key) := by
  have hleft : Function.LeftInverse (suite.decryptBlock key) (suite.encryptBlock key) := hinverse key
  exact hleft.rightInverse_of_surjective (Finite.surjective_of_injective hleft.injective)

/-- What is opened was made from its own salt and initial vector. -/
lemma envelope_of_decrypt {m : ByteString}
    (hm : (decrypt suite ⟨y, a.derive suite⟩ (.ofPrivate suite b) input).value = .ok m) :
    minimumLength ≤ input.length ∧ envelope suite a b (saltOf input) (ivOf input) m = input := by
  obtain ⟨hlength, hblocks⟩ := (decrypt_eq_ok_iff suite a b y).mp hm
  have hprefix : 48 ≤ input.length := le_trans (by decide) hlength
  refine ⟨hlength, ?_⟩
  rw [envelope, ← take_eq hprefix,
    Chaining.encrypt_of_decrypt (encryptBlock_decryptBlock hinverse _) hblocks,
    List.take_append_drop]

end bijection

/-- Between two derived pairs, encryption with 48 random bytes and decryption invert each other. What
is not accepted is too short or fails to decrypt. -/
theorem encrypt_bijection
    (hinverse : ∀ key block, suite.decryptBlock key (suite.encryptBlock key block) = block)
    (a b : PrivateKey) (x y : Option PrivateKey) :
    let sender := KeyPair.ofPrivate suite a
    let recipient := KeyPair.ofPrivate suite b
    let encrypted (m drawn rest : ByteString) := (Randomized.runFrom ⟨drawn ++ rest⟩
      (encrypt suite sender ⟨x, recipient.encoded⟩ m)).value
    let decrypted (input : ByteString) :=
      (decrypt suite ⟨y, sender.encoded⟩ recipient input).value
    (∀ m drawn rest : ByteString, drawn.length = 48 → ∃ out,
      encrypted m drawn rest = (.ok out, ⟨rest⟩) ∧ out.take 48 = drawn ∧
        out.length = 48 + 16 * (m.length / 16 + 1) ∧ decrypted out = .ok m) ∧
    (∀ input m rest : ByteString, decrypted input = .ok m →
      encrypted m (input.take 48) rest = (.ok input, ⟨rest⟩)) ∧
    (∀ input : ByteString,
      (input.length < 64 → decrypted input = .error (.ciphertextTooShort input.length)) ∧
      (64 ≤ input.length → ∀ e, decrypted input = .error e → e = .decryptionFailed)) := by
  intro sender recipient encrypted decrypted
  refine ⟨fun m drawn rest hdrawn => ?_, fun input m rest hm => ?_, fun input =>
    ⟨value_decrypt_short, fun hlength e he => ?_⟩⟩
  · have hparts : drawn = (saltOf drawn).toList ++ (ivOf drawn).toList := by
      rw [← take_eq hdrawn.ge, List.take_of_length_le hdrawn.le]
    refine ⟨envelope suite a b (saltOf drawn) (ivOf drawn) m, ?_, ?_, length_envelope suite,
      value_decrypt_envelope hinverse _ _ m⟩
    · have hrun := runFrom_encrypt_derive suite a b x (saltOf drawn) (ivOf drawn) m rest
      rwa [← hparts] at hrun
    · rw [take_envelope, ← hparts]
  · obtain ⟨hlength, hinput⟩ := envelope_of_decrypt hinverse hm
    have hrun := runFrom_encrypt_derive suite a b x (saltOf input) (ivOf input) m rest
    rwa [← take_eq (le_trans (by decide) hlength), hinput] at hrun
  · exact decrypt_eq_error suite a b y hlength he

/-- With AES, the empty plaintext and one of 40 bytes, which takes three blocks, random bytes of zero, and
inputs of no bytes and of 65. -/
theorem encrypt_bijection_standard :
    let a : PrivateKey := ⟨Bytes.zero 32⟩
    let b : PrivateKey := ⟨Bytes.ofNat 32 1⟩
    let zeros : ByteString := List.replicate 65 0
    let text : ByteString := List.replicate 40 5
    let encrypted (m drawn : ByteString) := (Randomized.runFrom ⟨drawn ++ [7]⟩
      (encrypt .standard (.ofPrivate .standard a) ⟨none, b.derive .standard⟩ m)).value
    let decrypted (input : ByteString) :=
      (decrypt .standard ⟨none, a.derive .standard⟩ (.ofPrivate .standard b) input).value
    (∃ out, encrypted [] (zeros.take 48) = (.ok out, ⟨[7]⟩) ∧ out.take 48 = zeros.take 48 ∧
      out.length = 64 ∧ decrypted out = .ok [] ∧ encrypted [] (out.take 48) = (.ok out, ⟨[7]⟩)) ∧
    (∃ out, encrypted text (zeros.take 48) = (.ok out, ⟨[7]⟩) ∧ out.take 48 = zeros.take 48 ∧
      out.length = 96 ∧ decrypted out = .ok text ∧ encrypted text (out.take 48) = (.ok out, ⟨[7]⟩)) ∧
      decrypted [] = .error (.ciphertextTooShort 0) ∧ decrypted zeros = .error .decryptionFailed := by
  intro a b zeros text encrypted decrypted
  obtain ⟨hmade, hopened, hrefused⟩ :=
    encrypt_bijection Suite.standard_decryptBlock a b none none
  obtain ⟨out, hout, htake, hlength, hm⟩ := hmade [] (zeros.take 48) [7] rfl
  obtain ⟨out', hout', htake', hlength', hm'⟩ := hmade text (zeros.take 48) [7] rfl
  have htext : text.length = 40 := List.length_replicate
  rw [htext] at hlength'
  refine ⟨⟨out, hout, htake, hlength, hm, hopened out [] [7] hm⟩,
    ⟨out', hout', htake', hlength', hm', hopened out' text [7] hm'⟩, (hrefused []).1 (by decide), ?_⟩
  -- the 17 bytes after the salt and the initial vector are no whole blocks
  have hblocks (f : Bytes 16 → Bytes 16) : Chaining.decrypt f (ivOf zeros) (zeros.drop 48) = none :=
    if_neg (by decide)
  have hlong : minimumLength ≤ zeros.length := by decide
  have hvalue : decrypted zeros = _ := value_decrypt_derive .standard a b none hlong
  rw [hblocks, Option.elim_none] at hvalue
  exact hvalue.trans (congrArg Except.error ((hrefused zeros).2 hlong _ hvalue))

end Envelope
end Edwards25519
