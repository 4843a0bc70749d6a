import Edwards25519.Cipher.Chaining
import Edwards25519.Proofs.Bytes

/-! Encryption of byte strings and decryption invert each other, if the two functions on blocks do.
Padding has an inverse on whole blocks, because every byte of it is looked at, so what decryption
accepts is exactly what encryption makes. -/
namespace Edwards25519.Chaining

section padding

variable {s m : ByteString}

/-- A string is unpadded if it ends in a number of bytes that each hold this number. -/
theorem unpad_eq_some_iff : unpad s = some m ↔
    ∃ n, 1 ≤ n ∧ n ≤ 16 ∧ s = m ++ List.replicate n (UInt8.ofNat n) := by
  constructor
  · intro h
    obtain ⟨last, -, h⟩ := Option.bind_eq_some_iff.mp h
    dsimp only at h
    split_ifs at h with hlast
    obtain ⟨hpos, hle, hs⟩ := hlast
    obtain rfl := Option.some.inj h
    exact ⟨last.toNat, hpos, hle, by rwa [UInt8.ofNat_toNat]⟩
  · rintro ⟨n, hpos, hle, rfl⟩
    have hn : (UInt8.ofNat n).toNat = n := by
      rw [UInt8.toNat_ofNat', Nat.mod_eq_of_lt (by omega)]
    have hlast : (m ++ List.replicate n (UInt8.ofNat n)).getLast? = some (UInt8.ofNat n) := by
      obtain ⟨k, rfl⟩ := Nat.exists_eq_add_of_le' hpos
      rw [List.replicate_succ', ← List.append_assoc, List.getLast?_concat]
    unfold unpad
    rw [hlast]
    simp [hn, hpos, hle]

/-- The number of bytes that padding appends. -/
def padding (s : ByteString) : ℕ := 16 - s.length % 16

lemma pad_eq (s : ByteString) :
    pad s = s ++ List.replicate (padding s) (UInt8.ofNat (padding s)) := rfl

theorem unpad_pad (s : ByteString) : unpad (pad s) = some s :=
  unpad_eq_some_iff.mpr ⟨padding s, by unfold padding; omega, Nat.sub_le 16 _, pad_eq s⟩

/-- The length that the padding fills up to a multiple of 16 determines it. -/
theorem pad_of_unpad (hs : s.length % 16 = 0) (h : unpad s = some m) : pad m = s := by
  obtain ⟨n, hpos, hle, rfl⟩ := unpad_eq_some_iff.mp h
  rw [List.length_append, List.length_replicate] at hs
  have hn : padding m = n := by unfold padding; omega
  rw [pad_eq, hn]

lemma length_pad (s : ByteString) : (pad s).length = 16 * (s.length / 16 + 1) := by
  rw [pad_eq, List.length_append, List.length_replicate, padding]
  omega

end padding

section blocks

lemma length_join (bs : List Block) : (join bs).length = 16 * bs.length := by
  induction bs with
  | nil => rfl
  | cons b bs ih =>
    rw [join, List.flatMap_cons, List.length_append, Vector.length_toList, List.length_cons]
    change 16 + (join bs).length = _
    omega

lemma blocks_nil : blocks [] = [] := by
  rw [blocks, ByteString.chunks]
  rfl

lemma blocks_append (b : Block) (s : ByteString) : blocks (b.toList ++ s) = b :: blocks s := by
  have hne : ¬ (b.toList ++ s = [] ∨ 16 = 0) := by
    simp [← List.length_eq_zero_iff]
  rw [blocks, ByteString.chunks, dif_neg hne, List.take_left' (by simp), List.drop_left' (by simp),
    List.map_cons]
  have hb := Bytes.ofPrefix_toList_append b []
  rw [List.append_nil] at hb
  rw [hb, blocks]

theorem blocks_join (bs : List Block) : blocks (join bs) = bs := by
  induction bs with
  | nil => exact blocks_nil
  | cons b bs ih => rw [join, List.flatMap_cons, blocks_append, ← join, ih]

/-- A string of whole blocks. -/
lemma exists_join {n : ℕ} {s : ByteString} (h : s.length = 16 * n) : ∃ bs, join bs = s := by
  induction n generalizing s with
  | zero => exact ⟨[], (List.length_eq_zero_iff.mp h).symm⟩
  | succ n ih =>
    obtain ⟨bs, hbs⟩ := ih (s := s.drop 16) (by rw [List.length_drop]; omega)
    refine ⟨Bytes.ofPrefix 16 s :: bs, ?_⟩
    rw [join, List.flatMap_cons, Bytes.toList_ofPrefix (by omega), ← join, hbs, List.take_append_drop]

end blocks

variable {f g : Block → Block}

lemma length_encryptBlocks (f : Block → Block) (previous : Block) (bs : List Block) :
    (encryptBlocks f previous bs).length = bs.length := by
  induction bs generalizing previous with
  | nil => rfl
  | cons b bs ih => rw [encryptBlocks, List.length_cons, ih, List.length_cons]

/-- Each block is decrypted with the encrypted block before it. -/
theorem decryptBlocks_encryptBlocks (h : Function.LeftInverse g f) (previous : Block)
    (bs : List Block) : decryptBlocks g previous (encryptBlocks f previous bs) = bs := by
  induction bs generalizing previous with
  | nil => rfl
  | cons b bs ih => rw [encryptBlocks, decryptBlocks, ih, h, Bytes.xor_xor_cancel]

theorem encryptBlocks_decryptBlocks (h : Function.RightInverse g f) (previous : Block)
    (cs : List Block) : encryptBlocks f previous (decryptBlocks g previous cs) = cs := by
  induction cs generalizing previous with
  | nil => rfl
  | cons c cs ih => rw [decryptBlocks, encryptBlocks, Bytes.xor_xor_cancel, h, ih]

theorem length_encrypt (f : Block → Block) (iv : Block) (s : ByteString) :
    (encrypt f iv s).length = 16 * (s.length / 16 + 1) := by
  obtain ⟨bs, hbs⟩ := exists_join (length_pad s)
  have hlength := length_pad s
  rw [← hbs, length_join] at hlength
  rw [encrypt, ← hbs, blocks_join, length_join, length_encryptBlocks, hlength]

lemma decrypt_join (g : Block → Block) (iv : Block) (cs : List Block) :
    decrypt g iv (join cs) = unpad (join (decryptBlocks g iv cs)) := by
  rw [decrypt, if_pos (by rw [length_join]; exact Nat.mul_mod_right 16 _), blocks_join]

theorem decrypt_encrypt (h : Function.LeftInverse g f) (iv : Block) (s : ByteString) :
    decrypt g iv (encrypt f iv s) = some s := by
  obtain ⟨bs, hbs⟩ := exists_join (length_pad s)
  rw [encrypt, decrypt_join, ← hbs, blocks_join, decryptBlocks_encryptBlocks h, hbs, unpad_pad]

/-- Nothing is accepted but what is made. -/
theorem encrypt_of_decrypt (h : Function.RightInverse g f) {iv : Block} {s m : ByteString}
    (hm : decrypt g iv s = some m) : encrypt f iv m = s := by
  have hs : s.length % 16 = 0 := by
    by_contra hs
    rw [decrypt, if_neg hs] at hm
    exact nomatch hm
  obtain ⟨cs, rfl⟩ := exists_join (n := s.length / 16) (s := s) (by omega)
  rw [decrypt_join] at hm
  have hwhole : (join (decryptBlocks g iv cs)).length % 16 = 0 := by
    rw [length_join]
    exact Nat.mul_mod_right 16 _
  rw [encrypt, pad_of_unpad hwhole hm, blocks_join, encryptBlocks_decryptBlocks h]

end Edwards25519.Chaining
