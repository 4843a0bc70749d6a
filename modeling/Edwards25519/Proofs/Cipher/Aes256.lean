import Edwards25519.Proofs.Bytes
import Edwards25519.Suite
import Mathlib.Data.List.FinRange

/-! Decryption of a block inverts encryption. Each step of a round has an inverse: the substitution
because inversion in the field undoes itself, the rows because they are rotated back, and the columns
because multiplication in the field is additive and the two circulant matrices are inverse. -/
namespace Edwards25519

namespace Aes256

section field

lemma double_xor (a b : UInt8) : double (a ^^^ b) = double a ^^^ double b := by
  have hbit (c : UInt8) : c &&& 0x80 = 0 ∨ c &&& 0x80 = 0x80 := by
    have hmask : (c &&& 0x80).toNat = c.toNat / 2 ^ 7 % 2 ^ 1 * 2 ^ 7 := land_mask c.toNat 7 1
    rw [← UInt8.toNat_inj, ← UInt8.toNat_inj, hmask]
    change _ = 0 ∨ _ = 128
    omega
  have hand : (a ^^^ b) &&& 0x80 = (a &&& 0x80) ^^^ (b &&& 0x80) := by
    apply UInt8.toNat_inj.mp
    simp only [UInt8.toNat_and, UInt8.toNat_xor, Nat.and_xor_distrib_right]
  have hcut : (if (a ^^^ b) &&& 0x80 = 0 then 0 else 0x1b : UInt8) =
      (if a &&& 0x80 = 0 then 0 else 0x1b) ^^^ if b &&& 0x80 = 0 then 0 else 0x1b := by
    rw [hand]
    rcases hbit a with ha | ha <;> rcases hbit b with hb | hb <;> rw [ha, hb] <;> rfl
  rw [double, double, double, hcut, UInt8.shiftLeft_xor]
  ac_rfl

/-- One bit of a multiplication: the product of the bits before, and the second factor doubled as often
as there are such bits. -/
def step (a : UInt8) (s : UInt8 × UInt8) (i : ℕ) : UInt8 × UInt8 :=
  (if a.toNat.testBit i then s.1 ^^^ s.2 else s.1, double s.2)

lemma times_eq (a b : UInt8) : times a b = ((List.range 8).foldl (step a) (0, b)).1 := rfl

lemma foldl_step_xor (a : UInt8) (l : List ℕ) (s t : UInt8 × UInt8) :
    l.foldl (step a) (s.1 ^^^ t.1, s.2 ^^^ t.2) =
      ((l.foldl (step a) s).1 ^^^ (l.foldl (step a) t).1,
        (l.foldl (step a) s).2 ^^^ (l.foldl (step a) t).2) := by
  induction l generalizing s t with
  | nil => rfl
  | cons i l ih =>
    have hstep : step a (s.1 ^^^ t.1, s.2 ^^^ t.2) i =
        ((step a s i).1 ^^^ (step a t i).1, (step a s i).2 ^^^ (step a t i).2) := by
      simp only [step, double_xor]
      split
      · congr 1
        ac_rfl
      · rfl
    rw [List.foldl_cons, hstep, ih, List.foldl_cons, List.foldl_cons]

/-- Multiplication is additive in the second factor. -/
theorem times_xor (a b c : UInt8) : times a (b ^^^ c) = times a b ^^^ times a c := by
  have h := foldl_step_xor a (List.range 8) (0, b) (0, c)
  rw [UInt8.xor_zero] at h
  rw [times_eq, times_eq, times_eq, h]

/-! The same on numbers, with the first factor taken apart by division. Closed products are computed
in this form, because no intermediate result in it is evaluated twice. -/

def doubleNat (a : ℕ) : ℕ := a * 2 ^^^ a / 128 * 0x11b

def timesNat : ℕ → ℕ → ℕ → ℕ
  | 0, _, _ => 0
  | bits + 1, a, b => (a % 2 * b) ^^^ timesNat bits (a / 2) (doubleNat b)

lemma timesNat_zero (bits b : ℕ) : timesNat bits 0 b = 0 := by
  induction bits generalizing b with
  | zero => rfl
  | succ bits ih => rw [timesNat, ih, Nat.zero_mod, Nat.zero_mul, Nat.xor_zero]

lemma toNat_double (a : UInt8) : (double a).toNat = doubleNat a.toNat := by
  revert a
  exact forall_byte (by decide +kernel)

lemma toNat_foldl_step (a : UInt8) (bits start : ℕ) (s : UInt8 × UInt8) :
    ((List.range' start bits).foldl (step a) s).1.toNat =
      s.1.toNat ^^^ timesNat bits (a.toNat / 2 ^ start) s.2.toNat := by
  induction bits generalizing start s with
  | zero => simp [timesNat]
  | succ bits ih =>
    have hbit : (step a s start).1.toNat =
        s.1.toNat ^^^ (a.toNat / 2 ^ start % 2 * s.2.toNat) := by
      rw [step, Nat.testBit_eq_decide_div_mod_eq]
      rcases Nat.mod_two_eq_zero_or_one (a.toNat / 2 ^ start) with h | h <;> simp [h]
    rw [List.range'_succ, List.foldl_cons, ih, hbit, timesNat, Nat.div_div_eq_div_mul, ← pow_succ,
      Nat.xor_assoc, step, toNat_double]

lemma toNat_times (a b : UInt8) : (times a b).toNat = timesNat 8 a.toNat b.toNat := by
  rw [times_eq, List.range_eq_range', toNat_foldl_step, pow_zero, Nat.div_one]
  exact Nat.zero_xor _

/-- The chain of multiplications for the power 254, for some multiplication. -/
def power254 {α : Type} (mul : α → α → α) (a : α) : α :=
  let a3 := mul (mul a a) a
  let a6 := mul a3 a3
  let a12 := mul a6 a6
  let a15 := mul a12 a3
  let a30 := mul a15 a15
  let a60 := mul a30 a30
  let a63 := mul a60 a3
  let a126 := mul a63 a63
  let a127 := mul a126 a
  mul a127 a127

lemma inverse_eq (a : UInt8) : inverse a = power254 times a := rfl

lemma toNat_inverse (a : UInt8) : (inverse a).toNat = power254 (timesNat 8) a.toNat := by
  simp only [inverse_eq, power254, toNat_times]

theorem inverse_inverse (a : UInt8) : inverse (inverse a) = a := by
  have h : ∀ i : Fin 256, power254 (timesNat 8) (power254 (timesNat 8) i) = i := by decide +kernel
  apply UInt8.toNat_inj.mp
  rw [toNat_inverse, toNat_inverse]
  exact h ⟨a.toNat, a.toNat_lt⟩

end field

section substitution

/-- The map after the inversion. -/
def affine (a : UInt8) : UInt8 :=
  a ^^^ rotateLeft a 1 ^^^ rotateLeft a 2 ^^^ rotateLeft a 3 ^^^ rotateLeft a 4 ^^^ 0x63

lemma affine_injective : Function.Injective affine := by
  have h (a : UInt8) : rotateLeft (affine a) 1 ^^^ rotateLeft (affine a) 3 ^^^
      rotateLeft (affine a) 6 ^^^ 5 = a := by
    revert a
    exact forall_byte (by decide +kernel)
  intro a b hab
  rw [← h a, hab, h b]

/-- No value of the table comes twice. -/
lemma nodup_substitution : substitution.toList.Nodup := by
  have hinj : Function.Injective fun i : Fin 256 => affine (inverse (UInt8.ofNat i)) := by
    intro i j hij
    have hinv := congrArg inverse (affine_injective hij)
    rw [inverse_inverse, inverse_inverse] at hinv
    have hval := congrArg UInt8.toNat hinv
    rw [UInt8.toNat_ofNat', UInt8.toNat_ofNat', Nat.mod_eq_of_lt i.isLt,
      Nat.mod_eq_of_lt j.isLt] at hval
    exact Fin.ext hval
  have hlist : substitution.toList = List.ofFn fun i : Fin 256 => affine (inverse (UInt8.ofNat i)) :=
    Vector.toList_ofFn
  rw [hlist]
  exact List.nodup_ofFn.mpr hinj

theorem substitute_substitute (a : UInt8) :
    substitute inverseSubstitution (substitute substitution a) = a := by
  have hlength : a.toNat < substitution.toList.length := by
    rw [Vector.length_toList]
    exact a.toNat_lt
  have hindex : substitution.toList.idxOf (substitute substitution a) = a.toNat := by
    rw [substitute, ← Vector.getElem_toList hlength]
    exact nodup_substitution.idxOf_getElem _ _
  have hentry (c : UInt8) : substitute inverseSubstitution c =
      UInt8.ofNat (substitution.toList.idxOf c) := by
    rw [substitute, inverseSubstitution, Vector.getElem_ofFn, UInt8.ofNat_toNat]
  rw [hentry, hindex, UInt8.ofNat_toNat]

lemma substituteAll_substituteAll (b : Block) :
    substituteAll inverseSubstitution (substituteAll substitution b) = b := by
  ext i hi
  simp [substituteAll, substitute_substitute]

end substitution

section columns

variable (b : Block) (f : Fin 4 → ℕ → UInt8)

lemma byteAt_ofColumns (r : Fin 4) (c : ℕ) : byteAt (ofColumns f) r c = f r (c % 4) := by
  have hrow : (r.val + 4 * (c % 4)) % 4 = r.val := by omega
  have hcolumn : (r.val + 4 * (c % 4)) / 4 = c % 4 := by omega
  simp only [byteAt, ofColumns, Vector.getElem_ofFn, hrow, hcolumn]

lemma byteAt_mod (r : Fin 4) (c : ℕ) : byteAt b r (c % 4) = byteAt b r c := by
  simp only [byteAt, Nat.mod_mod]

lemma ofColumns_byteAt : ofColumns (byteAt b) = b := by
  ext i hi
  have hindex : i % 4 + 4 * (i / 4 % 4) = i := by omega
  simp only [ofColumns, byteAt, Vector.getElem_ofFn, hindex]

theorem unshiftRows_shiftRows : unshiftRows (shiftRows b) = b := by
  have h (r : Fin 4) (c : ℕ) : byteAt (shiftRows b) r (c + (4 - r.val)) = byteAt b r c := by
    have hcolumn : ((c + (4 - r.val)) % 4 + r.val) % 4 = c % 4 := by omega
    rw [shiftRows, byteAt_ofColumns, ← byteAt_mod, hcolumn, byteAt_mod]
  simp only [unshiftRows, h]
  exact ofColumns_byteAt b

/-- The columns of the product of the two matrices. -/
lemma times_inverse (a : UInt8) :
    times 14 (times 2 a) ^^^ times 11 a ^^^ times 13 a ^^^ times 9 (times 3 a) = a ∧
    times 14 (times 3 a) ^^^ times 11 (times 2 a) ^^^ times 13 a ^^^ times 9 a = 0 ∧
    times 14 a ^^^ times 11 (times 3 a) ^^^ times 13 (times 2 a) ^^^ times 9 a = 0 ∧
    times 14 a ^^^ times 11 a ^^^ times 13 (times 3 a) ^^^ times 9 (times 2 a) = 0 := by
  have h : ∀ i : Fin 256,
      timesNat 8 14 (timesNat 8 2 i) ^^^ timesNat 8 11 i ^^^ timesNat 8 13 i ^^^
        timesNat 8 9 (timesNat 8 3 i) = i ∧
      timesNat 8 14 (timesNat 8 3 i) ^^^ timesNat 8 11 (timesNat 8 2 i) ^^^ timesNat 8 13 i ^^^
        timesNat 8 9 i = 0 ∧
      timesNat 8 14 i ^^^ timesNat 8 11 (timesNat 8 3 i) ^^^ timesNat 8 13 (timesNat 8 2 i) ^^^
        timesNat 8 9 i = 0 ∧
      timesNat 8 14 i ^^^ timesNat 8 11 i ^^^ timesNat 8 13 (timesNat 8 3 i) ^^^
        timesNat 8 9 (timesNat 8 2 i) = 0 := by
    decide +kernel
  simp only [← UInt8.toNat_inj, UInt8.toNat_xor, toNat_times]
  exact h ⟨a.toNat, a.toNat_lt⟩

lemma times_one (a : UInt8) : times 1 a = a := by
  apply UInt8.toNat_inj.mp
  rw [toNat_times]
  change timesNat (7 + 1) 1 a.toNat = _
  rw [timesNat, timesNat_zero]
  simp

/-- One byte of a column that was multiplied by both matrices, from the four bytes of the column. -/
lemma times_column (a b c d : UInt8) :
    times 14 (times 2 a ^^^ times 3 b ^^^ c ^^^ d) ^^^ times 11 (times 2 b ^^^ times 3 c ^^^ d ^^^ a) ^^^
      times 13 (times 2 c ^^^ times 3 d ^^^ a ^^^ b) ^^^ times 9 (times 2 d ^^^ times 3 a ^^^ b ^^^ c) =
        a := by
  obtain ⟨ha, -⟩ := times_inverse a
  obtain ⟨-, hb, -⟩ := times_inverse b
  obtain ⟨-, -, hc, -⟩ := times_inverse c
  obtain ⟨-, -, -, hd⟩ := times_inverse d
  simp only [times_xor]
  calc _ = (times 14 (times 2 a) ^^^ times 11 a ^^^ times 13 a ^^^ times 9 (times 3 a)) ^^^
        (times 14 (times 3 b) ^^^ times 11 (times 2 b) ^^^ times 13 b ^^^ times 9 b) ^^^
        (times 14 c ^^^ times 11 (times 3 c) ^^^ times 13 (times 2 c) ^^^ times 9 c) ^^^
        (times 14 d ^^^ times 11 d ^^^ times 13 (times 3 d) ^^^ times 9 (times 2 d)) := by ac_rfl
    _ = a := by rw [ha, hb, hc, hd, UInt8.xor_zero, UInt8.xor_zero, UInt8.xor_zero]

lemma byteAt_mixColumns (r : Fin 4) (c : ℕ) : byteAt (mixColumns b) r c =
    times 2 (byteAt b r c) ^^^ times 3 (byteAt b (r + 1) c) ^^^ byteAt b (r + 2) c ^^^
      byteAt b (r + 3) c := by
  simp only [mixColumns, mixColumnsBy, byteAt_ofColumns, byteAt_mod, times_one]

theorem unmixColumns_mixColumns : unmixColumns (mixColumns b) = b := by
  have hrow (r : Fin 4) : r + 1 + 1 = r + 2 ∧ r + 1 + 2 = r + 3 ∧ r + 1 + 3 = r ∧
      r + 2 + 1 = r + 3 ∧ r + 2 + 2 = r ∧ r + 2 + 3 = r + 1 ∧
      r + 3 + 1 = r ∧ r + 3 + 2 = r + 1 ∧ r + 3 + 3 = r + 2 := by
    revert r
    decide
  have h (r : Fin 4) (c : ℕ) :
      times 14 (byteAt (mixColumns b) r c) ^^^ times 11 (byteAt (mixColumns b) (r + 1) c) ^^^
        times 13 (byteAt (mixColumns b) (r + 2) c) ^^^ times 9 (byteAt (mixColumns b) (r + 3) c) =
          byteAt b r c := by
    obtain ⟨h11, h12, h13, h21, h22, h23, h31, h32, h33⟩ := hrow r
    simp only [byteAt_mixColumns, h11, h12, h13, h21, h22, h23, h31, h32, h33]
    exact times_column _ _ _ _
  simp only [unmixColumns, mixColumnsBy, h]
  exact ofColumns_byteAt b

end columns

/-- The rounds are undone from the last one on. -/
theorem decryptRounds_encryptRounds (b : Block) (keys : List Block) :
    decryptRounds (encryptRounds b keys) keys = b := by
  fun_induction encryptRounds b keys with
  | case1 b => rfl
  | case2 b k =>
    rw [decryptRounds, Bytes.xor_xor_cancel, unshiftRows_shiftRows, substituteAll_substituteAll]
  | case3 b k keys hkeys ih =>
    rw [decryptRounds, ih, Bytes.xor_xor_cancel, unmixColumns_mixColumns, unshiftRows_shiftRows,
      substituteAll_substituteAll]
    exact hkeys

theorem decryptBlock_encryptBlock (key : Bytes 32) (b : Block) :
    decryptBlock key (encryptBlock key b) = b := by
  unfold decryptBlock encryptBlock
  split
  · rfl
  · rw [decryptRounds_encryptRounds, Bytes.xor_xor_cancel]

end Aes256

theorem Suite.standard_decryptBlock (key : Bytes 32) (b : Bytes 16) :
    standard.decryptBlock key (standard.encryptBlock key b) = b :=
  Aes256.decryptBlock_encryptBlock key b

end Edwards25519
