import Edwards25519.Bytes.Packing
import Edwards25519.Proofs.Bytes
import Mathlib.Algebra.BigOperators.Fin
import Mathlib.Algebra.BigOperators.Ring.Finset

/-! Words hold the numbers that are read into them, and packing keeps the number that limbs add up to. All
limbs but the last have to be within their widths, so that they overlap nowhere. -/
namespace Edwards25519

section words

variable {w x : UInt64} {bits width : ℕ}

lemma toNat_amount (hbits : bits < 64) : (UInt64.ofNat bits).toNat % 64 = bits := by
  rw [UInt64.toNat_ofNat', Nat.mod_mod_of_dvd _ (by decide), Nat.mod_eq_of_lt hbits]

/-- What a word gets from above is added to it, and lost past bit 63. -/
lemma toNat_or_shiftLeft (hw : w.toNat < 2 ^ bits) (hbits : bits < 64) :
    (w ||| x <<< UInt64.ofNat bits).toNat = (w.toNat + 2 ^ bits * x.toNat) % 2 ^ 64 := by
  have hsplit : (2 : ℕ) ^ 64 = 2 ^ bits * 2 ^ (64 - bits) := by
    rw [← pow_add, Nat.add_sub_of_le hbits.le]
  have hshift : x.toNat <<< bits % 2 ^ 64 = 2 ^ bits * (x.toNat % 2 ^ (64 - bits)) := by
    rw [Nat.shiftLeft_eq, mul_comm, hsplit, Nat.mul_mod_mul_left]
  have hsum : (w.toNat + 2 ^ bits * x.toNat) % 2 ^ 64 =
      w.toNat + 2 ^ bits * (x.toNat % 2 ^ (64 - bits)) := by
    rw [hsplit, Nat.mod_mul, Nat.add_mul_mod_self_left, Nat.mod_eq_of_lt hw,
      Nat.add_mul_div_left _ _ (Nat.two_pow_pos bits), Nat.div_eq_of_lt hw, zero_add]
  rw [UInt64.toNat_or, UInt64.toNat_shiftLeft, toNat_amount hbits, hshift, hsum, Nat.or_comm,
    ← Nat.two_pow_add_eq_or_of_lt hw, add_comm]

/-- Nothing is lost of a digit that ends below bit 64. -/
lemma toNat_or_digit (hw : w.toNat < 2 ^ bits) (hx : x.toNat < 2 ^ width) (hwidth : bits + width ≤ 64)
    (hbits : bits < 64) :
    (w ||| x <<< UInt64.ofNat bits).toNat = w.toNat + 2 ^ bits * x.toNat ∧
      w.toNat + 2 ^ bits * x.toNat < 2 ^ (bits + width) := by
  have hlt : w.toNat + 2 ^ bits * x.toNat < 2 ^ (bits + width) := by
    have hmul : 2 ^ bits * (x.toNat + 1) ≤ 2 ^ bits * 2 ^ width := Nat.mul_le_mul_left _ hx
    rw [mul_add, mul_one, ← pow_add] at hmul
    omega
  have hword : 2 ^ (bits + width) ≤ 2 ^ 64 := Nat.pow_le_pow_right (by decide) hwidth
  refine ⟨?_, hlt⟩
  rw [toNat_or_shiftLeft hw hbits, Nat.mod_eq_of_lt (hlt.trans_le hword)]

lemma toNat_shiftLeft_digit (hx : x.toNat < 2 ^ width) (hwidth : bits + width ≤ 64) (hbits : bits < 64) :
    (x <<< UInt64.ofNat bits).toNat = x.toNat <<< bits := by
  have hlt : x.toNat <<< bits < 2 ^ 64 := by
    rw [Nat.shiftLeft_eq, mul_comm]
    exact ((Nat.mul_lt_mul_left (Nat.two_pow_pos bits)).mpr hx).trans_le
      ((pow_add 2 bits width).symm.trans_le (Nat.pow_le_pow_right (by decide) hwidth))
  rw [UInt64.toNat_shiftLeft, toNat_amount hbits, Nat.mod_eq_of_lt hlt]

lemma toNat_shiftRight_amount (w : UInt64) (hbits : bits < 64) :
    (w >>> UInt64.ofNat bits).toNat = w.toNat / 2 ^ bits := by
  rw [UInt64.toNat_shiftRight, toNat_amount hbits, Nat.shiftRight_eq_div_pow]

lemma toNat_shiftRight_bytes (w : UInt64) {n : ℕ} (hn : n < 8) :
    (w >>> UInt64.ofNat (8 * n)).toNat = w.toNat / 256 ^ n := by
  rw [toNat_shiftRight_amount w (by omega), pow_mul]
  rfl

lemma toNat_and_mask (w : UInt64) {mask : UInt64} {n : ℕ} (h : mask.toNat = 2 ^ n - 1) :
    (w &&& mask).toNat = w.toNat % 2 ^ n := by
  rw [UInt64.toNat_and, h, Nat.and_two_pow_sub_one_eq_mod]

/-- A signed word that is not negative has the bits of its number. -/
lemma toNat_toUInt64 {a : Int64} (h : 0 ≤ a.toInt) : (a.toUInt64.toNat : ℤ) = a.toInt := by
  have hlt := a.toBitVec.isLt
  have hcases := a.toBitVec.toInt_eq_toNat_cond
  change 0 ≤ a.toBitVec.toInt at h
  change (a.toBitVec.toNat : ℤ) = a.toBitVec.toInt
  split at hcases <;> omega

end words

namespace ByteString

/-- The bytes of a word and what comes after them. -/
lemma toNat_ofWord_append (n : ℕ) (w : UInt64) (s : ByteString) :
    toNat (ofWord n w ++ s) = w.toNat % 256 ^ n + 256 ^ n * toNat s := by
  induction n generalizing w with
  | zero => simp [ofWord, Nat.mod_one]
  | succ n ih =>
    have hshift : (w >>> 8).toNat = w.toNat / 256 := toNat_shiftRight_amount w (by decide : 8 < 64)
    have hbyte : w.toUInt8.toNat = w.toNat % 256 := UInt64.toNat_toUInt8 w
    rw [ofWord, List.cons_append, toNat_cons, ih, hshift, hbyte, pow_succ' 256 n, Nat.mod_mul]
    ring

/-- The number that limbs add up to, each of them as wide as it says. -/
def limbSum : List (UInt64 × ℕ) → ℕ
  | [] => 0
  | (limb, width) :: limbs => limb.toNat + 2 ^ width * limbSum limbs

/-- The weight of a limb is two to the power of the widths below it. -/
lemma limbSum_ofFn {m : ℕ} (x : Fin m → UInt64) (width : Fin m → ℕ) (offset : ℕ → ℕ)
    (hoffset : ∀ i : Fin m, offset (i.val + 1) = offset i.val + width i) :
    2 ^ offset 0 * limbSum (List.ofFn fun i => (x i, width i)) =
      ∑ i, (x i).toNat * 2 ^ offset i.val := by
  induction m generalizing offset with
  | zero => simp [limbSum]
  | succ m ih =>
    have hfirst : offset 1 = offset 0 + width 0 := hoffset 0
    have hrest := ih (fun i => x i.succ) (fun i => width i.succ) (fun i => offset (i + 1))
      fun i => hoffset i.succ
    rw [List.ofFn_succ, limbSum, mul_add, ← mul_assoc, ← pow_add, ← hfirst, Fin.sum_univ_succ]
    exact congrArg₂ (· + ·) (mul_comm _ _) hrest

/-- The bytes of the low part of a number, and those of the rest. -/
lemma mod_add_mul_mod (x y k m : ℕ) :
    x % 256 ^ k + 256 ^ k * ((x / 256 ^ k + y) % 256 ^ m) = (x + 256 ^ k * y) % 256 ^ (k + m) := by
  rw [pow_add, Nat.mod_mul, Nat.add_mul_mod_self_left, Nat.add_mul_div_left _ _ (by positivity)]

section pack

variable {waiting limb : UInt64} {bits width : ℕ} (hwaiting : waiting.toNat < 2 ^ bits) (hbits : bits < 8)
include hwaiting hbits

/-- The last limb may be wider than it says, as its bits above the last byte are not written. -/
lemma toNat_pack_last (hwidth : width < 56) : toNat (pack waiting bits [(limb, width)]) =
    (waiting.toNat + 2 ^ bits * limb.toNat) % 256 ^ ((bits + width) / 8 + 1) := by
  have hwhole : (bits + width) / 8 < 8 := by omega
  have hdvd : (256 : ℕ) ^ ((bits + width) / 8 + 1) ∣ 2 ^ 64 := pow_dvd_pow 256 (Nat.succ_le_of_lt hwhole)
  have hword := toNat_or_shiftLeft (x := limb) hwaiting (by omega)
  simp only [pack, toNat_ofWord_append, toNat_cons, toNat_nil, UInt64.toNat_toUInt8,
    toNat_shiftRight_bytes _ hwhole, mul_zero, add_zero]
  rw [← Nat.mod_mul, ← pow_succ, hword, Nat.mod_mod_of_dvd _ hdvd]

/-- The bytes have the bits that wait and the limbs above them, as far as there are bytes. -/
theorem toNat_pack {limbs : List (UInt64 × ℕ)} (hwidth : ∀ l ∈ limbs, l.2 < 56)
    (hdigit : ∀ l ∈ limbs.dropLast, l.1.toNat < 2 ^ l.2) :
    toNat (pack waiting bits limbs) = (waiting.toNat + 2 ^ bits * limbSum limbs) %
      256 ^ ((bits + totalWidth limbs) / 8 + 1) := by
  induction limbs generalizing waiting bits with
  | nil =>
    have hone : bits / 8 + 1 = 1 := by omega
    simp [pack, limbSum, totalWidth, hone]
  | cons l limbs ih =>
    obtain ⟨limb, width⟩ := l
    obtain ⟨hlt, hwidth⟩ := List.forall_mem_cons.mp hwidth
    have hlt : width < 56 := hlt
    cases limbs with
    | nil => exact toNat_pack_last hwaiting hbits hlt
    | cons m limbs =>
      obtain ⟨hlimb, hdigit⟩ := List.forall_mem_cons.mp hdigit
      -- `k` whole bytes are written, and `r` bits wait for the next limb
      obtain ⟨k, r, hk, hr, hkr⟩ : ∃ k r, (bits + width) / 8 = k ∧ (bits + width) % 8 = r ∧
        bits + width = 8 * k + r := ⟨_, _, rfl, rfl, (Nat.div_add_mod _ 8).symm⟩
      have hpow : (2 : ℕ) ^ (bits + width) = 256 ^ k * 2 ^ r := by
        rw [hkr, pow_add, pow_mul]
        rfl
      have htotal : totalWidth ((limb, width) :: m :: limbs) = width + totalWidth (m :: limbs) := rfl
      have hlength : (bits + totalWidth ((limb, width) :: m :: limbs)) / 8 + 1 =
          k + ((r + totalWidth (m :: limbs)) / 8 + 1) := by
        omega
      have hsum : limbSum ((limb, width) :: m :: limbs) = limb.toNat + 2 ^ width * limbSum (m :: limbs) := rfl
      have hvalue : waiting.toNat + 2 ^ bits * limbSum ((limb, width) :: m :: limbs) =
          waiting.toNat + 2 ^ bits * limb.toNat + 256 ^ k * (2 ^ r * limbSum (m :: limbs)) := by
        rw [hsum, mul_add, ← mul_assoc, ← pow_add, hpow, mul_assoc, add_assoc]
      obtain ⟨hword, hrest⟩ := toNat_or_digit (x := limb) hwaiting hlimb (by omega) (by omega)
      have hshift := toNat_shiftRight_bytes (waiting ||| limb <<< UInt64.ofNat bits) (by omega : k < 8)
      have hwaiting' : ((waiting ||| limb <<< UInt64.ofNat bits) >>> UInt64.ofNat (8 * k)).toNat < 2 ^ r := by
        rw [hshift, hword]
        exact Nat.div_lt_of_lt_mul (hpow ▸ hrest)
      rw [pack, hk, hr, toNat_ofWord_append, ih hwaiting' (by omega) hwidth hdigit, hshift,
        mod_add_mul_mod, hword, hvalue, hlength]

end pack

end ByteString

namespace Bytes

variable {n : ℕ}

/-- A word has the digits of its bytes. -/
theorem toNat_load (b : Bytes n) {place count : ℕ} (h : place + count ≤ n) (hcount : count ≤ 8) :
    (b.load place count h).toNat = b.toNat / 256 ^ place % 256 ^ count := by
  induction count with
  | zero => simp [load, Nat.mod_one]
  | succ count ih =>
    have hload : b.load place (count + 1) h = b.load place count (by omega) |||
        b[place + count].toUInt64 <<< UInt64.ofNat (8 * count) := by
      rw [load, Fin.foldl_succ_last]
      rfl
    have hpow : (256 : ℕ) ^ count = 2 ^ (8 * count) := (pow_mul 2 8 count).symm
    have hword := ih (by omega) (by omega)
    have hlt : (b.load place count (by omega)).toNat < 2 ^ (8 * count) := by
      rw [hword, ← hpow]
      exact Nat.mod_lt _ (by positivity)
    have hbyte : b[place + count].toUInt64.toNat = b.toNat / 256 ^ place / 256 ^ count % 256 := by
      rw [UInt8.toNat_toUInt64, toNat_getElem, pow_add, Nat.div_div_eq_div_mul]
    have hdigit : b[place + count].toUInt64.toNat < 2 ^ 8 := b[place + count].toNat_lt
    obtain ⟨hor, -⟩ := toNat_or_digit hlt hdigit (by omega) (by omega)
    rw [hload, hor, hword, hbyte, ← hpow, ← Nat.mod_mul, ← pow_succ]

/-- Limbs are packed without a loss. -/
theorem toNat_pack {limbs : List (UInt64 × ℕ)} (h : ByteString.totalWidth limbs / 8 + 1 = n)
    (hwidth : ∀ l ∈ limbs, l.2 < 56) (hdigit : ∀ l ∈ limbs.dropLast, l.1.toNat < 2 ^ l.2) :
    (pack limbs h).toNat = ByteString.limbSum limbs % 256 ^ n := by
  have hzero : (0 : UInt64).toNat < 2 ^ 0 := by decide
  have hpack := ByteString.toNat_pack hzero (by decide) hwidth hdigit
  have hlist : (pack limbs h).toNat = ByteString.toNat (ByteString.pack 0 0 limbs) := rfl
  rw [zero_add, h] at hpack
  rw [hlist, hpack]
  simp

end Bytes
end Edwards25519
