import Edwards25519.Bytes.Lemmas
import Edwards25519.Scalar.Order
import Mathlib.Tactic.Linarith

/-! Bytes as digits of a number. Masks cut bits out of it, and the first and the last of 32 bytes can be
changed on their own. -/
namespace Edwards25519

/-- A statement about all bytes is one about the numbers below 256. -/
lemma forall_byte {p : UInt8 → Prop} (h : ∀ i : Fin 256, p (UInt8.ofNat i)) (a : UInt8) : p a := by
  have ha := h ⟨a.toNat, a.toNat_lt⟩
  rwa [UInt8.ofNat_toNat] at ha

/-- The mask of `n` bits from bit `i` on. -/
lemma land_mask (x i n : ℕ) : x &&& (2 ^ n - 1) * 2 ^ i = x / 2 ^ i % 2 ^ n * 2 ^ i := by
  have hhigh : (x &&& (2 ^ n - 1) * 2 ^ i) / 2 ^ i = x / 2 ^ i % 2 ^ n := by
    rw [Nat.and_div_two_pow, Nat.mul_div_cancel _ (Nat.two_pow_pos i),
      Nat.and_two_pow_sub_one_eq_mod]
  have hlow : (x &&& (2 ^ n - 1) * 2 ^ i) % 2 ^ i = 0 := by
    rw [Nat.and_mod_two_pow, Nat.mul_mod_left, Nat.and_zero]
  rw [← hhigh, Nat.div_mul_cancel (Nat.dvd_of_mod_eq_zero hlow)]

namespace ByteString

lemma toNat_set (s : ByteString) {i : ℕ} (hi : i < s.length) (b : UInt8) :
    toNat (s.set i b) + s[i].toNat * 256 ^ i = toNat s + b.toNat * 256 ^ i := by
  induction s generalizing i with
  | nil => exact absurd hi (Nat.not_lt_zero i)
  | cons c s ih =>
    cases i with
    | zero => simp [add_comm, add_left_comm]
    | succ i =>
      have h := ih (Nat.lt_of_succ_lt_succ hi)
      simp only [List.set_cons_succ, toNat_cons, List.getElem_cons_succ, pow_succ]
      linarith

/-- The bytes are the digits in base 256. -/
lemma toNat_getElem (s : ByteString) {i : ℕ} (hi : i < s.length) :
    s[i].toNat = toNat s / 256 ^ i % 256 := by
  induction s generalizing i with
  | nil => exact absurd hi (Nat.not_lt_zero i)
  | cons c s ih =>
    have hc := c.toNat_lt
    cases i with
    | zero =>
      simp only [List.getElem_cons_zero, toNat_cons, pow_zero]
      omega
    | succ i =>
      rw [List.getElem_cons_succ, ih (Nat.lt_of_succ_lt_succ hi), toNat_cons, pow_succ',
        ← Nat.div_div_eq_div_mul]
      congr 2
      omega

end ByteString

namespace Bytes

lemma toNat_set {n : ℕ} (s : Bytes n) {i : ℕ} (hi : i < n) (b : UInt8) :
    toNat (s.set i b) + s[i].toNat * 256 ^ i = toNat s + b.toNat * 256 ^ i := by
  have hset : (s.set i b).toList = s.toList.set i b := Vector.toList_set hi
  have hlength : i < s.toList.length := by simpa using hi
  have hget : s[i] = s.toList[i] := by simp
  rw [toNat, hset, hget]
  exact ByteString.toNat_set s.toList hlength b

lemma toNat_getElem {n : ℕ} (s : Bytes n) {i : ℕ} (hi : i < n) :
    s[i].toNat = toNat s / 256 ^ i % 256 := by
  have hlength : i < s.toList.length := by simpa using hi
  have hget : s[i] = s.toList[i] := by simp
  rw [hget]
  exact ByteString.toNat_getElem s.toList hlength

lemma ofList?_toList {n : ℕ} (b : Bytes n) : ofList? n b.toList = some b := by
  rw [ofList?, dif_pos (by simp)]
  rfl

/-- Adding the same string twice changes nothing. -/
lemma xor_xor_cancel {n : ℕ} (a b : Bytes n) : xor (xor a b) b = a := by
  ext i hi
  rw [xor, xor, Vector.getElem_zipWith, Vector.getElem_zipWith, UInt8.xor_assoc, UInt8.xor_self,
    UInt8.xor_zero]

variable (b : Bytes 32)

theorem toNat_mapFirst (f : UInt8 → UInt8) :
    toNat (b.mapFirst f) + b.first.toNat = b.toNat + (f b.first).toNat := by
  have h := toNat_set b (i := 0) (by decide) (f b[0])
  rwa [pow_zero, mul_one, mul_one] at h

theorem toNat_mapLast (f : UInt8 → UInt8) :
    toNat (b.mapLast f) + b.last.toNat * 256 ^ 31 = b.toNat + (f b.last).toNat * 256 ^ 31 :=
  toNat_set b (i := 31) (by decide) (f b[31])

/-- The first byte has the lowest bits. -/
theorem toNat_first : b.first.toNat = b.toNat % 256 := by
  have h := toNat_getElem b (i := 0) (by decide)
  rwa [pow_zero, Nat.div_one] at h

/-- The last byte has the highest bits. -/
theorem toNat_last : b.last.toNat = b.toNat / 256 ^ 31 := by
  have h := toNat_getElem b (i := 31) (by decide)
  have hlt := b.toNat_lt
  rwa [Nat.mod_eq_of_lt (by omega)] at h

lemma highBit_iff (x : UInt8) : (x >>> 7 == 1) = true ↔ 128 ≤ x.toNat := by
  have hx := x.toNat_lt
  rw [beq_iff_eq, ← UInt8.toNat_inj, UInt8.toNat_shiftRight]
  change x.toNat >>> 7 = 1 ↔ _
  omega

theorem topBit_iff : b.topBit = true ↔ 2 ^ 255 ≤ b.toNat := by
  rw [topBit, highBit_iff, toNat_last]
  omega

end Bytes

namespace Scalar

lemma isCanonical_iff {s : Bytes 32} : isCanonical s = true ↔ s.toNat < groupOrder := by
  have horder : (Bytes.ofNat 32 groupOrder).toNat = groupOrder :=
    (Bytes.toNat_ofNat 32 groupOrder).trans (Nat.mod_eq_of_lt (by decide))
  rw [isCanonical, Bytes.below_iff_toNat_lt, horder]

lemma clampFirst_toNat (x : UInt8) : (x &&& 248).toNat = x.toNat - x.toNat % 8 := by
  have hx := x.toNat_lt
  have hmask : (x &&& 248).toNat = x.toNat / 2 ^ 3 % 2 ^ 5 * 2 ^ 3 := land_mask x.toNat 3 5
  omega

lemma clampLast_toNat (x : UInt8) : (x &&& 127 ||| 64).toNat = 64 + x.toNat % 64 := by
  have hmask : (x &&& 127).toNat = x.toNat % 2 ^ 7 := Nat.and_two_pow_sub_one_eq_mod _ 7
  have hlow := Nat.mod_lt x.toNat (Nat.two_pow_pos 6)
  have hor := Nat.two_pow_add_eq_or_of_lt hlow 1
  have hsplit : x.toNat % 2 ^ 7 = x.toNat % 2 ^ 6 ∨
      x.toNat % 2 ^ 7 = 2 ^ 6 * 1 + x.toNat % 2 ^ 6 := by
    omega
  rw [UInt8.toNat_or, hmask]
  change x.toNat % 2 ^ 7 ||| 2 ^ 6 * 1 = 2 ^ 6 * 1 + _
  rw [hor]
  rcases hsplit with h | h
  · rw [h, Nat.or_comm]
  · rw [h, hor, Nat.or_comm, ← Nat.or_assoc, Nat.or_self]

/-- A clamped scalar is a multiple of 8 with bit 254 set and bit 255 clear. -/
theorem clamp_bounds (b : Bytes 32) :
    8 ∣ (clamp b).toNat ∧ 2 ^ 254 ≤ (clamp b).toNat ∧ (clamp b).toNat < 2 ^ 255 := by
  have hfirst := Bytes.toNat_mapFirst b (· &&& 248)
  have hlast := Bytes.toNat_mapLast (b.mapFirst (· &&& 248)) (· &&& 127 ||| 64)
  have hb := b.toNat_lt
  have hlow := Bytes.toNat_first b
  have hhigh := Bytes.toNat_last (b.mapFirst (· &&& 248))
  rw [clampFirst_toNat] at hfirst
  rw [clampLast_toNat] at hlast
  rw [clamp]
  omega

end Scalar
end Edwards25519
