import Edwards25519.Bytes
import Mathlib.Tactic.Ring

/-! Byte strings of one length and the numbers below the matching power of 256 determine each other. -/
namespace Edwards25519

namespace ByteString

theorem toNat_lt (s : ByteString) : toNat s < 256 ^ s.length := by
  induction s with
  | nil => simp
  | cons b s ih =>
    have hb := b.toNat_lt
    simp only [toNat_cons, List.length_cons, Nat.pow_succ]
    omega

theorem toNat_append (s t : ByteString) :
    toNat (s ++ t) = toNat s + 256 ^ s.length * toNat t := by
  induction s with
  | nil => simp
  | cons b s ih =>
    simp only [List.cons_append, toNat_cons, ih, List.length_cons, Nat.pow_succ]
    rw [Nat.mul_add, ← Nat.mul_assoc, Nat.mul_comm 256 (256 ^ s.length), Nat.add_assoc]

theorem toNat_injective {s t : ByteString} (hlen : s.length = t.length)
    (h : toNat s = toNat t) : s = t := by
  induction s generalizing t with
  | nil => exact (List.length_eq_zero_iff.1 hlen.symm).symm
  | cons b s ih =>
    cases t with
    | nil => simp at hlen
    | cons c t =>
      have hb := b.toNat_lt
      have hc := c.toNat_lt
      simp only [toNat_cons] at h
      have hbc : b = c := UInt8.toNat_inj.1 (by omega)
      rw [hbc, ih (by simpa using hlen) (by omega)]

theorem below_iff {s t : ByteString} (hlen : s.length = t.length) :
    below s t = true ↔ toNat s.reverse < toNat t.reverse := by
  induction s generalizing t with
  | nil =>
    obtain rfl := List.length_eq_zero_iff.1 hlen.symm
    simp [below]
  | cons a s ih =>
    cases t with
    | nil => simp at hlen
    | cons b t =>
      have hlength : s.length = t.length := by simpa using hlen
      have hs := toNat_lt s.reverse
      have ht := toNat_lt t.reverse
      simp only [below, List.reverse_cons, toNat_append, List.length_reverse, toNat_cons, toNat_nil,
        hlength, Nat.mul_zero, Nat.add_zero] at hs ht ⊢
      -- the byte in front outweighs all those after it
      by_cases hab : a = b
      · rw [if_pos hab, hab, Nat.add_lt_add_iff_right]
        exact ih hlength
      · have hne : a.toNat ≠ b.toNat := mt UInt8.toNat_inj.1 hab
        rw [if_neg hab, decide_eq_true_iff, UInt8.lt_iff_toNat_lt]
        constructor
        · intro hlt
          have hmul : 256 ^ t.length * (a.toNat + 1) ≤ 256 ^ t.length * b.toNat :=
            Nat.mul_le_mul_left _ hlt
          rw [Nat.mul_add] at hmul
          omega
        · intro hlt
          by_contra hge
          have hmul : 256 ^ t.length * (b.toNat + 1) ≤ 256 ^ t.length * a.toNat :=
            Nat.mul_le_mul_left _ (by omega)
          rw [Nat.mul_add] at hmul
          omega

end ByteString

namespace Bytes

theorem toNat_lt {n : Nat} (b : Bytes n) : toNat b < 256 ^ n := by
  simpa [toNat] using ByteString.toNat_lt b.toList

theorem below_iff_toNat_lt {n : Nat} {a b : Bytes n} : a.below b = true ↔ a.toNat < b.toNat := by
  rw [below, ByteString.below_iff (by simp), List.reverse_reverse, List.reverse_reverse]
  rfl

theorem toNat_injective {n : Nat} {a b : Bytes n} (h : toNat a = toNat b) : a = b :=
  Vector.toList_inj.1 (ByteString.toNat_injective (by simp) h)

private theorem toNat_ofFn (n value : Nat) :
    ByteString.toNat (List.ofFn fun i : Fin n => UInt8.ofNat (value >>> (8 * i.val)))
      = value % 256 ^ n := by
  induction n generalizing value with
  | zero => simp [Nat.mod_one]
  | succ n ih =>
    have step : ∀ i : Fin n, value >>> (8 * (i.val + 1)) = (value / 256) >>> (8 * i.val) := by
      intro i
      rw [Nat.mul_add, Nat.add_comm, Nat.shiftRight_add, Nat.shiftRight_eq_div_pow value]
    simp only [List.ofFn_succ, ByteString.toNat_cons, Fin.val_succ, step, ih]
    rw [Nat.pow_succ, Nat.mul_comm (256 ^ n), Nat.mod_mul]
    simp

@[simp] theorem toNat_ofNat (n value : Nat) : toNat (ofNat n value) = value % 256 ^ n := by
  rw [toNat, ofNat, Vector.toList_ofFn, toNat_ofFn]

@[simp] theorem ofNat_toNat {n : Nat} (b : Bytes n) : ofNat n (toNat b) = b :=
  toNat_injective (by rw [toNat_ofNat, Nat.mod_eq_of_lt (toNat_lt b)])

theorem toNat_ofPrefix (n : Nat) (s : ByteString) :
    toNat (ofPrefix n s) = ByteString.toNat (s.take n) := by
  have h := ByteString.toNat_lt (s.take n)
  have hpow : 256 ^ (s.take n).length ≤ 256 ^ n :=
    Nat.pow_le_pow_right (by decide) (by simp)
  rw [ofPrefix, toNat_ofNat, Nat.mod_eq_of_lt (Nat.lt_of_lt_of_le h hpow)]

@[simp] theorem ofPrefix_toList_append {n : Nat} (b : Bytes n) (s : ByteString) :
    ofPrefix n (b.toList ++ s) = b :=
  toNat_injective (by rw [toNat_ofPrefix, List.take_left' (by simp), toNat])

theorem toList_ofPrefix {n : Nat} {s : ByteString} (h : n ≤ s.length) :
    (ofPrefix n s).toList = s.take n :=
  ByteString.toNat_injective (by simp [Nat.min_eq_left h]) (toNat_ofPrefix n s)

@[simp] theorem toNat_widen (b : Bytes 32) : toNat (widen b) = toNat b := by
  have zeros : ∀ n, ByteString.toNat (List.replicate n (0 : UInt8)) = 0 := by
    intro n
    induction n with
    | zero => rfl
    | succ n ih => simp [List.replicate_succ, ih]
  show ByteString.toNat (b ++ Vector.replicate 32 (0 : UInt8)).toList = ByteString.toNat b.toList
  rw [Vector.toList_append, ByteString.toNat_append, Vector.toList_replicate, zeros]
  simp

end Bytes
end Edwards25519
