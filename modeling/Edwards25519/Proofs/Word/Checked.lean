import Edwards25519.LimbArithmetic
import Mathlib.Data.Int.Order.Basic
import Mathlib.Tactic.Ring

/-! Arithmetic on integers that records whether every result fits in a machine word. An algorithm on
limbs that runs on words is compared, step by step, with its run on these integers: as long as every
result fits, the words stand for the integers. -/
namespace Edwards25519

/-- The range of a signed word of `w` bits. -/
def InWord (w : ℕ) (n : ℤ) : Prop := -2 ^ (w - 1) ≤ n ∧ n < 2 ^ (w - 1)

theorem InWord.bmod_eq {w : ℕ} {n : ℤ} (hw : w ≠ 0) (h : InWord w n) : n.bmod (2 ^ w) = n := by
  obtain ⟨k, rfl⟩ := Nat.exists_eq_succ_of_ne_zero hw
  obtain ⟨hl, hu⟩ := h
  rw [Nat.succ_eq_add_one, Nat.add_sub_cancel] at hl hu
  apply Int.bmod_eq_of_le_mul_two <;> · push_cast [pow_succ]; omega

/-- An exact integer, and whether it and all it was computed from fit in signed words of `w` bits. -/
structure Checked (w : ℕ) where
  value : ℤ
  fits : Prop

namespace Checked

variable {w : ℕ}

def ofInt (n : ℤ) : Checked w := ⟨n, InWord w n⟩

instance : LimbArithmetic (Checked w) where
  add a b := ⟨a.value + b.value, a.fits ∧ b.fits ∧ InWord w (a.value + b.value)⟩
  sub a b := ⟨a.value - b.value, a.fits ∧ b.fits ∧ InWord w (a.value - b.value)⟩
  mul a b := ⟨a.value * b.value, a.fits ∧ b.fits ∧ InWord w (a.value * b.value)⟩
  intCast := ofInt
  shiftLeft a n := ⟨a.value <<< n, a.fits ∧ n < w ∧ InWord w (a.value <<< n)⟩
  shiftRight a n := ⟨a.value >>> n, a.fits ∧ n < w⟩

end Checked

/-- A word of 64 bits stands for the checked integer, provided that it fits. -/
abbrev Stands (c : Checked 64) (x : Int64) : Prop := c.fits → x.toInt = c.value

lemma shiftLeft_int (x : ℤ) (n : ℕ) : LimbArithmetic.shiftLeft x n = x * 2 ^ n :=
  Int.shiftLeft_eq x n

lemma shiftRight_int (x : ℤ) (n : ℕ) : LimbArithmetic.shiftRight x n = x / 2 ^ n :=
  Int.shiftRight_eq_div_pow x n

lemma shiftRightRounded_int (x : ℤ) (n : ℕ) :
    shiftRightRounded x n = (x + 2 ^ (n - 1)) / 2 ^ n := by
  have hhalf : ((1 <<< (n - 1) : ℕ) : ℤ) = 2 ^ (n - 1) := by rw [Nat.one_shiftLeft]; norm_cast
  rw [← hhalf]
  exact shiftRight_int _ n

namespace LimbArithmetic

/-- A relation between two carriers that all operations keep. -/
structure Simulation {α β : Type} [LimbArithmetic α] [LimbArithmetic β] (R : α → β → Prop) :
    Prop where
  add : ∀ {a b x y}, R a x → R b y → R (a + b) (x + y)
  sub : ∀ {a b x y}, R a x → R b y → R (a - b) (x - y)
  mul : ∀ {a b x y}, R a x → R b y → R (a * b) (x * y)
  intCast : ∀ n : ℤ, R (n : α) (n : β)
  shiftLeft : ∀ {a x} (n : ℕ), R a x → R (LimbArithmetic.shiftLeft a n) (LimbArithmetic.shiftLeft x n)
  shiftRight : ∀ {a x} (n : ℕ), R a x →
    R (LimbArithmetic.shiftRight a n) (LimbArithmetic.shiftRight x n)

theorem Simulation.shiftRightRounded {α β : Type} [LimbArithmetic α] [LimbArithmetic β]
    {R : α → β → Prop} (hR : Simulation R) {a : α} {x : β} (n : ℕ) (h : R a x) :
    R (shiftRightRounded a n) (shiftRightRounded x n) :=
  hR.shiftRight n (hR.add h (hR.intCast _))

/-- Checked integers follow the exact ones. -/
theorem simulation_value {w : ℕ} : Simulation fun (c : Checked w) (n : ℤ) => c.value = n where
  add := by rintro a b x y rfl rfl; rfl
  sub := by rintro a b x y rfl rfl; rfl
  mul := by rintro a b x y rfl rfl; rfl
  intCast _ := rfl
  shiftLeft := by rintro a x n rfl; rfl
  shiftRight := by rintro a x n rfl; rfl

/-- What two's complement words of `w` bits do to the integers that they stand for. -/
structure WordArithmetic (w : ℕ) {α : Type} [LimbArithmetic α] (toInt : α → ℤ) : Prop where
  toInt_add : ∀ a b, toInt (a + b) = (toInt a + toInt b).bmod (2 ^ w)
  toInt_sub : ∀ a b, toInt (a - b) = (toInt a - toInt b).bmod (2 ^ w)
  toInt_mul : ∀ a b, toInt (a * b) = (toInt a * toInt b).bmod (2 ^ w)
  toInt_intCast : ∀ n : ℤ, toInt (n : α) = n.bmod (2 ^ w)
  toInt_shiftLeft : ∀ a n, n < w →
    toInt (LimbArithmetic.shiftLeft a n) = (toInt a <<< n).bmod (2 ^ w)
  toInt_shiftRight : ∀ a n, n < w → toInt (LimbArithmetic.shiftRight a n) = toInt a >>> n

/-- Words stand for checked integers, as long as these fit. -/
theorem WordArithmetic.simulation {w : ℕ} {α : Type} [LimbArithmetic α] {toInt : α → ℤ}
    (hw : w ≠ 0) (h : WordArithmetic w toInt) :
    Simulation fun (c : Checked w) (x : α) => c.fits → toInt x = c.value where
  add := by
    rintro a b x y ha hb ⟨hfa, hfb, hin⟩
    rw [h.toInt_add, ha hfa, hb hfb]
    exact InWord.bmod_eq hw hin
  sub := by
    rintro a b x y ha hb ⟨hfa, hfb, hin⟩
    rw [h.toInt_sub, ha hfa, hb hfb]
    exact InWord.bmod_eq hw hin
  mul := by
    rintro a b x y ha hb ⟨hfa, hfb, hin⟩
    rw [h.toInt_mul, ha hfa, hb hfb]
    exact InWord.bmod_eq hw hin
  intCast n hin := (h.toInt_intCast n).trans (InWord.bmod_eq hw hin)
  shiftLeft := by
    rintro a x n ha ⟨hfa, hn, hin⟩
    rw [h.toInt_shiftLeft x n hn, ha hfa]
    exact InWord.bmod_eq hw hin
  shiftRight := by
    rintro a x n ha ⟨hfa, hn⟩
    rw [h.toInt_shiftRight x n hn, ha hfa]
    rfl

lemma toInt_shiftLeft_bitVec {w : ℕ} (x : BitVec w) (n : ℕ) :
    (x <<< n).toInt = (x.toInt <<< n).bmod (2 ^ w) := by
  rw [BitVec.toInt_shiftLeft, BitVec.toInt_eq_toNat_bmod, Int.shiftLeft_eq, Nat.shiftLeft_eq,
    Int.bmod_mul_bmod, Nat.cast_mul, Nat.cast_pow, Nat.cast_ofNat]

theorem wordArithmetic_int64 : WordArithmetic 64 Int64.toInt where
  toInt_add := Int64.toInt_add
  toInt_sub := Int64.toInt_sub
  toInt_mul := Int64.toInt_mul
  toInt_intCast _ := Int64.toInt_ofInt
  toInt_shiftLeft a n hn := by
    have hamount : ∀ m : Fin 64, ((Int64.ofNat m).toBitVec.smod 64).toNat = m := by decide
    change (a <<< Int64.ofNat n).toInt = _
    rw [← Int64.toInt_toBitVec, Int64.toBitVec_shiftLeft, BitVec.shiftLeft_eq', hamount ⟨n, hn⟩]
    exact toInt_shiftLeft_bitVec _ n
  toInt_shiftRight a n hn := by
    have hamount : ∀ m : Fin 64, ((Int64.ofNat m).toBitVec.smod 64).toNat = m := by decide
    change (a >>> Int64.ofNat n).toInt = _
    rw [← Int64.toInt_toBitVec, Int64.toBitVec_shiftRight, BitVec.toInt_sshiftRight',
      hamount ⟨n, hn⟩, Int64.toInt_toBitVec]

theorem wordArithmetic_int8 : WordArithmetic 8 Int8.toInt where
  toInt_add := Int8.toInt_add
  toInt_sub := Int8.toInt_sub
  toInt_mul := Int8.toInt_mul
  toInt_intCast _ := Int8.toInt_ofInt
  toInt_shiftLeft a n hn := by
    have hamount : ∀ m : Fin 8, ((Int8.ofNat m).toBitVec.smod 8).toNat = m := by decide
    change (a <<< Int8.ofNat n).toInt = _
    rw [← Int8.toInt_toBitVec, Int8.toBitVec_shiftLeft, BitVec.shiftLeft_eq', hamount ⟨n, hn⟩]
    exact toInt_shiftLeft_bitVec _ n
  toInt_shiftRight a n hn := by
    have hamount : ∀ m : Fin 8, ((Int8.ofNat m).toBitVec.smod 8).toNat = m := by decide
    change (a >>> Int8.ofNat n).toInt = _
    rw [← Int8.toInt_toBitVec, Int8.toBitVec_shiftRight, BitVec.toInt_sshiftRight',
      hamount ⟨n, hn⟩, Int8.toInt_toBitVec]

theorem simulation_int64 : Simulation Stands := wordArithmetic_int64.simulation (by decide)

theorem simulation_int8 :
    Simulation fun (c : Checked 8) (x : Int8) => c.fits → x.toInt = c.value :=
  wordArithmetic_int8.simulation (by decide)

end LimbArithmetic
end Edwards25519
