import Edwards25519.Proofs.Word.Checked
import Mathlib.Algebra.Order.Ring.Int
import Mathlib.Tactic.Linarith

/-! Interval arithmetic on checked integers. Run on ranges, an algorithm computes bounds for all its
results, and whether every one of them fits in a word. -/
namespace Edwards25519

/-- The integers from `low` to `high`, and whether the ranges that led here fit in signed words of `w`
bits. -/
structure Range (w : ℕ) where
  low : ℤ
  high : ℤ
  ok : Bool
  deriving DecidableEq

namespace Range

variable {w : ℕ}

/-- The range, if all of it fits in a word. -/
def checked (low high : ℤ) (ok : Bool) : Range w :=
  ⟨low, high, ok && decide (-2 ^ (w - 1) ≤ low) && decide (high < 2 ^ (w - 1))⟩

def ofBound (n : ℤ) : Range w := checked (-n) n true

instance : LimbArithmetic (Range w) where
  add a b := checked (a.low + b.low) (a.high + b.high) (a.ok && b.ok)
  sub a b := checked (a.low - b.high) (a.high - b.low) (a.ok && b.ok)
  mul a b := checked
    (min (min (a.low * b.low) (a.low * b.high)) (min (a.high * b.low) (a.high * b.high)))
    (max (max (a.low * b.low) (a.low * b.high)) (max (a.high * b.low) (a.high * b.high)))
    (a.ok && b.ok)
  intCast n := checked n n true
  shiftLeft a n := checked (a.low <<< n) (a.high <<< n) (a.ok && decide (n < w))
  shiftRight a n := ⟨a.low >>> n, a.high >>> n, a.ok && decide (n < w)⟩

/-- A checked integer that fits and lies in the range, provided that the range fits. -/
def Holds (c : Checked w) (r : Range w) : Prop :=
  r.ok = true → c.fits ∧ r.low ≤ c.value ∧ c.value ≤ r.high

lemma holds_checked {low high : ℤ} {ok : Bool} {c : Checked w}
    (h : ok = true → (InWord w c.value → c.fits) ∧ low ≤ c.value ∧ c.value ≤ high) :
    Holds c (checked low high ok) := by
  intro hok
  simp only [checked, Bool.and_eq_true, decide_eq_true_eq] at hok
  obtain ⟨⟨hok, hlow⟩, hhigh⟩ := hok
  obtain ⟨hfits, hl, hu⟩ := h hok
  exact ⟨hfits ⟨hlow.trans hl, lt_of_le_of_lt hu hhigh⟩, hl, hu⟩

/-- A product of two bounded factors lies between the products of their bounds. -/
lemma mul_bounds {a b l h l' h' : ℤ} (hal : l ≤ a) (hah : a ≤ h) (hbl : l' ≤ b) (hbh : b ≤ h') :
    min (min (l * l') (l * h')) (min (h * l') (h * h')) ≤ a * b ∧
      a * b ≤ max (max (l * l') (l * h')) (max (h * l') (h * h')) := by
  have hend : ∀ c, min (c * l') (c * h') ≤ c * b ∧ c * b ≤ max (c * l') (c * h') := by
    intro c
    rcases le_total 0 c with hc | hc
    · exact ⟨(min_le_left _ _).trans (mul_le_mul_of_nonneg_left hbl hc),
        (mul_le_mul_of_nonneg_left hbh hc).trans (le_max_right _ _)⟩
    · exact ⟨(min_le_right _ _).trans (mul_le_mul_of_nonpos_left hbh hc),
        (mul_le_mul_of_nonpos_left hbl hc).trans (le_max_left _ _)⟩
  rcases le_total 0 b with hb | hb
  · exact ⟨(min_le_left _ _).trans ((hend l).1.trans (mul_le_mul_of_nonneg_right hal hb)),
      (mul_le_mul_of_nonneg_right hah hb).trans ((hend h).2.trans (le_max_right _ _))⟩
  · exact ⟨(min_le_right _ _).trans ((hend h).1.trans (mul_le_mul_of_nonpos_right hah hb)),
      (mul_le_mul_of_nonpos_right hal hb).trans ((hend l).2.trans (le_max_left _ _))⟩

lemma shiftRight_mono {a b : ℤ} (h : a ≤ b) (n : ℕ) : a >>> n ≤ b >>> n := by
  rw [Int.shiftRight_eq_div_pow, Int.shiftRight_eq_div_pow]
  exact Int.ediv_le_ediv (by positivity) h

lemma shiftLeft_mono {a b : ℤ} (h : a ≤ b) (n : ℕ) : a <<< n ≤ b <<< n := by
  rw [Int.shiftLeft_eq, Int.shiftLeft_eq]
  exact mul_le_mul_of_nonneg_right h (by positivity)

/-- Interval arithmetic is sound. -/
theorem simulation : LimbArithmetic.Simulation (@Holds w) where
  add := by
    intro a b x y ha hb
    refine holds_checked fun hok => ?_
    obtain ⟨hx, hy⟩ := Bool.and_eq_true_iff.mp hok
    obtain ⟨hfa, hla, hua⟩ := ha hx
    obtain ⟨hfb, hlb, hub⟩ := hb hy
    exact ⟨fun hin => ⟨hfa, hfb, hin⟩, add_le_add hla hlb, add_le_add hua hub⟩
  sub := by
    intro a b x y ha hb
    refine holds_checked fun hok => ?_
    obtain ⟨hx, hy⟩ := Bool.and_eq_true_iff.mp hok
    obtain ⟨hfa, hla, hua⟩ := ha hx
    obtain ⟨hfb, hlb, hub⟩ := hb hy
    exact ⟨fun hin => ⟨hfa, hfb, hin⟩, sub_le_sub hla hub, sub_le_sub hua hlb⟩
  mul := by
    intro a b x y ha hb
    refine holds_checked fun hok => ?_
    obtain ⟨hx, hy⟩ := Bool.and_eq_true_iff.mp hok
    obtain ⟨hfa, hla, hua⟩ := ha hx
    obtain ⟨hfb, hlb, hub⟩ := hb hy
    exact ⟨fun hin => ⟨hfa, hfb, hin⟩, mul_bounds hla hua hlb hub⟩
  intCast n := holds_checked fun _ => ⟨id, le_rfl, le_rfl⟩
  shiftLeft := by
    intro a x n ha
    refine holds_checked fun hok => ?_
    obtain ⟨hx, hn⟩ := Bool.and_eq_true_iff.mp hok
    obtain ⟨hfa, hla, hua⟩ := ha hx
    exact ⟨fun hin => ⟨hfa, of_decide_eq_true hn, hin⟩, shiftLeft_mono hla n,
      shiftLeft_mono hua n⟩
  shiftRight := by
    intro a x n ha hok
    obtain ⟨hx, hn⟩ := Bool.and_eq_true_iff.mp hok
    obtain ⟨hfa, hla, hua⟩ := ha hx
    exact ⟨⟨hfa, of_decide_eq_true hn⟩, shiftRight_mono hla n, shiftRight_mono hua n⟩

/-- What rounding down to a multiple of `2 ^ n` leaves over. -/
def remainder (r : Range w) (n : ℕ) : Range w :=
  checked 0 (2 ^ n - 1) (r.ok && (LimbArithmetic.shiftLeft (LimbArithmetic.shiftRight r n) n).ok)

/-- What rounding to the nearest multiple of `2 ^ n` leaves over. -/
def signedRemainder (r : Range w) (n : ℕ) : Range w :=
  checked (-2 ^ (n - 1)) (2 ^ (n - 1) - 1)
    (r.ok && (LimbArithmetic.shiftLeft (shiftRightRounded r n) n).ok)

/-- Interval arithmetic on its own loses that a number and its quotient belong together. -/
theorem holds_remainder {c : Checked w} {r : Range w} (h : Holds c r) (n : ℕ) :
    Holds (c - LimbArithmetic.shiftLeft (LimbArithmetic.shiftRight c n) n) (r.remainder n) := by
  refine holds_checked fun hok => ?_
  obtain ⟨hr, hq⟩ := Bool.and_eq_true_iff.mp hok
  have hfits := (simulation.shiftLeft n (simulation.shiftRight n h) hq).1
  have hvalue : (c - LimbArithmetic.shiftLeft (LimbArithmetic.shiftRight c n) n).value =
      c.value % 2 ^ n := by
    change c.value - LimbArithmetic.shiftLeft (LimbArithmetic.shiftRight c.value n) n = _
    rw [shiftLeft_int, shiftRight_int, mul_comm, ← Int.emod_def]
  have hpos : (0 : ℤ) < 2 ^ n := by positivity
  refine ⟨fun hin => ⟨(h hr).1, hfits, hin⟩, ?_, ?_⟩
  · rw [hvalue]
    exact Int.emod_nonneg _ hpos.ne'
  · rw [hvalue]
    exact Int.le_sub_one_of_lt (Int.emod_lt_of_pos _ hpos)

theorem holds_signedRemainder {c : Checked w} {r : Range w} (h : Holds c r) {n : ℕ} (hn : n ≠ 0) :
    Holds (c - LimbArithmetic.shiftLeft (shiftRightRounded c n) n) (r.signedRemainder n) := by
  refine holds_checked fun hok => ?_
  obtain ⟨hr, hq⟩ := Bool.and_eq_true_iff.mp hok
  have hfits := (simulation.shiftLeft n
    (simulation.shiftRight n (simulation.add h (simulation.intCast _))) hq).1
  obtain ⟨k, rfl⟩ := Nat.exists_eq_succ_of_ne_zero hn
  have hvalue : (c - LimbArithmetic.shiftLeft (shiftRightRounded c (k + 1)) (k + 1)).value =
      (c.value + 2 ^ k) % 2 ^ (k + 1) - 2 ^ k := by
    change c.value - LimbArithmetic.shiftLeft (shiftRightRounded c.value (k + 1)) (k + 1) = _
    rw [shiftLeft_int, shiftRightRounded_int, Int.emod_def, Nat.add_sub_cancel]
    ring
  have hpos : (0 : ℤ) < 2 ^ (k + 1) := by positivity
  have hlow := Int.emod_nonneg (c.value + 2 ^ k) hpos.ne'
  have hhigh := Int.emod_lt_of_pos (c.value + 2 ^ k) hpos
  refine ⟨fun hin => ⟨(h hr).1, hfits, hin⟩, ?_, ?_⟩
  · rw [hvalue]
    exact neg_le_sub_iff_le_add.mpr (le_add_of_nonneg_left hlow)
  · rw [hvalue]
    rw [pow_succ] at hhigh ⊢
    change _ ≤ (2 : ℤ) ^ k - 1
    omega

end Range
end Edwards25519
