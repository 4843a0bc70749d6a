import Edwards25519.Proofs.Field.Residue
import Mathlib.FieldTheory.Finite.Basic
import Mathlib.NumberTheory.LegendreSymbol.Basic

/-! Inverses and square roots of residues are powers. -/
namespace Edwards25519.Residue

open Coordinate

lemma square_eq (x : Residue) : square x = x ^ 2 := (pow_two x).symm

lemma squareTimes_eq (n : ℕ) (x : Residue) : squareTimes n x = x ^ 2 ^ n := by
  induction n generalizing x with
  | zero => exact (pow_one x).symm
  | succ n ih => rw [squareTimes, ih, square_eq, ← pow_mul, ← pow_succ']

/-- A power with all of `m` exponent bits set, shifted by `n` bits and filled up. -/
lemma squareTimes_mul (x : Residue) (m n : ℕ) :
    squareTimes n (x ^ (2 ^ m - 1)) * x ^ (2 ^ n - 1) = x ^ (2 ^ (m + n) - 1) := by
  have hm := Nat.one_le_two_pow (n := m)
  have hn := Nat.one_le_two_pow (n := n)
  rw [squareTimes_eq, ← pow_mul, ← pow_add, pow_add 2, Nat.sub_mul, one_mul]
  congr 1
  have hle : 2 ^ n ≤ 2 ^ m * 2 ^ n := Nat.le_mul_of_pos_left _ hm
  omega

theorem powEleven250_eq (x : Residue) : powEleven250 x = (x ^ 11, x ^ (2 ^ 250 - 1)) := by
  have h9 : x * squareTimes 2 (square x) = x ^ 9 := by
    rw [squareTimes_eq, square_eq]
    ring
  have h11 : square x * x ^ 9 = x ^ 11 := by
    rw [square_eq]
    ring
  have h5 : x ^ 9 * square (x ^ 11) = x ^ (2 ^ 5 - 1) := by
    rw [square_eq]
    ring
  unfold powEleven250
  simp only [h9, h11, h5, squareTimes_mul, Nat.reduceAdd]

theorem pow252_eq (x : Residue) : pow252 x = x ^ (2 ^ 252 - 3) := by
  have hexp : (2 ^ 250 - 1) * 2 ^ 2 + 1 = 2 ^ 252 - 3 := by decide
  rw [pow252, powEleven250_eq, squareTimes_eq, ← pow_mul, ← pow_succ, hexp]

theorem invert_eq_pow (x : Residue) : invert x = x ^ (fieldOrder - 2) := by
  have hexp : (2 ^ 250 - 1) * 2 ^ 5 + 11 = fieldOrder - 2 := by decide
  unfold invert
  rw [powEleven250_eq]
  dsimp only
  rw [squareTimes_eq, ← pow_mul, ← pow_add, hexp]

/-- The inverse, by Fermat's theorem. Zero has none, and the power is zero. -/
theorem invert_eq (x : Residue) : invert x = x⁻¹ := by
  rw [invert_eq_pow]
  rcases eq_or_ne x 0 with rfl | hx
  · rw [inv_zero, zero_pow (by decide)]
  · apply eq_inv_of_mul_eq_one_left
    rw [← pow_succ]
    exact ZMod.pow_card_sub_one_eq_one hx

/-- A power of a number, computed. -/
lemma natCast_pow (a : ℕ) {bits e : ℕ} (he : e < 2 ^ bits) :
    (a : Residue) ^ e = powMod fieldOrder a bits e := by
  rw [powMod_eq fieldOrder a he, ← Nat.cast_pow, ZMod.natCast_mod]

/-- A power of a square whose exponent is a quarter of `2 ^ 255 - 20` is one up to its sign. -/
lemma quarter_pow_sq {x r : Residue} (h : r ^ 2 = x) (hr : r ≠ 0) :
    (x ^ ((fieldOrder - 1) / 4)) ^ 2 = 1 := by
  have hexp : 2 * ((fieldOrder - 1) / 4 * 2) = fieldOrder - 1 := by decide
  rw [← h, ← pow_mul, ← pow_mul, hexp]
  exact ZMod.pow_card_sub_one_eq_one hr

lemma sqrtRatio_sq (u v : Residue) :
    v * sqrtRatio u v ^ 2 = u * (u * v ^ 7) ^ ((fieldOrder - 1) / 4) := by
  have hexp : (fieldOrder - 1) / 4 = (2 ^ 252 - 3) * 2 + 1 := by decide
  have h7 : u * square (square v * v) * v = u * v ^ 7 := by
    rw [square_eq, square_eq]
    ring
  have h3 : square v * v = v ^ 3 := by
    rw [square_eq]
    ring
  unfold sqrtRatio
  dsimp only
  rw [h7, h3, pow252_eq, hexp, pow_succ (u * v ^ 7), pow_mul]
  generalize (u * v ^ 7) ^ (2 ^ 252 - 3) = w
  ring

/-- If the fraction is a square, then the candidate is a root of it or of its negative. -/
theorem sqrtRatio_of_square {u v r : Residue} (h : v * r ^ 2 = u) :
    v * sqrtRatio u v ^ 2 = u ∨ v * sqrtRatio u v ^ 2 = -u := by
  rw [sqrtRatio_sq]
  rcases eq_or_ne (v ^ 4 * r) 0 with hzero | hne
  · have hu : u = 0 := by
      rcases mul_eq_zero.mp hzero with hv | hr
      · rw [← h, eq_zero_of_pow_eq_zero hv, zero_mul]
      · rw [← h, hr, zero_pow two_ne_zero, mul_zero]
    simp [hu]
  · have hsq : (v ^ 4 * r) ^ 2 = u * v ^ 7 := by rw [← h]; ring
    have hquarter := quarter_pow_sq hsq hne
    rw [pow_two, mul_self_eq_one_iff] at hquarter
    rcases hquarter with hc | hc
    · exact .inl (by rw [hc, mul_one])
    · exact .inr (by rw [hc, mul_neg_one])

end Edwards25519.Residue
