import Edwards25519.Proofs.Scalar.Slide
import Mathlib.Data.Int.ModEq

/-! The sliding window recoding of every scalar. A carry is lost only past bit 255, so the digits add up to
the scalar modulo `2 ^ 256`. A window clears the four bits after its digit, and it may stop at the fifth: the
digits that are not zero are at least five positions apart, and no more than that can be said. -/
namespace Edwards25519.Scalar

/-! The sum of the digits, also where a carry is lost. -/

lemma bitValue_increment_modEq (bits : List Bool) :
    (bitValue (increment bits) : ℤ) ≡ bitValue bits + 1 [ZMOD 2 ^ bits.length] := by
  induction bits with
  | nil => exact Int.modEq_one
  | cons b bits ih =>
    cases b with
    | false =>
      rw [increment, bitValue_true, bitValue_false, add_comm]
      rfl
    | true =>
      obtain ⟨c, hc⟩ := Int.modEq_iff_add_fac.mp ih
      refine Int.modEq_iff_add_fac.mpr ⟨c, ?_⟩
      rw [increment, bitValue_false, bitValue_true, List.length_cons, pow_succ]
      push_cast
      linear_combination 2 * hc

/-- A bit that has gone into the digit, and what the window draws after it. -/
lemma modEq_next {digit weight d : ℤ} {b : Bool} {rest bits : List Bool}
    (h : d + 2 * weight * bitValue bits ≡
      digit + weight * b.toNat + 2 * weight * bitValue rest [ZMOD 2 * weight * 2 ^ rest.length]) :
    d + weight * bitValue (false :: bits) ≡
      digit + weight * bitValue (b :: rest) [ZMOD weight * 2 ^ (b :: rest).length] := by
  obtain ⟨c, hc⟩ := Int.modEq_iff_add_fac.mp h
  refine Int.modEq_iff_add_fac.mpr ⟨c, ?_⟩
  simp only [bitValue, Bool.toNat_false, List.length_cons, pow_succ]
  push_cast
  linear_combination hc

/-- Whatever a window draws, it keeps the number up to the power of two past the last bit. -/
theorem window_modEq (digit weight : ℤ) (n : ℕ) (bits : List Bool) :
    (window digit weight n bits).1 + weight * bitValue (window digit weight n bits).2 ≡
      digit + weight * bitValue bits [ZMOD weight * 2 ^ bits.length] := by
  fun_induction window digit weight n bits with
  | case1 => rfl
  | case2 => rfl
  | case3 digit weight n rest d bits' heq ih =>
    apply modEq_next
    rw [heq] at ih
    rw [Bool.toNat_false, Nat.cast_zero, mul_zero, add_zero]
    exact ih
  | case4 digit weight n rest hle d bits' heq ih =>
    apply modEq_next
    rw [heq] at ih
    rw [Bool.toNat_true, Nat.cast_one, mul_one]
    exact ih
  | case5 digit weight n rest hgt hle d bits' heq ih =>
    -- the bit is subtracted, and the carry makes up for it with twice its weight
    apply modEq_next
    rw [heq, length_increment] at ih
    refine ih.trans ?_
    obtain ⟨c, hc⟩ := Int.modEq_iff_add_fac.mp (bitValue_increment_modEq rest)
    refine Int.modEq_iff_add_fac.mpr ⟨c, ?_⟩
    rw [Bool.toNat_true, Nat.cast_one]
    linear_combination 2 * weight * hc
  | case6 => rfl

theorem digitSum_slideBits_modEq (bits : List Bool) :
    digitSum 2 (slideBits bits) ≡ bitValue bits [ZMOD 2 ^ bits.length] := by
  fun_induction slideBits bits with
  | case1 => rfl
  | case2 rest ih =>
    obtain ⟨c, hc⟩ := Int.modEq_iff_add_fac.mp ih
    refine Int.modEq_iff_add_fac.mpr ⟨c, ?_⟩
    rw [digitSum_cons, bitValue_false, List.length_cons, pow_succ]
    push_cast
    linear_combination 2 * hc
  | case3 rest drawn ih =>
    have hlength : drawn.2.length = rest.length := length_window 1 2 6 rest
    rw [hlength] at ih
    obtain ⟨c, hc⟩ := Int.modEq_iff_add_fac.mp ih
    obtain ⟨c', hc'⟩ := Int.modEq_iff_add_fac.mp (window_modEq 1 2 6 rest)
    refine Int.modEq_iff_add_fac.mpr ⟨c + c', ?_⟩
    rw [digitSum_cons, bitValue_true, List.length_cons, pow_succ]
    push_cast
    linear_combination 2 * hc + hc'

theorem digitSum_slide_modEq (s : Bytes 32) :
    digitSum 2 (slide s).toList ≡ s.toNat [ZMOD 2 ^ 256] := by
  have hbits := digitSum_slideBits_modEq (bitList s.toList)
  rw [bitValue_bitList, length_bitList, Vector.length_toList] at hbits
  exact hbits

/-! The places of the digits that are not zero. -/

/-- A window clears the bits after its digit as long as their weight is at most 16. -/
lemma getD_window {digit weight : ℤ} {m k n : ℕ} (hweight : weight = 2 ^ m) (hreach : m + k ≤ 4)
    (hdigit : 0 < digit ∧ digit < weight) (hk : k < n) (bits : List Bool) :
    (window digit weight n bits).2.getD k false = false := by
  fun_induction window digit weight n bits generalizing m k with
  | case1 => exact absurd hk (Nat.not_lt_zero k)
  | case2 => rfl
  | case3 digit weight n rest d bits' heq ih =>
    cases k with
    | zero => rfl
    | succ k =>
      rw [heq] at ih
      exact ih (hweight ▸ (pow_succ' 2 m).symm) (by omega) (by omega) (by omega)
  | case4 digit weight n rest hle d bits' heq ih =>
    cases k with
    | zero => rfl
    | succ k =>
      rw [heq] at ih
      exact ih (hweight ▸ (pow_succ' 2 m).symm) (by omega) (by omega) (by omega)
  | case5 digit weight n rest hgt hle d bits' heq ih =>
    cases k with
    | zero => rfl
    | succ k =>
      -- only at the weight 16 a bit is subtracted
      have hweight8 : weight ≤ 8 := hweight ▸ pow_le_pow_right₀ (by decide) (by omega : m ≤ 3)
      omega
  | case6 digit weight n rest hgt hlt =>
    have hweight16 : weight ≤ 16 := hweight ▸ pow_le_pow_right₀ (by decide) (by omega : m ≤ 4)
    omega

/-- Where the bits begin with zeros, so do the digits. -/
lemma getD_slideBits {bits : List Bool} {m : ℕ} (h : ∀ k < m, bits.getD k false = false) :
    ∀ k < m, (slideBits bits).getD k 0 = 0 := by
  fun_induction slideBits bits generalizing m with
  | case1 => exact fun _ _ => rfl
  | case2 rest ih =>
    intro k hk
    cases k with
    | zero => rfl
    | succ k => exact ih (m := m - 1) (fun j hj => h (j + 1) (by omega)) k (by omega)
  | case3 rest drawn =>
    intro k hk
    exact absurd (h 0 (by omega)) Bool.noConfusion

/-- Digits that are not zero are at least five positions apart. -/
def Spaced (ds : List ℤ) : Prop :=
  ∀ i j, i < j → ds.getD i 0 ≠ 0 → ds.getD j 0 ≠ 0 → i + 5 ≤ j

lemma Spaced.cons {d : ℤ} {ds : List ℤ} (h : Spaced ds) (hd : d ≠ 0 → ∀ k < 4, ds.getD k 0 = 0) :
    Spaced (d :: ds) := by
  intro i j hij hi hj
  cases j with
  | zero => exact absurd hij (Nat.not_lt_zero i)
  | succ j =>
    cases i with
    | zero =>
      by_contra hlt
      exact hj (hd hi j (by omega))
    | succ i =>
      have hstep := h i j (by omega) hi hj
      omega

theorem spaced_slideBits (bits : List Bool) : Spaced (slideBits bits) := by
  fun_induction slideBits bits with
  | case1 => exact fun i j _ hi _ => absurd rfl hi
  | case2 rest ih => exact ih.cons fun h => absurd rfl h
  | case3 rest drawn ih =>
    refine ih.cons fun _ => getD_slideBits fun k hk => ?_
    exact getD_window (m := 1) rfl (by omega) (by decide) (by omega) rest

lemma getD_slide (s : Bytes 32) (i : Fin 256) : (slide s).toList.getD i.val 0 = (slide s).get i := by
  rw [List.getD_eq_getElem?_getD, List.getElem?_eq_getElem (by simp), Vector.getElem_toList]
  rfl

/-- The sliding window recoding of every scalar: its digits are zero or odd and at most 15 in size, those that
are not zero are at least five positions apart, and they add up to the scalar modulo `2 ^ 256`, and to the
scalar itself where bit 255 is clear. -/
theorem slide_windows (s : Bytes 32) :
    (∀ d ∈ (slide s).toList, d = 0 ∨ Odd d ∧ -15 ≤ d ∧ d ≤ 15) ∧
    (∀ i j : Fin 256, i < j → (slide s).get i ≠ 0 → (slide s).get j ≠ 0 → i.val + 5 ≤ j.val) ∧
    (∑ i, (slide s).get i * 2 ^ i.val ≡ s.toNat [ZMOD 2 ^ 256]) ∧
    (s.last ≤ 127 → ∑ i, (slide s).get i * 2 ^ i.val = s.toNat) := by
  refine ⟨windowDigit_slide s, fun i j hij hi hj => ?_, ?_, fun hlast => ?_⟩
  · rw [← getD_slide] at hi hj
    exact spaced_slideBits (bitList s.toList) i j hij hi hj
  · rw [sum_toList]
    exact digitSum_slide_modEq s
  · have hhigh : s.last.toNat ≤ 127 := hlast
    rw [Bytes.toNat_last] at hhigh
    rw [sum_toList, digitSum_slide (by omega)]

/-- The number 33, whose digits that are not zero are as close to each other as digits get. -/
theorem slide_windows_close :
    let s := Bytes.ofNat 32 33
    (slide s).get 0 ≠ 0 ∧ (slide s).get 5 ≠ 0 ∧ (0 : Fin 256).val + 5 ≤ (5 : Fin 256).val ∧
    s.last ≤ 127 ∧ ∑ i, (slide s).get i * 2 ^ i.val = 33 := by
  intro s
  obtain ⟨-, hspaced, -, hsum⟩ := slide_windows s
  have hfirst : (slide s).get 0 ≠ 0 := by decide +kernel
  have hsecond : (slide s).get 5 ≠ 0 := by decide +kernel
  exact ⟨hfirst, hsecond, hspaced 0 5 (by decide) hfirst hsecond, by decide, hsum (by decide)⟩

end Edwards25519.Scalar
