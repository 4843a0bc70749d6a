import Edwards25519.Proofs.Scalar.Radix16
import Mathlib.Algebra.Ring.Parity
import Mathlib.Tactic.LinearCombination

/-! The sliding window recoding keeps every number up to `2 ^ 255`. A window subtracts at most once, at
the weight 16, and the carry then goes to bits that it no longer changes. The carry would be lost only
past the highest bit, which is reached by a carry only if it is the last one that is left. The digits are
zero or odd and at most 15 in size, whatever the number. -/
namespace Edwards25519.Scalar

def bitValue : List Bool → ℕ
  | [] => 0
  | b :: bits => b.toNat + 2 * bitValue bits

@[simp] lemma bitValue_nil : bitValue [] = 0 := rfl

@[simp] lemma bitValue_false (bits : List Bool) : bitValue (false :: bits) = 2 * bitValue bits := by
  simp [bitValue]

@[simp] lemma bitValue_true (bits : List Bool) :
    bitValue (true :: bits) = 1 + 2 * bitValue bits := rfl

lemma bitValue_append (bits bits' : List Bool) :
    bitValue (bits ++ bits') = bitValue bits + 2 ^ bits.length * bitValue bits' := by
  induction bits with
  | nil => simp
  | cons b bits ih =>
    rw [List.cons_append, bitValue, ih, bitValue, List.length_cons, pow_succ]
    ring

theorem bitValue_bitList (s : ByteString) : bitValue (bitList s) = ByteString.toNat s := by
  have hbyte : ∀ x : Fin 256,
      bitValue ((List.range 8).map fun i => x.val.testBit i) = x.val := by decide +kernel
  induction s with
  | nil => rfl
  | cons b s ih =>
    have hb := hbyte ⟨b.toNat, b.toNat_lt⟩
    have hlist : bitList (b :: s) = (List.range 8).map (fun i => b.toNat.testBit i) ++ bitList s :=
      rfl
    rw [hlist, bitValue_append, ih, hb, ByteString.toNat_cons]
    simp

/-- Adding one, unless all bits are set. -/
lemma bitValue_increment {bits : List Bool} (h : bitValue bits + 1 < 2 ^ bits.length) :
    bitValue (increment bits) = bitValue bits + 1 := by
  induction bits with
  | nil => simp at h
  | cons b bits ih =>
    cases b with
    | false => simp [increment, add_comm]
    | true =>
      rw [List.length_cons, pow_succ, bitValue_true] at h
      rw [increment, bitValue_false, ih (by omega), bitValue_true]
      ring

/-- Past the weight 16 a window leaves everything as it is. -/
lemma window_done {digit weight : ℤ} (hdigit : -15 ≤ digit ∧ digit ≤ 15) (hweight : 32 ≤ weight)
    (n : ℕ) (bits : List Bool) : window digit weight n bits = (digit, bits) := by
  fun_induction window digit weight n bits with
  | case1 => rfl
  | case2 => rfl
  | case3 digit weight n rest d bits' heq ih =>
    obtain ⟨rfl, rfl⟩ : d = digit ∧ bits' = rest := by
      simpa [heq] using ih hdigit (by omega)
    rfl
  | case4 => omega
  | case5 => omega
  | case6 => rfl

/-- The weights of the bits that a window may take into its digit. -/
def WindowWeight (weight : ℤ) : Prop := weight = 2 ∨ weight = 4 ∨ weight = 8 ∨ weight = 16

/-- What a window leaves behind: the same number, in a digit and the later bits, of which a carry may have
reached the last one. -/
structure Drawn (digit weight : ℤ) (bits : List Bool) (drawn : ℤ × List Bool) : Prop where
  value : drawn.1 + weight * bitValue drawn.2 = digit + weight * bitValue bits
  room : bitValue drawn.2 ≤ 2 ^ (drawn.2.length - 1)

lemma room_tail {b : Bool} {rest : List Bool}
    (h : bitValue (b :: rest) < 2 ^ ((b :: rest).length - 1)) :
    bitValue rest < 2 ^ (rest.length - 1) := by
  cases rest with
  | nil => simp
  | cons c rest =>
    simp only [bitValue, List.length_cons, Nat.add_sub_cancel, pow_succ] at h ⊢
    omega

lemma room_false {bits : List Bool} (h : bitValue bits ≤ 2 ^ (bits.length - 1)) :
    bitValue (false :: bits) ≤ 2 ^ ((false :: bits).length - 1) := by
  cases bits with
  | nil => simp
  | cons c bits =>
    simp only [bitValue, List.length_cons, Nat.add_sub_cancel, pow_succ, Bool.toNat_false] at h ⊢
    omega

/-- A window that draws nothing. -/
lemma Drawn.refl {digit weight : ℤ} {bits : List Bool}
    (hroom : bitValue bits ≤ 2 ^ (bits.length - 1)) : Drawn digit weight bits (digit, bits) :=
  ⟨rfl, hroom⟩

/-- A bit that has gone into the digit, and what the window draws after it. -/
lemma Drawn.next {digit weight d : ℤ} {b : Bool} {rest bits : List Bool}
    (h : Drawn (digit + weight * b.toNat) (2 * weight) rest (d, bits)) :
    Drawn digit weight (b :: rest) (d, false :: bits) where
  value := by
    have hv := h.value
    simp only [bitValue, Bool.toNat_false] at hv ⊢
    push_cast
    linear_combination hv
  room := room_false h.room

theorem drawn_window {digit weight : ℤ} (hweight : WindowWeight weight)
    (hdigit : 0 < digit ∧ digit < weight) (n : ℕ) {bits : List Bool}
    (hroom : bitValue bits < 2 ^ (bits.length - 1)) :
    Drawn digit weight bits (window digit weight n bits) := by
  unfold WindowWeight at hweight
  fun_induction window digit weight n bits with
  | case1 digit weight bits => exact .refl hroom.le
  | case2 digit weight n => exact .refl (by simp)
  | case3 digit weight n rest d bits' heq ih =>
    have hrest := room_tail hroom
    apply Drawn.next
    rw [Bool.toNat_false, Nat.cast_zero, mul_zero, add_zero]
    by_cases h16 : weight = 16
    · rw [window_done (by omega) (by omega)] at heq
      exact heq ▸ .refl hrest.le
    · exact heq ▸ ih (by omega) (by omega) hrest
  | case4 digit weight n rest hle d bits' heq ih =>
    apply Drawn.next
    rw [Bool.toNat_true, Nat.cast_one, mul_one]
    exact heq ▸ ih (by omega) (by omega) (room_tail hroom)
  | case5 digit weight n rest hgt hle d bits' heq ih =>
    -- the digit is negative from here on, and takes no more bits
    obtain rfl : weight = 16 := by omega
    rw [window_done (by omega) (by omega)] at heq
    obtain ⟨rfl, rfl⟩ := Prod.mk.inj heq
    rw [List.length_cons, Nat.add_sub_cancel, bitValue_true] at hroom
    have hcarry : bitValue (increment rest) = bitValue rest + 1 := bitValue_increment (by omega)
    refine ⟨?_, ?_⟩
    · simp only [bitValue_false, bitValue_true, hcarry]
      push_cast
      ring
    · simp only [bitValue_false, List.length_cons, length_increment, hcarry, Nat.add_sub_cancel]
      omega
  | case6 digit weight n rest hgt hlt => omega

lemma room_of_false {rest : List Bool}
    (h : bitValue (false :: rest) ≤ 2 ^ ((false :: rest).length - 1)) :
    bitValue rest ≤ 2 ^ (rest.length - 1) := by
  cases rest with
  | nil => simp
  | cons c rest =>
    simp only [bitValue_false, List.length_cons, Nat.add_sub_cancel, pow_succ] at h ⊢
    omega

/-- After a bit that is set there is room for a carry. -/
lemma room_of_true {rest : List Bool}
    (h : bitValue (true :: rest) ≤ 2 ^ ((true :: rest).length - 1)) :
    bitValue rest < 2 ^ (rest.length - 1) := by
  cases rest with
  | nil => simp
  | cons c rest =>
    simp only [bitValue_true, List.length_cons, Nat.add_sub_cancel, pow_succ] at h ⊢
    omega

theorem digitSum_slideBits {bits : List Bool} (hroom : bitValue bits ≤ 2 ^ (bits.length - 1)) :
    digitSum 2 (slideBits bits) = bitValue bits := by
  fun_induction slideBits bits with
  | case1 => simp
  | case2 rest ih =>
    rw [digitSum_cons, ih (room_of_false hroom), bitValue_false]
    push_cast
    ring
  | case3 rest drawn ih =>
    have hdrawn : Drawn 1 2 rest drawn :=
      drawn_window (.inl rfl) (by decide) 6 (room_of_true hroom)
    rw [digitSum_cons, ih hdrawn.room, hdrawn.value, bitValue_true]
    push_cast
    rfl

theorem digitSum_slide {s : Bytes 32} (h : s.toNat ≤ 2 ^ 255) :
    digitSum 2 (slide s).toList = s.toNat := by
  have hvalue : bitValue (bitList s.toList) = s.toNat := bitValue_bitList s.toList
  have hlength : (bitList s.toList).length - 1 = 255 := by simp
  have hroom : bitValue (bitList s.toList) ≤ 2 ^ ((bitList s.toList).length - 1) := by
    rwa [hvalue, hlength]
  rw [← hvalue]
  exact digitSum_slideBits hroom

/-- The digits of the sliding window recoding. -/
def WindowDigit (d : ℤ) : Prop := d = 0 ∨ Odd d ∧ -15 ≤ d ∧ d ≤ 15

lemma WindowDigit.neg {d : ℤ} (h : WindowDigit d) : WindowDigit (-d) := by
  rcases h with rfl | ⟨hodd, hl, hu⟩
  · exact .inl neg_zero
  · exact .inr ⟨hodd.neg, by omega, by omega⟩

/-- Whatever bits a window draws, its digit stays odd and between -15 and 15, as long as the weights are
even. -/
theorem windowDigit_window {digit weight : ℤ} (hweight : 0 ≤ weight ∧ Even weight) (hodd : Odd digit)
    (hdigit : -15 ≤ digit ∧ digit ≤ 15) (n : ℕ) (bits : List Bool) :
    WindowDigit (window digit weight n bits).1 := by
  fun_induction window digit weight n bits with
  | case1 => exact .inr ⟨hodd, hdigit⟩
  | case2 => exact .inr ⟨hodd, hdigit⟩
  | case3 digit weight n rest d bits' heq ih =>
    rw [heq] at ih
    exact ih ⟨by omega, even_two_mul weight⟩ hodd hdigit
  | case4 digit weight n rest hle d bits' heq ih =>
    rw [heq] at ih
    exact ih ⟨by omega, even_two_mul weight⟩ (hodd.add_even hweight.2) (by omega)
  | case5 digit weight n rest hgt hle d bits' heq ih =>
    rw [heq] at ih
    exact ih ⟨by omega, even_two_mul weight⟩ (hodd.sub_even hweight.2) (by omega)
  | case6 => exact .inr ⟨hodd, hdigit⟩

lemma windowDigit_slideBits (bits : List Bool) : ∀ d ∈ slideBits bits, WindowDigit d := by
  fun_induction slideBits bits with
  | case1 => exact List.forall_mem_nil _
  | case2 rest ih => exact List.forall_mem_cons.mpr ⟨.inl rfl, ih⟩
  | case3 rest drawn ih =>
    exact List.forall_mem_cons.mpr
      ⟨windowDigit_window (by decide) odd_one (by decide) 6 rest, ih⟩

/-- The digits of every scalar are window digits, also where a carry past bit 255 is lost. -/
theorem windowDigit_slide (s : Bytes 32) : ∀ d ∈ (slide s).toList, WindowDigit d :=
  windowDigit_slideBits (bitList s.toList)

end Edwards25519.Scalar
