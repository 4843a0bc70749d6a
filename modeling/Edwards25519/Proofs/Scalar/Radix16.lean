import Edwards25519.Proofs.Bytes
import Edwards25519.Proofs.Word.Range
import Edwards25519.Proofs.Word.Related
import Edwards25519.Scalar.Digits
import Mathlib.Algebra.BigOperators.Ring.Finset
import Mathlib.Data.List.Forall2

/-! The recoding in radix 16 keeps the number. Its digits lie in `[-8, 7]`, but for the last one, which lies
in `[0, 16]`, and in `[0, 8]` if bit 255 is clear. All of it fits in words of 8 bits. -/
namespace Edwards25519.Scalar

open LimbArithmetic

/-- The number that digits stand for, least significant first. -/
def digitSum (base : ℤ) : List ℤ → ℤ
  | [] => 0
  | d :: ds => d + base * digitSum base ds

@[simp] lemma digitSum_nil (base : ℤ) : digitSum base [] = 0 := rfl

@[simp] lemma digitSum_cons (base d : ℤ) (ds : List ℤ) :
    digitSum base (d :: ds) = d + base * digitSum base ds := rfl

theorem digitSum_nibbles (s : ByteString) : digitSum 16 (nibbles s) = ByteString.toNat s := by
  induction s with
  | nil => rfl
  | cons b s ih =>
    have hnibbles : (nibbles (b :: s) : List ℤ) =
        ((b.toNat % 16 : ℕ) : ℤ) :: ((b.toNat / 16 : ℕ) : ℤ) :: nibbles s := rfl
    rw [hnibbles, digitSum_cons, digitSum_cons, ih, ByteString.toNat_cons]
    push_cast
    omega

lemma digitSum_eq_sum (base : ℤ) (ds : List ℤ) :
    digitSum base ds = ∑ i : Fin ds.length, ds[i] * base ^ i.val := by
  induction ds with
  | nil => rfl
  | cons d ds ih =>
    rw [digitSum_cons, ih, Finset.mul_sum]
    refine (congrArg₂ (· + ·) ?_ (Finset.sum_congr rfl fun i _ => ?_)).trans
      (Fin.sum_univ_succ fun i : Fin (ds.length + 1) => (d :: ds)[i] * base ^ i.val).symm
    · simp
    · simp only [Fin.getElem_fin, Fin.val_succ, List.getElem_cons_succ, pow_succ]
      ring

lemma sum_toList (base : ℤ) {n : ℕ} (v : Vector ℤ n) :
    ∑ i, v.get i * base ^ i.val = digitSum base v.toList := by
  rcases v with ⟨⟨l⟩, rfl⟩
  exact (digitSum_eq_sum base l).symm

/-- What goes out of one digit comes into the next. -/
theorem digitSum_balance (carry : ℤ) {ds : List ℤ} (h : ds ≠ []) :
    digitSum 16 (balance carry ds) = carry + digitSum 16 ds := by
  fun_induction balance carry ds with
  | case1 => exact absurd rfl h
  | case2 carry d => simp [add_comm]
  | case3 carry d e rest d' carry' ih =>
    rw [digitSum_cons, ih (List.cons_ne_nil e rest), shiftLeft_int, digitSum_cons 16 d]
    ring

section simulation

variable {α β : Type} [LimbArithmetic α] [LimbArithmetic β] {R : α → β → Prop}

theorem nibbles_related (hR : Simulation R) (s : ByteString) :
    List.Forall₂ R (nibbles s) (nibbles s) := by
  induction s with
  | nil => exact .nil
  | cons b s ih => exact .cons (hR.intCast _) (.cons (hR.intCast _) ih)

theorem balance_related (hR : Simulation R) {carry : α} {carry' : β} (hcarry : R carry carry')
    {ds : List α} {ds' : List β} (h : List.Forall₂ R ds ds') :
    List.Forall₂ R (balance carry ds) (balance carry' ds') := by
  induction h generalizing carry carry' with
  | nil => exact .nil
  | cons hd hds ih =>
    cases hds with
    | nil => exact .cons (hR.add hd hcarry) .nil
    | cons he hrest =>
      have hsum := hR.add hd hcarry
      have hnext := hR.shiftRight 4 (hR.add hsum (hR.intCast 8))
      exact .cons (hR.sub hsum (hR.shiftLeft 4 hnext)) (ih hnext)

theorem radix16_related (hR : Simulation R) (s : Bytes 32) :
    Related R (radix16 s : Vector α 64) (radix16 s : Vector β 64) := by
  have h := balance_related hR (hR.intCast 0) (nibbles_related hR s.toList)
  intro i hi
  exact h.get (by simpa using hi) (by simpa using hi)

end simulation

section bounds

open Range

/-- The digits before the carries. -/
abbrev Nibble (c : Checked 8) : Prop := Holds c ⟨0, 15, true⟩

/-- What a carry leaves of a digit. -/
abbrev BalancedDigit (c : Checked 8) : Prop := Holds c ⟨-8, 7, true⟩

/-- The digits after the carries. -/
abbrev SignedDigit (c : Checked 8) : Prop := Holds c ⟨-8, 8, true⟩

abbrev CarryBit (c : Checked 8) : Prop := Holds c ⟨0, 1, true⟩

lemma Holds.weaken {w : ℕ} {c : Checked w} {r r' : Range w} (h : Holds c r)
    (hr : r.ok = true ∧ r'.low ≤ r.low ∧ r.high ≤ r'.high) : Holds c r' := by
  intro _
  obtain ⟨hfits, hl, hu⟩ := h hr.1
  exact ⟨hfits, hr.2.1.trans hl, hu.trans hr.2.2⟩

/-- One digit and the carry into it: what is left of it, and the carry out of it. -/
lemma digit_step {d carry : Checked 8} (hd : Nibble d) (hcarry : CarryBit carry) :
    BalancedDigit (d + carry - shiftLeft (shiftRightRounded (d + carry) 4) 4) ∧
      CarryBit (shiftRightRounded (d + carry) 4) := by
  have hsum := Range.simulation.add hd hcarry
  exact ⟨Holds.weaken (holds_signedRemainder hsum (by decide)) (by decide),
    Holds.weaken (Range.simulation.shiftRightRounded 4 hsum) (by decide)⟩

/-- The last digit and the carry into it. -/
lemma last_step {d carry : Checked 8} {high : ℤ} (hhigh : high ≤ 15)
    (hd : Holds d ⟨0, high, true⟩) (hcarry : CarryBit carry) :
    Holds (d + carry) ⟨0, high + 1, true⟩ := by
  intro _
  obtain ⟨hdigitFits, hdl, hdu⟩ := hd rfl
  obtain ⟨hcarryFits, hcl, hcu⟩ := hcarry rfl
  have hlow : 0 ≤ d.value + carry.value := add_nonneg hdl hcl
  have hle : d.value + carry.value ≤ high + 1 := add_le_add hdu hcu
  have hin : InWord 8 (d.value + carry.value) :=
    ⟨(by decide : (-2 ^ 7 : ℤ) ≤ 0).trans hlow, by omega⟩
  exact ⟨⟨hdigitFits, hcarryFits, hin⟩, hlow, hle⟩

/-- Only the last digit keeps its carry. -/
theorem balance_bounds {carry : Checked 8} (hcarry : CarryBit carry) {ds : List (Checked 8)}
    (hds : ∀ d ∈ ds, Nibble d) {high : ℤ} (hhigh : high ≤ 15)
    (hlast : ∀ d, ds.getLast? = some d → Holds d ⟨0, high, true⟩) :
    (∀ e ∈ (balance carry ds).dropLast, BalancedDigit e) ∧
      ∀ e, (balance carry ds).getLast? = some e → Holds e ⟨0, high + 1, true⟩ := by
  fun_induction balance carry ds with
  | case1 => simp
  | case2 carry d =>
    refine ⟨by simp, fun e he => ?_⟩
    rw [← Option.some_inj.mp he]
    exact last_step hhigh (hlast d rfl) hcarry
  | case3 carry d e rest d' carry' ih =>
    obtain ⟨hdigit, hnext⟩ := digit_step (hds d (by simp)) hcarry
    obtain ⟨hrest, hend⟩ :=
      ih hnext (fun f hf => hds f (.tail d hf)) fun f hf => hlast f (by simpa using hf)
    have hne : balance carry' (e :: rest) ≠ [] := by
      rw [ne_eq, ← List.length_eq_zero_iff]
      simp
    rw [List.dropLast_cons_of_ne_nil hne, List.getLast?_cons_of_ne_nil hne]
    refine ⟨fun f hf => ?_, hend⟩
    rcases List.mem_cons.mp hf with rfl | hf
    · exact hdigit
    · exact hrest f hf

lemma holds_natCast {n : ℕ} {high : ℤ} (h : n ≤ high) (hword : high < 2 ^ 7) :
    Holds ((n : ℤ) : Checked 8) ⟨0, high, true⟩ := by
  intro _
  have hn := Int.natCast_nonneg n
  exact ⟨⟨(by decide : (-2 ^ 7 : ℤ) ≤ 0).trans hn, h.trans_lt hword⟩, hn, h⟩

lemma nibbles_bounds (s : ByteString) : ∀ d ∈ (nibbles s : List (Checked 8)), Nibble d := by
  intro d hd
  obtain ⟨b, -, hd⟩ := List.mem_flatMap.mp hd
  have hb := b.toNat_lt
  simp only [List.mem_cons, List.not_mem_nil, or_false] at hd
  rcases hd with rfl | rfl
  · exact holds_natCast (by omega) (by decide)
  · exact holds_natCast (by omega) (by decide)

/-- The last of the digits is the high half of the last byte. -/
lemma getLast_nibbles (s : Bytes 32) : (nibbles s.toList : List (Checked 8)).getLast? =
    some (((s.last.toNat / 16 : ℕ) : ℤ) : Checked 8) := by
  have hne : s.toList ≠ [] := by
    intro h
    simpa using congrArg List.length h
  have hlast : s.toList.getLast hne = s.last := by
    rw [List.getLast_eq_getElem]
    simp [Bytes.last]
  rw [← List.dropLast_append_getLast hne, hlast]
  simp [nibbles]

/-- The bounds of all digits, as those of a list. -/
lemma radix16_list_bounds (s : Bytes 32) :
    (∀ e ∈ (balance ((0 : ℤ) : Checked 8) (nibbles s.toList)).dropLast, BalancedDigit e) ∧
      ∀ e, (balance ((0 : ℤ) : Checked 8) (nibbles s.toList)).getLast? = some e →
        Holds e ⟨0, s.last.toNat / 16 + 1, true⟩ := by
  have hzero : CarryBit ((0 : ℤ) : Checked 8) := holds_natCast (n := 0) (by decide) (by decide)
  have hbyte := s.last.toNat_lt
  refine balance_bounds hzero (nibbles_bounds s.toList) (by omega) fun d hd => ?_
  rw [getLast_nibbles, Option.some_inj] at hd
  rw [← hd]
  exact holds_natCast (by omega) (by omega)

theorem radix16_bounds_castSucc (s : Bytes 32) (j : Fin 63) :
    BalancedDigit ((radix16 s : Vector (Checked 8) 64).get j.castSucc) := by
  have hlt : j.val < (balance ((0 : ℤ) : Checked 8) (nibbles s.toList)).dropLast.length := by simp
  refine (radix16_list_bounds s).1 _ ?_
  have hget := List.getElem_mem hlt
  rwa [List.getElem_dropLast] at hget

theorem radix16_bounds_last (s : Bytes 32) :
    Holds ((radix16 s : Vector (Checked 8) 64).get (Fin.last 63))
      ⟨0, s.last.toNat / 16 + 1, true⟩ := by
  have hlength : (balance ((0 : ℤ) : Checked 8) (nibbles s.toList)).length = 64 := by simp
  refine (radix16_list_bounds s).2 _ ?_
  rw [List.getLast?_eq_getElem?, hlength]
  exact List.getElem?_eq_getElem _

/-- No digit overflows, whatever the scalar is. -/
theorem fits_radix16 (s : Bytes 32) (i : Fin 64) :
    ((radix16 s : Vector (Checked 8) 64).get i).fits := by
  cases i using Fin.lastCases with
  | last => exact (radix16_bounds_last s rfl).1
  | cast j => exact (radix16_bounds_castSucc s j rfl).1

theorem radix16_bounds {s : Bytes 32} (h : s.topBit = false) (i : Fin 64) :
    SignedDigit ((radix16 s : Vector (Checked 8) 64).get i) := by
  have hhigh : s.last.toNat < 128 := by
    rw [Bytes.topBit, Bool.eq_false_iff, ne_eq, Bytes.highBit_iff] at h
    omega
  cases i using Fin.lastCases with
  | last =>
    have hlast : (s.last.toNat / 16 + 1 : ℤ) ≤ 8 := by omega
    exact Holds.weaken (radix16_bounds_last s) ⟨rfl, (by decide : (-8 : ℤ) ≤ 0), hlast⟩
  | cast j => exact Holds.weaken (radix16_bounds_castSucc s j) (by decide)

end bounds

/-- The digits that the program computes. -/
def digits (s : Bytes 32) : Vector ℤ 64 := radix16 s

lemma value_radix16 (s : Bytes 32) (i : Fin 64) :
    ((radix16 s : Vector (Checked 8) 64).get i).value = (digits s).get i :=
  (radix16_related (simulation_value (w := 8)) s).fin i

/-- The words of 8 bits hold the digits. -/
theorem toInt_digit (s : Bytes 32) (i : Fin 64) :
    ((radix16 s : Vector Int8 64).get i).toInt = (digits s).get i :=
  ((radix16_related simulation_int8 s).fin i (fits_radix16 s i)).trans (value_radix16 s i)

lemma digits_of_holds {s : Bytes 32} {i : Fin 64} {low high : ℤ}
    (h : Range.Holds ((radix16 s : Vector (Checked 8) 64).get i) ⟨low, high, true⟩) :
    low ≤ (digits s).get i ∧ (digits s).get i ≤ high :=
  value_radix16 s i ▸ (h rfl).2

theorem toInt_radix16 {s : Bytes 32} (h : s.topBit = false) (i : Fin 64) :
    ((radix16 s : Vector Int8 64).get i).toInt = (digits s).get i ∧
      -8 ≤ (digits s).get i ∧ (digits s).get i ≤ 8 :=
  ⟨toInt_digit s i, digits_of_holds (radix16_bounds h i)⟩

/-- The digits add up to the scalar. -/
theorem sum_digits (s : Bytes 32) : ∑ i, (digits s).get i * 16 ^ i.val = s.toNat := by
  have hne : (nibbles s.toList : List ℤ) ≠ [] := by
    intro h
    simpa using congrArg List.length h
  have hlist : (digits s).toList = balance (0 : ℤ) (nibbles s.toList) := rfl
  rw [sum_toList, hlist, digitSum_balance 0 hne, zero_add, digitSum_nibbles]
  rfl

end Edwards25519.Scalar
