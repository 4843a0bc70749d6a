import Edwards25519.Proofs.Multiple.Simulation
import Edwards25519.Proofs.Point.Denotes
import Edwards25519.Proofs.Scalar.Radix16
import Edwards25519.Proofs.Scalar.Reduction
import Mathlib.Algebra.Module.BigOperators
import Mathlib.Logic.Equiv.Fin.Basic

/-! The fixed-base table holds the multiples it is meant to hold, and a multiplication with it gives the
multiple by the number that the digits stand for. -/
namespace Edwards25519

/-- A loop that adds a point in each round. -/
lemma Extended.denotes_foldl {n : ℕ} {f : Extended Residue → Fin n → Extended Residue}
    {g : Fin n → CurvePoint}
    (hstep : ∀ i {p P}, p.Denotes P → (f p i).Denotes (P + g i)) {p : Extended Residue}
    {P : CurvePoint} (h : p.Denotes P) : (Fin.foldl n f p).Denotes (P + ∑ i, g i) := by
  induction n generalizing p P with
  | zero => simpa using h
  | succ n ih =>
    rw [Fin.foldl_succ, Fin.sum_univ_succ, ← add_assoc]
    exact ih (fun i => hstep i.succ) (hstep 0 h)

namespace FixedBaseTable

/-- A row holds the multiples from 1 to 8. -/
def RowOf (entries : Vector (Precomputed Residue) 8) (P : CurvePoint) : Prop :=
  ∀ j, (entries.get j).Denotes ((j.val + 1) • P)

/-- A table holds a row for each power of 256. -/
def TableOf (t : FixedBaseTable Residue) (P : CurvePoint) : Prop :=
  ∀ i, RowOf (t.get i) (256 ^ i.val • P)

variable {p : Extended Residue} {P : CurvePoint}

theorem rowOf_row (h : p.Denotes P) : RowOf (row p) P := by
  intro j
  have horbit : ∀ k, ((fun r => (Extended.add r p.toCached).toExtended)^[k] p).Denotes
      ((k + 1) • P) := by
    intro k
    induction k with
    | zero => simpa using h
    | succ k ih =>
      rw [Function.iterate_succ_apply', succ_nsmul]
      exact (ih.add h.toCached).toExtended
  simp only [row, get_eq_getElem, Vector.getElem_map, getElem_orbitVector]
  exact (horbit j.val).toPrecomputed

lemma denotes_doublings (n : ℕ) (h : p.Denotes P) :
    ((List.range n).foldl (fun (q : Extended Residue) _ => q.plus q) p).Denotes (2 ^ n • P) := by
  induction n with
  | zero => simpa using h
  | succ n ih =>
    rw [List.range_succ, List.foldl_append, pow_succ, mul_two, add_nsmul]
    exact ih.plus ih

theorem denotes_nextRow (h : p.Denotes P) : (nextRow p).Denotes (256 • P) := denotes_doublings 8 h

theorem tableOf_ofPoint (h : p.Denotes P) : TableOf (ofPoint p) P := by
  intro i
  have horbit : ∀ k, (nextRow^[k] p).Denotes (256 ^ k • P) := by
    intro k
    induction k with
    | zero => simpa using h
    | succ k ih =>
      rw [Function.iterate_succ_apply', pow_succ, mul_nsmul]
      exact denotes_nextRow ih
  simp only [ofPoint, get_eq_getElem, Vector.getElem_map, getElem_orbitVector]
  exact rowOf_row (horbit i.val)

/-- The entry for a digit in `[-8, 8]` is the multiple by it. -/
theorem denotes_selectFrom {entries : Vector (Precomputed Residue) 8} (h : RowOf entries P)
    {digit : Int8} (hbounds : -8 ≤ digit.toInt ∧ digit.toInt ≤ 8) :
    (selectFrom entries digit).Denotes (digit.toInt • P) := by
  have hentry : (if h : 1 ≤ digit.toInt.natAbs ∧ digit.toInt.natAbs ≤ 8 then
      entries.get ⟨digit.toInt.natAbs - 1, by omega⟩ else Precomputed.neutral).Denotes
        (digit.toInt.natAbs • P) := by
    split_ifs with hn
    · have hrow := h ⟨digit.toInt.natAbs - 1, by omega⟩
      rwa [Nat.sub_add_cancel hn.1] at hrow
    · obtain hzero : digit.toInt.natAbs = 0 := by omega
      rw [hzero, zero_nsmul]
      exact Precomputed.denotes_neutral
  have hsign : digit < 0 ↔ digit.toInt < 0 := Int8.lt_iff_toInt_lt
  rw [selectFrom_eq]
  dsimp only
  by_cases hneg : digit < 0
  · have habs : digit.toInt • P = -(digit.toInt.natAbs • P) := by
      rw [← natCast_zsmul, ← neg_zsmul]
      congr 1
      have := hsign.mp hneg
      omega
    rw [if_pos hneg, habs]
    exact hentry.negate
  · have habs : digit.toInt • P = digit.toInt.natAbs • P := by
      rw [← natCast_zsmul]
      congr 1
      have := mt hsign.mpr hneg
      omega
    rw [if_neg hneg, habs]
    exact hentry

/-- A digit of the row for a power of 256 stands for the digit times that power. -/
lemma digit_zsmul (digit : ℤ) (i : ℕ) (P : CurvePoint) :
    (digit * 256 ^ i) • P = digit • 256 ^ i • P := by
  rw [mul_zsmul, ← natCast_zsmul P, Nat.cast_pow, Nat.cast_ofNat]

/-- One of the two loops over the rows. -/
lemma denotes_loop {t : FixedBaseTable Residue} (ht : TableOf t P) {Q : CurvePoint}
    (hp : p.Denotes Q) {digit : Fin 32 → Int8}
    (hdigit : ∀ i, -8 ≤ (digit i).toInt ∧ (digit i).toInt ≤ 8) :
    (Fin.foldl 32 (fun h i => (h.addPrecomputed (selectFrom (t.get i) (digit i))).toExtended) p).Denotes
      (Q + (∑ i, (digit i).toInt * 256 ^ i.val) • P) := by
  rw [Finset.sum_smul]
  refine Extended.denotes_foldl (fun i {p Q} hp => ?_) hp
  rw [digit_zsmul]
  exact (hp.addPrecomputed (denotes_selectFrom (ht i) (hdigit i))).toExtended

lemma denotes_times16 (h : p.Denotes P) :
    p.double.toProjective.double.toProjective.double.toProjective.double.toExtended.Denotes
      ((16 : ℤ) • P) := by
  have hdouble : (16 : ℤ) • P = P + P + (P + P) + (P + P + (P + P)) +
      (P + P + (P + P) + (P + P + (P + P))) := by
    abel
  rw [hdouble]
  exact h.double.toProjective.double.toProjective.double.toProjective.double.toExtended

lemma sum_even_odd {n : ℕ} (f : Fin (n * 2) → ℤ) :
    ∑ i, f i = ∑ i : Fin n, (f ⟨2 * i.val, by omega⟩ + f ⟨2 * i.val + 1, by omega⟩) := by
  rw [← finProdFinEquiv.sum_comp f, Fintype.sum_prod_type]
  refine Finset.sum_congr rfl fun i _ => ?_
  rw [Fin.sum_univ_two]
  congr 2
  · exact Fin.ext (Nat.zero_add _)
  · exact Fin.ext (Nat.add_comm _ _)

/-- Sixteen times the odd digits and the even digits make up the scalar. -/
theorem denotes_multiply {t : FixedBaseTable Residue} (ht : TableOf t P) (s : Encoded) :
    (t.multiply s).Denotes (s.toRecodable.toNat • P) := by
  let digit : Fin 64 → Int8 := fun i => (Scalar.radix16 s.toRecodable).get i
  have hdigit : ∀ i, (digit i).toInt = (Scalar.digits s.toRecodable).get i ∧
      -8 ≤ (digit i).toInt ∧ (digit i).toInt ≤ 8 := by
    intro i
    obtain ⟨hword, hbounds⟩ := Scalar.toInt_radix16 s.topBit_toRecodable i
    exact ⟨hword, hword ▸ hbounds⟩
  have hsum : (s.toRecodable.toNat : ℤ) =
      16 * (∑ i : Fin 32, (digit ⟨2 * i.val + 1, by omega⟩).toInt * 256 ^ i.val) +
        ∑ i : Fin 32, (digit ⟨2 * i.val, by omega⟩).toInt * 256 ^ i.val := by
    rw [← Scalar.sum_digits, Finset.mul_sum, ← Finset.sum_add_distrib]
    refine (sum_even_odd (n := 32) _).trans (Finset.sum_congr rfl fun i _ => ?_)
    rw [(hdigit _).1, (hdigit _).1]
    simp only [pow_succ, pow_mul]
    ring
  have hodd := denotes_loop ht Extended.denotes_neutral fun i =>
    (hdigit ⟨2 * i.val + 1, by omega⟩).2
  have heven := denotes_loop ht (denotes_times16 hodd) fun i => (hdigit ⟨2 * i.val, by omega⟩).2
  rw [zero_add, ← mul_zsmul, ← add_zsmul, ← hsum, natCast_zsmul] at heven
  exact heven

end FixedBaseTable

end Edwards25519
