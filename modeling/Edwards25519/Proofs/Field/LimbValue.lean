import Edwards25519.Field.Limbs
import Edwards25519.Proofs.Primes
import Edwards25519.Proofs.Word.Related
import Mathlib.Algebra.BigOperators.Ring.Finset
import Mathlib.Data.ZMod.Basic
import Mathlib.Tactic.LinearCombination

/-! What limbs that are exact integers stand for, and what the algorithms on them do to it: carries
keep the residue, products multiply it. -/
namespace Edwards25519

namespace Limbs

theorem value_eq_sum (h : Limbs ℤ) : value h = ∑ i, h.get i * 2 ^ offset i := by
  simp only [value, shiftLeft_int, foldl_add_eq_sum, zero_add]
  rfl

lemma value_place (h : Limbs ℤ) (i : Fin 10) (a : ℤ) :
    value (place h i a) = value h + (a - h.get i) * 2 ^ offset i := by
  rw [value_eq_sum, value_eq_sum, ← sub_eq_iff_eq_add', ← Finset.sum_sub_distrib,
    Finset.sum_eq_single i]
  · rw [get_place, if_pos rfl]
    ring
  · intro j _ hji
    rw [get_place, if_neg hji.symm, sub_self]
  · simp

theorem value_add (f g : Limbs ℤ) : value (Vector.zipWith (· + ·) f g) = value f + value g := by
  simp [value_eq_sum, get_eq_getElem, add_mul, Finset.sum_add_distrib]

theorem value_sub (f g : Limbs ℤ) : value (Vector.zipWith (· - ·) f g) = value f - value g := by
  simp [value_eq_sum, get_eq_getElem, sub_mul, Finset.sum_sub_distrib]

theorem value_neg (f : Limbs ℤ) : value (f.map (-·)) = -value f := by
  simp [value_eq_sum, get_eq_getElem]

lemma offset_next {i : Fin 10} (hi : i ≠ 9) : offset (i + 1).val = offset i + bits i := by
  revert i; decide

/-- A multiple that moves to the next limb keeps its value, and out of the last limb it comes back
less by that multiple of `2 ^ 255 - 19`. -/
theorem value_move (h : Limbs ℤ) (i : Fin 10) (c : ℤ) :
    value (move h i c) = value h - if i = 9 then c * (2 ^ 255 - 19) else 0 := by
  change value (place (place h i (h.get i - _)) (i + 1) ((place h i (h.get i - _)).get (i + 1) + _)) = _
  rw [value_place, value_place, shiftLeft_int, add_sub_cancel_left]
  split_ifs with hi
  · subst hi
    change value h + (h.get 9 - c * 2 ^ 25 - h.get 9) * 2 ^ 230 + c * 19 * 2 ^ 0 = _
    ring
  · rw [offset_next hi, pow_add]
    ring

/-- The residue that the limbs stand for. -/
def residue (h : Limbs ℤ) : ZMod fieldOrder := (value h : ℤ)

lemma residue_carry (h : Limbs ℤ) (i : Fin 10) : residue (carry h i) = residue h := by
  rw [carry, residue, residue, value_move]
  have hp : ((2 ^ 255 - 19 : ℤ) : ZMod fieldOrder) = 0 :=
    (ZMod.intCast_zmod_eq_zero_iff_dvd _ _).mpr (by decide)
  split_ifs
  · rw [Int.cast_sub, Int.cast_mul, hp, mul_zero, sub_zero]
  · rw [sub_zero]

theorem residue_carryAll (chain : List (Fin 10)) (h : Limbs ℤ) :
    residue (carryAll chain h) = residue h := by
  induction chain generalizing h with
  | nil => rfl
  | cons i chain ih => exact (ih (carry h i)).trans (residue_carry h i)

lemma weight_mul_pow (i j : Fin 10) :
    ((weight i j * 2 ^ offset (i + j).val : ℤ) : ZMod fieldOrder) =
      ((2 ^ offset i * 2 ^ offset j : ℤ) : ZMod fieldOrder) := by
  have hdvd : ∀ i j : Fin 10,
      (2 ^ 255 - 19 : ℤ) ∣ 2 ^ offset i * 2 ^ offset j - weight i j * 2 ^ offset (i + j).val := by
    decide
  exact (ZMod.intCast_eq_intCast_iff_dvd_sub _ _ fieldOrder).mpr (hdvd i j)

lemma get_product (f g : Limbs ℤ) (k : Fin 10) : (product f g).get k = productColumn f g k :=
  Vector.getElem_ofFn k.isLt

lemma productColumn_eq_sum (f g : Limbs ℤ) (k : Fin 10) :
    productColumn f g k = ∑ i, f.get i * g.get (k - i) * weight i (k - i) :=
  (foldl_add_eq_sum _ _).trans (zero_add _)

/-- The product of the residues, summed by columns. -/
theorem residue_product (f g : Limbs ℤ) : residue (product f g) = residue f * residue g := by
  have column (k : Fin 10) : ((product f g).get k * 2 ^ offset k : ℤ) =
      ∑ i, f.get i * g.get (k - i) * (weight i (k - i) * 2 ^ offset k) := by
    rw [get_product, productColumn_eq_sum, Finset.sum_mul]
    simp only [mul_assoc]
  have row (i : Fin 10) :
      ∑ k : Fin 10, (f.get i * g.get (k - i) * (weight i (k - i) * 2 ^ offset k) : ℤ) =
        ∑ j : Fin 10, (f.get i * g.get j * (weight i j * 2 ^ offset (i + j).val) : ℤ) := by
    rw [← Equiv.sum_comp (Equiv.addLeft i)]
    simp
  simp only [residue, value_eq_sum, column]
  rw [Finset.sum_comm]
  simp only [row, Int.cast_sum, Int.cast_mul, Finset.sum_mul_sum]
  refine Finset.sum_congr rfl fun i _ => Finset.sum_congr rfl fun j _ => ?_
  have hw := weight_mul_pow i j
  push_cast at hw ⊢
  linear_combination (f.get i * g.get j : ZMod fieldOrder) * hw

/-- A sum whose terms come in equal pairs takes one of each pair twice. -/
lemma sum_pairs {n : ℕ} (σ : Equiv.Perm (Fin n)) (hσ : ∀ i, σ (σ i) = i) (t : Fin n → ℤ)
    (ht : ∀ i, t (σ i) = t i) :
    ∑ i, (if i ≤ σ i then t i * (if i = σ i then 1 else 2) else 0) = ∑ i, t i := by
  have hflip : ∑ i, (if i < σ i then t i else 0) = ∑ i, if σ i < i then t i else 0 := by
    rw [← Equiv.sum_comp σ]
    simp only [hσ, ht]
  calc ∑ i, (if i ≤ σ i then t i * (if i = σ i then 1 else 2) else 0)
      = ∑ i, ((if i < σ i then t i else 0) + (if i < σ i then t i else 0) +
          if i = σ i then t i else 0) := by
        refine Finset.sum_congr rfl fun i _ => ?_
        rcases lt_trichotomy i (σ i) with h | h | h
        · simp [h, h.le, h.ne]; ring
        · simp [← h]
        · simp [h.not_ge, h.not_gt, h.ne']
    _ = ∑ i, ((if i < σ i then t i else 0) + (if σ i < i then t i else 0) +
          if i = σ i then t i else 0) := by
        simp only [Finset.sum_add_distrib, hflip]
    _ = ∑ i, t i := by
        refine Finset.sum_congr rfl fun i _ => ?_
        rcases lt_trichotomy i (σ i) with h | h | h
        · simp [h, h.not_gt, h.ne]
        · simp [← h]
        · simp [h, h.not_gt, h.ne']

lemma weight_comm (i j : Fin 10) : weight i j = weight j i := by
  simp only [weight, and_comm, add_comm]

/-- A square is the product of the limbs with themselves. -/
theorem square_eq_product (f : Limbs ℤ) : square f = product f f := by
  refine congrArg Vector.ofFn (funext fun k => ?_)
  have hterm (i : Fin 10) :
      f.get (k - i) * f.get (k - (k - i)) * weight (k - i) (k - (k - i)) =
        f.get i * f.get (k - i) * weight i (k - i) := by
    simp only [sub_sub_cancel, weight_comm (k - i)]
    ring
  have hstep (s : ℤ) (i : Fin 10) :
      (if i ≤ k - i then
          s + f.get i * f.get (k - i) * ((if i = k - i then 1 else 2) * weight i (k - i)) else s) =
        s + if i ≤ k - i then
          f.get i * f.get (k - i) * weight i (k - i) * (if i = k - i then 1 else 2) else 0 := by
    split_ifs <;> ring
  calc squareColumn f k
      = Fin.foldl 10 (fun s i => s + if i ≤ k - i then
          f.get i * f.get (k - i) * weight i (k - i) * (if i = k - i then 1 else 2) else 0) 0 := by
        refine congrArg (Fin.foldl 10 · (0 : ℤ)) ?_
        funext s i
        exact hstep s i
    _ = ∑ i, f.get i * f.get (k - i) * weight i (k - i) := by
        rw [foldl_add_eq_sum, zero_add]
        exact sum_pairs (Equiv.subLeft k) (sub_sub_cancel k) _ hterm
    _ = productColumn f f k := (productColumn_eq_sum f f k).symm

theorem residue_square (f : Limbs ℤ) : residue (square f) = residue f * residue f := by
  rw [square_eq_product, residue_product]

theorem value_double (h : Limbs ℤ) : value (double h) = 2 * value h := by
  rw [value_eq_sum, value_eq_sum, Finset.mul_sum]
  refine Finset.sum_congr rfl fun i _ => ?_
  simp [double, get_eq_getElem, shiftLeft_int]
  ring

theorem residue_double (h : Limbs ℤ) : residue (double h) = 2 * residue h := by
  rw [residue, value_double, Int.cast_mul, Int.cast_ofNat, residue]

end Limbs
end Edwards25519
