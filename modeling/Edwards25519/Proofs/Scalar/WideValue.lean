import Edwards25519.Proofs.Scalar.WideRange
import Edwards25519.Scalar.Order
import Mathlib.Algebra.BigOperators.Ring.Finset
import Mathlib.Data.Int.ModEq
import Mathlib.Tactic.LinearCombination
import Mathlib.Tactic.NormNum

/-! What the limbs stand for. Carries keep the number, and a fold takes a multiple of the group order
away from it. -/
namespace Edwards25519.WideLimbs

open LimbArithmetic

/-- The integer that all limbs add up to. -/
def value (s : WideLimbs ℤ) : ℤ := ∑ i, s.get i * 2 ^ (21 * i.val)

lemma value_place (s : WideLimbs ℤ) (i : Fin 24) (a : ℤ) :
    value (place s i a) = value s + (a - s.get i) * 2 ^ (21 * i.val) := by
  rw [value, value, ← sub_eq_iff_eq_add', ← Finset.sum_sub_distrib, Finset.sum_eq_single i]
  · rw [get_place, if_pos rfl]
    ring
  · intro j _ hji
    rw [get_place, if_neg hji.symm, sub_self]
  · simp

theorem value_move (s : WideLimbs ℤ) {i : Fin 24} (hi : i ≠ 23) (c : ℤ) :
    value (move s i c) = value s := by
  have hnext : (i + 1).val = i.val + 1 := by revert i; decide
  have hne : i + 1 ≠ i := fun h => by rw [h] at hnext; omega
  rw [move_eq, value_place, value_place, get_place, if_neg hne, shiftLeft_int, hnext, mul_add,
    mul_one, pow_add]
  ring

/-- Carries out of all limbs but the last keep the number. -/
theorem value_carries (c : WideLimbs ℤ → Fin 24 → ℤ) (l : List (Fin 24)) (hl : 23 ∉ l)
    (s : WideLimbs ℤ) : value (l.foldl (fun s i => move s i (c s i)) s) = value s := by
  induction l generalizing s with
  | nil => rfl
  | cons i l ih =>
    have hi : i ≠ 23 := fun hi => hl (hi ▸ List.mem_cons_self)
    rw [List.foldl_cons, ih fun h => hl (List.mem_cons_of_mem i h), value_move s hi]

/-- The limbs after a loop that adds to one of them in each round. -/
def addAll {n : ℕ} (slot : Fin n → Fin 24) (t : Fin n → ℤ) (s : WideLimbs ℤ) : WideLimbs ℤ :=
  Fin.foldl n (fun s k => place s (slot k) (s.get (slot k) + t k)) s

lemma value_addAll {n : ℕ} (slot : Fin n → Fin 24) (t : Fin n → ℤ) (s : WideLimbs ℤ) :
    value (addAll slot t s) = value s + ∑ k, t k * 2 ^ (21 * (slot k).val) := by
  induction n with
  | zero => simp [addAll]
  | succ n ih =>
    rw [addAll, Fin.foldl_succ_last, value_place, add_sub_cancel_left, Fin.sum_univ_castSucc,
      ← add_assoc]
    exact congrArg (· + _) (ih (fun k => slot k.castSucc) fun k => t k.castSucc)

lemma get_addAll {n : ℕ} (slot : Fin n → Fin 24) (t : Fin n → ℤ) (s : WideLimbs ℤ) {j : Fin 24}
    (hj : ∀ k, slot k ≠ j) : (addAll slot t s).get j = s.get j := by
  induction n with
  | zero => simp [addAll]
  | succ n ih =>
    rw [addAll, Fin.foldl_succ_last, get_place, if_neg (hj (Fin.last n))]
    exact ih (fun k => slot k.castSucc) (fun k => t k.castSucc) fun k => hj k.castSucc

lemma foldLimbs_sum :
    ∑ k, foldLimbs.get k * 2 ^ (21 * k.val) = 2 ^ 252 - (groupOrder : ℤ) := by
  decide

/-- A fold takes as many multiples of the group order away as the limb says. -/
theorem value_fold (s : WideLimbs ℤ) (i : Fin 12) :
    value (fold s i) = value s - s.get (i.addNat 12) * 2 ^ (21 * i.val) * groupOrder := by
  let slot (k : Fin 6) : Fin 24 := ⟨i.val + k.val, by omega⟩
  let t (k : Fin 6) : ℤ := s.get (i.addNat 12) * foldLimbs.get k
  have hfold : fold s i = place (addAll slot t s) (i.addNat 12) 0 := rfl
  have hkeep : (addAll slot t s).get (i.addNat 12) = s.get (i.addNat 12) :=
    get_addAll slot t s fun k => Fin.ne_of_val_ne (by simp [slot]; omega)
  have hsum : ∑ k, t k * 2 ^ (21 * (slot k).val) =
      s.get (i.addNat 12) * 2 ^ (21 * i.val) * (2 ^ 252 - groupOrder) := by
    rw [← foldLimbs_sum, Finset.mul_sum]
    refine Finset.sum_congr rfl fun k _ => ?_
    simp only [t, slot]
    ring
  rw [hfold, value_place, value_addAll, hkeep, hsum, Fin.val_addNat, mul_add, pow_add]
  ring

lemma value_folds (l : List (Fin 12)) (s : WideLimbs ℤ) :
    value (l.foldl fold s) ≡ value s [ZMOD groupOrder] := by
  induction l generalizing s with
  | nil => rfl
  | cons i l ih =>
    refine (ih (fold s i)).trans ?_
    rw [value_fold]
    exact Int.modEq_iff_dvd.mpr ⟨s.get (i.addNat 12) * 2 ^ (21 * i.val), by ring⟩

theorem value_prepare (s : WideLimbs ℤ) :
    value (prepare carryRounded s) ≡ value s [ZMOD groupOrder] := by
  have hcarry (l : List (Fin 24)) (hl : 23 ∉ l) (s : WideLimbs ℤ) :
      value (l.foldl carryRounded s) = value s := value_carries _ l hl s
  rw [prepare]
  refine (value_folds [lastFold] _).trans ?_
  rw [hcarry lowCarries (by decide)]
  refine (value_folds lowFolds _).trans ?_
  rw [hcarry highCarries (by decide)]
  exact value_folds highFolds s

theorem value_settle (s : WideLimbs ℤ) : value (settle carryFloor s) = value s :=
  value_carries _ settleCarries (by decide) s

theorem value_finish (s : WideLimbs ℤ) :
    value (finish carryFloor s) = value s - s.get 12 * groupOrder := by
  rw [finish]
  refine (value_carries _ finishCarries (by decide) _).trans ?_
  rw [value_fold]
  simp [get_eq_getElem, lastFold]

theorem value_spread (s : WideLimbs ℤ) : value (spread carryRounded s) = value s :=
  value_carries _ spreadCarries (by decide) s

lemma sum_limbs (n m : ℕ) :
    ∑ i : Fin m, n / 2 ^ (21 * i.val) % 2 ^ 21 * 2 ^ (21 * i.val) = n % 2 ^ (21 * m) := by
  induction m with
  | zero => simp [Nat.mod_one]
  | succ m ih =>
    rw [Fin.sum_univ_castSucc]
    simp only [Fin.val_castSucc, Fin.val_last, ih]
    rw [mul_add, mul_one, pow_add, Nat.mod_mul, mul_comm (_ % _)]

/-- The limbs of a number add up to it, as the last one takes all that is left. -/
theorem sum_limbOfNat (m n : ℕ) :
    ∑ i : Fin (m + 1), (limbOfNat (m + 1) n i.val : ℤ) * 2 ^ (21 * i.val) = n := by
  have hlimb (i : Fin m) : (limbOfNat (m + 1) n i.val : ℤ) * 2 ^ (21 * i.val) =
      (n / 2 ^ (21 * i.val) % 2 ^ 21 * 2 ^ (21 * i.val) : ℕ) := by
    have hne : i.val + 1 ≠ m + 1 := by omega
    simp only [limbOfNat, if_neg hne, Nat.shiftRight_eq_div_pow, Nat.one_shiftLeft]
    push_cast
    rfl
  have hlast : (limbOfNat (m + 1) n m : ℤ) = (n / 2 ^ (21 * m) : ℕ) := by
    simp only [limbOfNat, if_true, Nat.shiftRight_eq_div_pow]
    rfl
  rw [Fin.sum_univ_castSucc]
  simp only [Fin.val_castSucc, hlimb, Fin.val_last, hlast]
  rw [← Nat.cast_sum, sum_limbs]
  exact_mod_cast Nat.mod_add_div' n (2 ^ (21 * m))

theorem value_ofNat (n : ℕ) : value (ofNat n) = n := by
  have h := sum_limbOfNat 23 n
  simpa [value, ofNat, get_eq_getElem] using h

/-- The number that twelve limbs stand for. -/
def splitValue (f : Vector ℤ 12) : ℤ := ∑ i, f.get i * 2 ^ (21 * i.val)

lemma splitValue_split (n : ℕ) : splitValue (split n) = n := by
  have h := sum_limbOfNat 11 n
  simpa [splitValue, split, get_eq_getElem] using h

/-- The columns that a limb contributes to are those of the other factor, shifted. -/
lemma sum_shift (i : Fin 12) (t : Fin 12 → ℤ) :
    ∑ k : Fin 24, (if hk : i.val ≤ k.val ∧ k.val - i.val < 12 then t ⟨k.val - i.val, hk.2⟩ else 0) =
      ∑ j, t j := by
  symm
  refine Finset.sum_of_injOn (fun j : Fin 12 => (⟨i.val + j.val, by omega⟩ : Fin 24)) ?_ ?_ ?_ ?_
  · intro j _ j' _ h
    simpa [Fin.ext_iff] using h
  · simp
  · intro k _ hk
    apply dif_neg
    rintro ⟨hle, hlt⟩
    exact hk ⟨⟨k.val - i.val, hlt⟩, by simp, by simp [Fin.ext_iff]; omega⟩
  · intro j _
    simp

theorem value_columns (f g h : Vector ℤ 12) :
    value (columns f g h) = splitValue f * splitValue g + splitValue h := by
  have hstep (k : Fin 24) (s : ℤ) (i : Fin 12) :
      (if hj : i.val ≤ k.val ∧ k.val - i.val < 12 then
          s + f.get i * g.get ⟨k.val - i.val, hj.2⟩ else s) =
        s + if hj : i.val ≤ k.val ∧ k.val - i.val < 12 then
          f.get i * g.get ⟨k.val - i.val, hj.2⟩ else 0 := by
    split_ifs <;> simp
  have hcolumn (k : Fin 24) : (columns f g h).get k =
      (if hk : k.val < 12 then h.get ⟨k.val, hk⟩ else 0) + ∑ i : Fin 12,
        if hj : i.val ≤ k.val ∧ k.val - i.val < 12 then
          f.get i * g.get ⟨k.val - i.val, hj.2⟩ else 0 := by
    rw [← foldl_add_eq_sum, ← funext₂ (hstep k)]
    exact Vector.getElem_ofFn k.isLt
  have hsummand : ∑ k : Fin 24, (if hk : k.val < 12 then h.get ⟨k.val, hk⟩ else 0) * 2 ^ (21 * k.val) =
      splitValue h := by
    rw [splitValue, ← sum_shift 0]
    refine Finset.sum_congr rfl fun k _ => ?_
    by_cases hk : k.val < 12 <;> simp [hk]
  have hrow (i : Fin 12) : ∑ k : Fin 24, (if hj : i.val ≤ k.val ∧ k.val - i.val < 12 then
      f.get i * g.get ⟨k.val - i.val, hj.2⟩ else 0) * 2 ^ (21 * k.val) =
      ∑ j : Fin 12, f.get i * 2 ^ (21 * i.val) * (g.get j * 2 ^ (21 * j.val)) := by
    rw [← sum_shift i]
    refine Finset.sum_congr rfl fun k _ => ?_
    split_ifs with hj
    · have hpow : (2 : ℤ) ^ (21 * k.val) =
          2 ^ (21 * i.val) * 2 ^ (21 * (k.val - i.val)) := by
        rw [← pow_add, ← mul_add, Nat.add_sub_of_le hj.1]
      rw [hpow]
      ring
    · exact zero_mul _
  simp only [value, hcolumn, add_mul, Finset.sum_add_distrib, hsummand, Finset.sum_mul]
  rw [Finset.sum_comm, add_comm]
  simp only [hrow, splitValue, Finset.sum_mul_sum]

theorem value_mulAdd (a b c : ℕ) : value (mulAdd a b c) = a * b + c := by
  rw [mulAdd, value_spread, value_columns, splitValue_split, splitValue_split, splitValue_split]

end Edwards25519.WideLimbs
