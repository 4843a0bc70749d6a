import Edwards25519.Proofs.Scalar.WideRange
import Edwards25519.Scalar.Order

/-! Digits of 21 bits. A limb that is carried out of is a digit, and stays one if no later carry goes into
it. -/
namespace Edwards25519.WideLimbs

open LimbArithmetic

lemma get_carryFloor (s : WideLimbs ℤ) (i : Fin 24) :
    (carryFloor s i).get i = s.get i % 2 ^ 21 := by
  change (move s i (shiftRight (s.get i) 21)).get i = _
  rw [move_eq, get_place, if_pos rfl, shiftLeft_int, shiftRight_int, mul_comm, ← Int.emod_def]

lemma get_carryFloor_of_ne (s : WideLimbs ℤ) {i j : Fin 24} (hi : i ≠ j) (hnext : i + 1 ≠ j) :
    (carryFloor s i).get j = s.get j := by
  change (move s i (shiftRight (s.get i) 21)).get j = _
  rw [move_eq, get_place, if_neg hi, get_place, if_neg hnext]

lemma get_carries_of_ne {l : List (Fin 24)} {j : Fin 24} (hl : ∀ i ∈ l, i ≠ j ∧ i + 1 ≠ j)
    (s : WideLimbs ℤ) : (l.foldl carryFloor s).get j = s.get j := by
  induction l generalizing s with
  | nil => rfl
  | cons i l ih =>
    obtain ⟨⟨hi, hnext⟩, hl⟩ := List.forall_mem_cons.mp hl
    rw [List.foldl_cons, ih hl, get_carryFloor_of_ne s hi hnext]

/-- A limb that is carried out of stays a digit if no later carry goes into it. -/
lemma digit_carries {l : List (Fin 24)} (hl : l.Pairwise fun j i => i ≠ j ∧ i + 1 ≠ j)
    (s : WideLimbs ℤ) {j : Fin 24} (hj : j ∈ l) :
    0 ≤ (l.foldl carryFloor s).get j ∧ (l.foldl carryFloor s).get j < 2 ^ 21 := by
  induction l generalizing s with
  | nil => exact absurd hj List.not_mem_nil
  | cons i l ih =>
    obtain ⟨hi, hl⟩ := List.pairwise_cons.mp hl
    rcases List.mem_cons.mp hj with rfl | hj
    · rw [List.foldl_cons, get_carries_of_ne hi, get_carryFloor]
      exact ⟨Int.emod_nonneg _ (by decide), Int.emod_lt_of_pos _ (by decide)⟩
    · exact ih hl (carryFloor s i) hj

lemma digit_finish (s : WideLimbs ℤ) (j : Fin 24) (hj : j.val < 11) :
    0 ≤ (finish carryFloor s).get j ∧ (finish carryFloor s).get j < 2 ^ 21 := by
  have hmem : ∀ j : Fin 24, j.val < 11 → j ∈ finishCarries := by decide
  exact digit_carries (by decide) (fold s lastFold) (hmem j hj)

/-- The last limb has what the digits below leave of the residue. -/
lemma packable_of_lowValue {s : WideLimbs ℤ}
    (hdigit : ∀ i : Fin 24, i.val < 11 → 0 ≤ s.get i ∧ s.get i < 2 ^ 21)
    (hlow : 0 ≤ lowValue s ∧ lowValue s < groupOrder) : Packable s := by
  have hdigits (i : Fin 11) :
      0 ≤ s.get (i.castLE (by decide)) ∧ s.get (i.castLE (by decide)) < 2 ^ 21 :=
    hdigit _ i.isLt
  have horder : (groupOrder : ℤ) = 2 ^ 252 + 27742317777372353535851937790883648493 := rfl
  refine ⟨hdigit, ?_⟩
  rw [lowValue_eq_sum, horder] at hlow
  simp only [Fin.forall_fin_succ] at hdigits
  simp [Fin.sum_univ_succ] at hdigits hlow ⊢
  omega

end Edwards25519.WideLimbs
