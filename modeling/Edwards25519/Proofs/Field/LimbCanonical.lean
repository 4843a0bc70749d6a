import Edwards25519.Proofs.Field.LimbRange
import Edwards25519.Proofs.Field.LimbValue

/-! The least residue. The quotient by `2 ^ 255 - 19` is computed without a division: the number is
shifted by 255 bits, after 19 parts in `2 ^ 255` of it have been added, as its highest limb gives
them. The error is less than one, which the bound of a residue leaves room for. -/
namespace Edwards25519.Limbs

open LimbArithmetic

/-- The limbs within a bound, as checked integers. -/
lemma exists_checked {bound : Fin 10 → ℤ} {h : Limbs ℤ} (hb : ∀ i, |h.get i| ≤ bound i) :
    ∃ c : Limbs (Checked 64), Within bound c ∧
      Related (fun (c : Checked 64) n => c.value = n) c h := by
  refine ⟨h.map fun n => ⟨n, True⟩, fun i => ?_, fun i hi => ?_⟩
  · simpa [get_eq_getElem] using hb i
  · simp

lemma digits_bounds {h : Limbs ℤ} (hd : ∀ i, 0 ≤ h.get i ∧ h.get i < 2 ^ bits i) :
    0 ≤ value h ∧ value h < 2 ^ 255 := by
  simp only [Fin.forall_fin_succ, bits] at hd
  rw [value_eq_sum]
  simp [Fin.sum_univ_succ, offset] at hd ⊢
  omega

theorem quotient_int (h : Limbs ℤ) :
    quotient h = (value h + ((19 : ℤ) * h.get 9 + 2 ^ 24) / 2 ^ 25) / 2 ^ 255 := by
  have hround := shiftRightRounded_int ((19 : ℤ) * h.get 9) 25
  change Fin.foldl 10 (fun q i => shiftRight (h.get i + q) (bits i))
    (shiftRightRounded ((19 : ℤ) * h.get 9) 25) = _
  rw [hround, value_eq_sum]
  generalize ((19 : ℤ) * h.get 9 + 2 ^ 24) / 2 ^ 25 = q
  simp only [shiftRight_int, Fin.foldl_succ, Fin.foldl_zero, bits]
  simp [Fin.sum_univ_succ, offset]
  omega

/-- The highest limb gives the number up to a small part. -/
lemma value_near {h : Limbs ℤ} (hb : ∀ i, |h.get i| ≤ wordBound i) :
    |value h - h.get 9 * 2 ^ 230| ≤ 2 ^ 236 := by
  simp only [abs_le] at hb ⊢
  simp only [Fin.forall_fin_succ, wordBound] at hb
  rw [value_eq_sum]
  simp [Fin.sum_univ_succ, offset] at hb ⊢
  omega

theorem quotient_eq {h : Limbs ℤ} (hb : ∀ i, |h.get i| ≤ wordBound i) :
    quotient h = value h / (2 ^ 255 - 19) := by
  have hnear := abs_le.mp (value_near hb)
  have htop : -2 ^ 31 ≤ h.get 9 ∧ h.get 9 ≤ 2 ^ 31 := abs_le.mp (hb 9)
  rw [quotient_int]
  omega

lemma value_floors (l : List (Fin 10)) (hl : 9 ∉ l) (h : Limbs ℤ) :
    value (l.foldl carryFloor h) = value h := by
  induction l generalizing h with
  | nil => rfl
  | cons i l ih =>
    have hi : i ≠ 9 := fun hi => hl (hi ▸ List.mem_cons_self)
    rw [List.foldl_cons, ih fun h9 => hl (List.mem_cons_of_mem i h9), carryFloor, value_move,
      if_neg hi, sub_zero]

lemma value_drop (h : Limbs ℤ) :
    value (place h 9 (dropHigh (h.get 9))) = value h - h.get 9 / 2 ^ 25 * 2 ^ 255 := by
  have hlast : offset (9 : Fin 10) = 230 := rfl
  rw [value_place, dropHigh, shiftLeft_int, shiftRight_int, hlast]
  ring

theorem value_canonical {h : Limbs ℤ} (hb : ∀ i, |h.get i| ≤ wordBound i) :
    value (canonical h) = value h % (2 ^ 255 - 19) := by
  obtain ⟨c, hc, hch⟩ := exists_checked hb
  have hrel := canonical_related simulation_value hch
  have hbounds := digits_bounds (h := canonical h) fun i => by
    rw [← hrel.fin i]
    exact (digits_canonical hc).bounds i
  -- up to the last limb nothing is lost, and of it a multiple of `2 ^ 255`
  obtain ⟨k, hk⟩ : ∃ k, value (canonical h) = value h + 19 * quotient h - k * 2 ^ 255 := by
    have hfloors := value_floors [0, 1, 2, 3, 4, 5, 6, 7, 8] (by decide)
      (place h 0 (h.get 0 + 19 * quotient h))
    have hfirst : offset (0 : Fin 10) = 0 := rfl
    rw [value_place, hfirst, pow_zero, mul_one, add_sub_cancel_left] at hfloors
    exact ⟨_, (value_drop _).trans (sub_left_inj.mpr hfloors)⟩
  rw [quotient_eq hb] at hk
  omega

end Edwards25519.Limbs
