import Edwards25519.Proofs.Scalar.Reduction
import Edwards25519.Proofs.Word.Exact

/-! The reduction modulo the group order as a list of folds and carries. Every step remembers what went into
it, so that nothing has overflowed anywhere if the last limbs fit. -/
namespace Edwards25519.WideLimbs

open LimbArithmetic

/-- A fold of limb `i + 12`, or a carry out of limb `i`. -/
inductive Step where
  | fold (i : Fin 12)
  | rounded (i : Fin 24)
  | floor (i : Fin 24)

def prepareSteps : List Step :=
  highFolds.map .fold ++ highCarries.map .rounded ++ lowFolds.map .fold ++ lowCarries.map .rounded ++
    [.fold lastFold]

def settleSteps : List Step := settleCarries.map .floor

def finishSteps : List Step := .fold lastFold :: finishCarries.map .floor

/-- The steps of a reduction. -/
def reduceSteps : List Step := prepareSteps ++ settleSteps ++ finishSteps

/-- The steps after a product. -/
def spreadSteps : List Step := spreadCarries.map .rounded

section steps

variable {α : Type} [LimbArithmetic α]

def Step.apply (s : WideLimbs α) : Step → WideLimbs α
  | fold i => WideLimbs.fold s i
  | rounded i => carryRounded s i
  | floor i => carryFloor s i

/-- The columns of a product and a summand, before any carry. -/
def productLimbs (a b c : ℕ) : WideLimbs α := columns (split a) (split b) (split c)

theorem reduce_eq_foldl (s : WideLimbs α) : reduce s = reduceSteps.foldl Step.apply s := by
  simp only [reduceSteps, prepareSteps, settleSteps, finishSteps, List.foldl_append, List.foldl_map,
    List.foldl_cons, List.foldl_nil]
  rfl

theorem mulAdd_eq_foldl (a b c : ℕ) : (mulAdd a b c : WideLimbs α) =
    spreadSteps.foldl Step.apply (productLimbs a b c) := by
  rw [spreadSteps, List.foldl_map]
  rfl

end steps

section simulation

variable {α β : Type} [LimbArithmetic α] [LimbArithmetic β] {R : α → β → Prop} (hR : Simulation R)
include hR

theorem productLimbs_related (a b c : ℕ) :
    Related R (productLimbs a b c : WideLimbs α) (productLimbs a b c : WideLimbs β) :=
  columns_related hR (split_related hR a) (split_related hR b) (split_related hR c)

theorem step_related (step : Step) {s : WideLimbs α} {s' : WideLimbs β} (hs : Related R s s') :
    Related R (step.apply s) (step.apply s') := by
  cases step with
  | fold i => exact fold_related hR hs i
  | rounded i => exact carryRounded_related hR i hs
  | floor i => exact carryFloor_related hR i hs

end simulation

section fits

variable {w : ℕ} {s : WideLimbs (Checked w)}

lemma fits_of_move {i : Fin 24} {c : Checked w} (h : ∀ k, ((move s i c).get k).fits) :
    ∀ k, (s.get k).fits :=
  fits_of_place (i := i + 1) And.left (fits_of_place (i := i) And.left h)

/-- The limb that a fold clears is a factor of what it adds below. -/
lemma fits_of_fold {i : Fin 12} (h : ∀ k, ((fold s i).get k).fits) (k : Fin 24) :
    (s.get k).fits := by
  let slot (k : Fin 6) : Fin 24 := ⟨i.val + k.val, by omega⟩
  let t (k : Fin 6) : Checked w := s.get (i.addNat 12) * (foldLimbs.get k : Checked w)
  have hadds (k : Fin 24) (hk : i.addNat 12 ≠ k) :
      (s.get k).fits ∧ ∀ j, slot j = k → (t j).fits := by
    have hfits := h k
    change ((place (Fin.foldl 6 (fun s k => place s (slot k) (s.get (slot k) + t k)) s)
      (i.addNat 12) _).get k).fits at hfits
    rw [get_place, if_neg hk] at hfits
    exact fits_of_adds hfits
  by_cases hk : i.addNat 12 = k
  · have hne : i.addNat 12 ≠ slot 0 := Fin.ne_of_val_ne (by simp [slot])
    exact hk ▸ ((hadds (slot 0) hne).2 0 rfl).1
  · exact (hadds k hk).1

/-- No step forgets that a limb did not fit. -/
theorem fits_of_step (step : Step) (h : ∀ k, ((step.apply s).get k).fits) :
    ∀ k, (s.get k).fits := by
  cases step with
  | fold i => exact fits_of_fold h
  | rounded i => exact fits_of_move h
  | floor i => exact fits_of_move h

end fits

/-- A run of steps is exact if the limbs that it ends with fit. -/
theorem exactRun_of_fit {steps : List Step} {c : WideLimbs (Checked 64)} {v : WideLimbs Int64}
    (hcv : Related Stands c v) (hfit : Fit (steps.foldl Step.apply c)) :
    ExactRun Step.apply Step.apply steps c v :=
  exactRun_of_fits (fun _ step => fits_of_step step) (fun step => step_related simulation_int64 step)
    hcv hfit.fits

end Edwards25519.WideLimbs
