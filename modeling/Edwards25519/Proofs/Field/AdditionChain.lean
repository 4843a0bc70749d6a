import Edwards25519.Proofs.Field.Encoding
import Edwards25519.Proofs.Field.Powers

/-! The inverse and the power with exponent `2 ^ 252 - 3` as addition chains: squares and products, one after
the other, on four temporaries that are assigned again and again. A step makes carried limbs out of operands,
so everything that a chain computes on the way is an operand. -/
namespace Edwards25519

namespace AdditionChain

/-- What a chain reads and assigns. -/
inductive Register where
  | input
  | t0
  | t1
  | t2
  | t3
  | result
  deriving DecidableEq

inductive Step where
  | square (target source : Register)
  | multiply (target left right : Register)

/-- The source squared `n` times over. Nothing is assigned if `n` is zero. -/
def squares (target source : Register) : ℕ → List Step
  | 0 => []
  | n + 1 => .square target source :: squares target target n

section run

variable {F : Type} [Coordinate F]

def Step.apply (state : Register → F) : Step → Register → F
  | square target source => Function.update state target (Coordinate.square (state source))
  | multiply target left right => Function.update state target (state left * state right)

/-- Before it is assigned, a register holds the input. -/
def run (steps : List Step) (x : F) : Register → F := steps.foldl Step.apply fun _ => x

lemma foldl_squares (target source : Register) (n : ℕ) (state : Register → F) :
    (squares target source (n + 1)).foldl Step.apply state =
      Function.update state target (Coordinate.squareTimes (n + 1) (state source)) := by
  induction n generalizing source state with
  | zero => rfl
  | succ n ih =>
    rw [squares, List.foldl_cons, ih, Step.apply, Function.update_self, Function.update_idem]
    rfl

end run

open Register Step

/-- The power with exponent `2 ^ 255 - 21`. -/
def invertSteps : List Step := List.flatten [
  [square t0 input], squares t1 t0 2, [multiply t1 input t1, multiply t0 t0 t1],
  [square t2 t0, multiply t1 t1 t2], squares t2 t1 5, [multiply t1 t2 t1],
  squares t2 t1 10, [multiply t2 t2 t1], squares t3 t2 20, [multiply t2 t3 t2],
  squares t2 t2 10, [multiply t1 t2 t1], squares t2 t1 50, [multiply t2 t2 t1],
  squares t3 t2 100, [multiply t2 t3 t2], squares t2 t2 50, [multiply t1 t2 t1],
  squares t1 t1 5, [multiply result t1 t0]]

/-- The power with exponent `2 ^ 252 - 3`. -/
def pow252Steps : List Step := List.flatten [
  [square t0 input], squares t1 t0 2, [multiply t1 input t1, multiply t0 t0 t1],
  [square t0 t0, multiply t0 t1 t0], squares t1 t0 5, [multiply t0 t1 t0],
  squares t1 t0 10, [multiply t1 t1 t0], squares t2 t1 20, [multiply t1 t2 t1],
  squares t1 t1 10, [multiply t0 t1 t0], squares t1 t0 50, [multiply t1 t1 t0],
  squares t2 t1 100, [multiply t1 t2 t1], squares t1 t1 50, [multiply t0 t1 t0],
  squares t0 t0 2, [multiply result t0 input]]

section run

variable {F : Type} [Coordinate F]

theorem run_invertSteps (x : F) : run invertSteps x result = Coordinate.invert x := by
  simp only [run, invertSteps, List.flatten_cons, List.flatten_nil, List.foldl_append,
    List.foldl_cons, List.foldl_nil, foldl_squares, Step.apply, Function.update_self,
    Function.update_of_ne, ne_eq, reduceCtorEq, not_false_eq_true]
  rfl

theorem run_pow252Steps (x : F) : run pow252Steps x result = Coordinate.pow252 x := by
  simp only [run, pow252Steps, List.flatten_cons, List.flatten_nil, List.foldl_append,
    List.foldl_cons, List.foldl_nil, foldl_squares, Step.apply, Function.update_self,
    Function.update_of_ne, ne_eq, reduceCtorEq, not_false_eq_true]
  rfl

end run

/-- A step assigns carried limbs, and leaves the other registers as they are. -/
lemma isOperand_apply {state : Register → FieldElement} (h : ∀ r, (state r).IsOperand) (step : Step)
    (r : Register) : (step.apply state r).IsOperand := by
  cases step with
  | square target source =>
    rw [Step.apply, Function.update_apply]
    split
    · exact (h source).carried_square.isOperand
    · exact h r
  | multiply target left right =>
    rw [Step.apply, Function.update_apply]
    split
    · exact ((h left).carried_mul (h right)).isOperand
    · exact h r

/-- Whatever the steps are, they compute operands from operands. -/
theorem isOperand_foldl (steps : List Step) {state : Register → FieldElement}
    (h : ∀ r, (state r).IsOperand) : ∀ r, (steps.foldl Step.apply state r).IsOperand := by
  induction steps generalizing state with
  | nil => exact h
  | cons step steps ih => exact ih (isOperand_apply h step)

end AdditionChain

namespace FieldElement

open AdditionChain Coordinate

variable {z : FieldElement}

lemma invert_carried (hz : z.IsOperand) :
    (invert z).Carried ∧ (invert z).residue = z.residue ^ (fieldOrder - 2) := by
  rw [← Residue.invert_eq_pow]
  exact represents_one_iff.mp (factors_represents.invert hz.representsFactor)

lemma pow252_carried (hz : z.IsOperand) :
    (pow252 z).Carried ∧ (pow252 z).residue = z.residue ^ (2 ^ 252 - 3) := by
  rw [← Residue.pow252_eq]
  exact represents_one_iff.mp (factors_represents.pow252 hz.representsFactor)

/-- The addition chains compute the powers that they are meant to, and so the inverse, which is zero for
zero. All that they compute on the way are operands. -/
theorem powers_exact (hz : z.IsOperand) :
    ((invert z).Carried ∧ (invert z).residue = z.residue ^ (fieldOrder - 2)) ∧
    ((pow252 z).Carried ∧ (pow252 z).residue = z.residue ^ (2 ^ 252 - 3)) ∧
    (z.residue ≠ 0 → (z * invert z == 1) = true) ∧
    (z.residue = 0 → (invert z == 0) = true) ∧
    (run invertSteps z .result = invert z ∧ run pow252Steps z .result = pow252 z) ∧
    ∀ steps, steps <+: invertSteps ∨ steps <+: pow252Steps → ∀ r, (run steps z r).IsOperand := by
  obtain ⟨hcarried, hinvert⟩ := invert_carried hz
  refine ⟨⟨hcarried, hinvert⟩, pow252_carried hz, fun hne => congruent_iff.mpr ?_,
    fun hzero => congruent_iff.mpr ?_, ⟨run_invertSteps z, run_pow252Steps z⟩,
    fun steps _ => isOperand_foldl steps fun _ => hz⟩
  · rw [hz.residue_mul hcarried.isOperand, hinvert, ← Residue.invert_eq_pow, Residue.invert_eq,
      mul_inv_cancel₀ hne, residue_one]
  · rw [hinvert, hzero, zero_pow (by decide), residue_zero]

/-- The largest limbs of an operand, and limbs that add up to `2 ^ 255 - 19` and so stand for zero. -/
theorem powers_exact_largest :
    let x := ofLimbs 110729625 (-55364812) 110729625 (-55364812) 110729625
      (-55364812) 110729625 (-55364812) 110729625 (-55364812)
    let zero := ofLimbs (-19) 0 0 0 0 0 0 0 0 33554432
    x.IsOperand ∧ (invert x).residue = x.residue ^ (fieldOrder - 2) ∧
    x.residue ≠ 0 ∧ (x * invert x == 1) = true ∧
    zero.IsOperand ∧ zero.residue = 0 ∧ (invert zero == 0) = true ∧
    (∀ r, (run (invertSteps.take 100) x r).IsOperand) := by
  intro x zero
  have hx : x.IsOperand := by
    have hlimb : ∀ i, 100 * |(x.limbs.get i).toInt| ≤ 165 * 2 ^ Limbs.bits i := by decide
    exact hlimb
  have hne : x.residue ≠ 0 := by
    rw [ne_eq, residue_eq_zero_iff]
    decide +kernel
  have hzero : zero.IsOperand := by
    have hlimb : ∀ i, 100 * |(zero.limbs.get i).toInt| ≤ 165 * 2 ^ Limbs.bits i := by decide
    exact hlimb
  have hresidue : zero.residue = 0 := by
    rw [residue_eq_zero_iff]
    decide +kernel
  obtain ⟨⟨-, hpower⟩, -, hinverse, -, -, hsteps⟩ := powers_exact hx
  obtain ⟨-, -, -, hvanish, -⟩ := powers_exact hzero
  exact ⟨hx, hpower, hne, hinverse hne, hzero, hresidue, hvanish hresidue,
    hsteps _ (.inl (List.take_prefix 100 invertSteps))⟩

end FieldElement

end Edwards25519
