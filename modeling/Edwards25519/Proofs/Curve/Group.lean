import Mathlib.Algebra.Field.Basic
import Mathlib.Algebra.Group.Even
import Mathlib.Algebra.Module.Basic
import Mathlib.Tactic.Abel
import Mathlib.Tactic.LinearCombination
import Mathlib.Tactic.Ring

/-! The curve `-x ^ 2 + y ^ 2 = 1 + d * x ^ 2 * y ^ 2` as a group. Over a field where `-1` is a square
and `d` is not, the addition law has no exceptions: its denominators never vanish. Associativity is
one polynomial identity for each coordinate. -/
namespace Edwards25519

/-- The coefficient of the curve, and what makes its addition law complete. -/
structure EdwardsCurve (K : Type) [Field K] where
  d : K
  i : K
  i_sq : i ^ 2 = -1
  d_nonsquare : ¬ IsSquare d
  two_ne_zero : (2 : K) ≠ 0

namespace EdwardsCurve

variable {K : Type} [Field K] (E : EdwardsCurve K)

def On (x y : K) : Prop := y ^ 2 - x ^ 2 = 1 + E.d * x ^ 2 * y ^ 2

/-- The term that the two denominators of a sum add to one and take from one. -/
def cross (x₁ y₁ x₂ y₂ : K) : K := E.d * x₁ * x₂ * y₁ * y₂

variable {E} {x₁ y₁ x₂ y₂ x₃ y₃ : K}

/-- With `i * x` in place of `x` the curve is the one with coefficient `-d`, and there the square of
the sum of the coordinates exhibits `d` as a square unless the sum is zero. -/
lemma sum_eq_zero_of_cross (h₁ : E.On x₁ y₁) (h₂ : E.On x₂ y₂)
    (h : E.cross x₁ y₁ x₂ y₂ ^ 2 = 1) : E.i * x₂ + y₂ = 0 := by
  by_contra hne
  unfold On at h₁ h₂
  unfold cross at h
  have hx : x₁ ≠ 0 := by rintro rfl; simp at h
  have hy : y₁ ≠ 0 := by rintro rfl; simp at h
  apply E.d_nonsquare
  refine ⟨(E.i * x₁ + E.cross x₁ y₁ x₂ y₂ * y₁) / (x₁ * y₁ * (E.i * x₂ + y₂)), ?_⟩
  have hden : x₁ * y₁ * (E.i * x₂ + y₂) ≠ 0 := mul_ne_zero (mul_ne_zero hx hy) hne
  rw [div_mul_div_comm, eq_div_iff (mul_ne_zero hden hden)]
  unfold cross
  linear_combination -h₁ + E.d * x₁ ^ 2 * y₁ ^ 2 * h₂ +
    (E.d * x₁ ^ 2 * x₂ ^ 2 * y₁ ^ 2 - x₁ ^ 2) * E.i_sq + (1 - y₁ ^ 2) * h

/-- The denominators of a sum of two points do not vanish. -/
theorem cross_sq_ne_one (h₁ : E.On x₁ y₁) (h₂ : E.On x₂ y₂) :
    E.cross x₁ y₁ x₂ y₂ ^ 2 ≠ 1 := by
  intro h
  have hneg : E.On x₂ (-y₂) := by unfold On at h₂ ⊢; linear_combination h₂
  have hplus := sum_eq_zero_of_cross h₁ h₂ h
  have hminus := sum_eq_zero_of_cross h₁ hneg (by unfold cross at h ⊢; linear_combination h)
  have hy : y₂ = 0 := by
    refine (mul_eq_zero.mp ?_).resolve_left E.two_ne_zero
    linear_combination hplus - hminus
  simp [cross, hy] at h

lemma one_add_cross_ne_zero (h₁ : E.On x₁ y₁) (h₂ : E.On x₂ y₂) :
    1 + E.cross x₁ y₁ x₂ y₂ ≠ 0 := fun h =>
  cross_sq_ne_one h₁ h₂ (by linear_combination (E.cross x₁ y₁ x₂ y₂ - 1) * h)

lemma one_sub_cross_ne_zero (h₁ : E.On x₁ y₁) (h₂ : E.On x₂ y₂) :
    1 - E.cross x₁ y₁ x₂ y₂ ≠ 0 := fun h =>
  cross_sq_ne_one h₁ h₂ (by linear_combination -(E.cross x₁ y₁ x₂ y₂ + 1) * h)

variable (E) in
def sumX (x₁ y₁ x₂ y₂ : K) : K := (x₁ * y₂ + y₁ * x₂) / (1 + E.cross x₁ y₁ x₂ y₂)

variable (E) in
def sumY (x₁ y₁ x₂ y₂ : K) : K := (y₁ * y₂ + x₁ * x₂) / (1 - E.cross x₁ y₁ x₂ y₂)

lemma sumX_mul (h₁ : E.On x₁ y₁) (h₂ : E.On x₂ y₂) :
    E.sumX x₁ y₁ x₂ y₂ * (1 + E.cross x₁ y₁ x₂ y₂) = x₁ * y₂ + y₁ * x₂ :=
  div_mul_cancel₀ _ (one_add_cross_ne_zero h₁ h₂)

lemma sumY_mul (h₁ : E.On x₁ y₁) (h₂ : E.On x₂ y₂) :
    E.sumY x₁ y₁ x₂ y₂ * (1 - E.cross x₁ y₁ x₂ y₂) = y₁ * y₂ + x₁ * x₂ :=
  div_mul_cancel₀ _ (one_sub_cross_ne_zero h₁ h₂)

/-- The points are closed under addition. -/
theorem on_sum (h₁ : E.On x₁ y₁) (h₂ : E.On x₂ y₂) :
    E.On (E.sumX x₁ y₁ x₂ y₂) (E.sumY x₁ y₁ x₂ y₂) := by
  have hX := sumX_mul h₁ h₂
  have hY := sumY_mul h₁ h₂
  have hne : (1 + E.cross x₁ y₁ x₂ y₂) * (1 - E.cross x₁ y₁ x₂ y₂) ≠ 0 :=
    mul_ne_zero (one_add_cross_ne_zero h₁ h₂) (one_sub_cross_ne_zero h₁ h₂)
  generalize E.sumX x₁ y₁ x₂ y₂ = X at hX ⊢
  generalize E.sumY x₁ y₁ x₂ y₂ = Y at hY ⊢
  set k := E.cross x₁ y₁ x₂ y₂ with hk
  apply mul_right_cancel₀ (pow_ne_zero 2 hne)
  calc (Y ^ 2 - X ^ 2) * ((1 + k) * (1 - k)) ^ 2
      = (Y * (1 - k)) ^ 2 * (1 + k) ^ 2 - (X * (1 + k)) ^ 2 * (1 - k) ^ 2 := by ring
    _ = (y₁ * y₂ + x₁ * x₂) ^ 2 * (1 + k) ^ 2 - (x₁ * y₂ + y₁ * x₂) ^ 2 * (1 - k) ^ 2 := by
        rw [hX, hY]
    _ = (1 - k ^ 2) ^ 2 + E.d * (x₁ * y₂ + y₁ * x₂) ^ 2 * (y₁ * y₂ + x₁ * x₂) ^ 2 := by
        unfold On at h₁ h₂
        rw [hk, cross]
        linear_combination
          (E.d ^ 2 * x₂ ^ 4 * y₂ ^ 4 * (E.d * x₁ ^ 2 * y₁ ^ 2 - x₁ ^ 2 + y₁ ^ 2 - 1)
            - E.d * x₂ ^ 2 * y₂ ^ 2 * (x₂ ^ 2 - y₂ ^ 2) * (x₁ ^ 2 - y₁ ^ 2)
            - 2 * E.d * x₂ ^ 2 * y₂ ^ 2 * (x₂ ^ 2 * y₂ ^ 2 + 1)
            - 2 * x₂ ^ 2 * y₂ ^ 2 * (x₂ ^ 2 - y₂ ^ 2 + 2) + x₂ ^ 4 + y₂ ^ 4) * h₁ +
          (E.d * x₂ ^ 2 * y₂ ^ 2 * (x₁ ^ 4 + 2 * x₁ ^ 2 + y₁ ^ 4 - 2 * y₁ ^ 2 + 1)
            + 2 * x₂ ^ 2 * y₂ ^ 2 * (x₁ ^ 2 - y₁ ^ 2 + 1)
            - (x₁ ^ 2 - y₁ ^ 2 + 1) * (x₂ ^ 2 - y₂ ^ 2) + 1) * h₂
    _ = (1 - k ^ 2) ^ 2 + E.d * (X * (1 + k)) ^ 2 * (Y * (1 - k)) ^ 2 := by rw [hX, hY]
    _ = (1 + E.d * X ^ 2 * Y ^ 2) * ((1 + k) * (1 - k)) ^ 2 := by ring

/-! A sum with a third point, over the denominators of the first two. -/

lemma cross_sum (h₁ : E.On x₁ y₁) (h₂ : E.On x₂ y₂) (x₃ y₃ : K) :
    E.cross (E.sumX x₁ y₁ x₂ y₂) (E.sumY x₁ y₁ x₂ y₂) x₃ y₃ * (1 - E.cross x₁ y₁ x₂ y₂ ^ 2) =
      E.d * (x₁ * y₂ + y₁ * x₂) * (y₁ * y₂ + x₁ * x₂) * x₃ * y₃ := by
  rw [← sumX_mul h₁ h₂, ← sumY_mul h₁ h₂]
  simp only [cross]
  ring

variable (E) in
/-- The denominator of the first coordinate of a sum of three points, and with `-x₃` in place of `x₃`
that of the second one. -/
def denominator (x₁ y₁ x₂ y₂ x₃ y₃ : K) : K :=
  1 - E.cross x₁ y₁ x₂ y₂ ^ 2 + E.d * (x₁ * y₂ + y₁ * x₂) * (y₁ * y₂ + x₁ * x₂) * x₃ * y₃

lemma denominator_ne_zero (h₁ : E.On x₁ y₁) (h₂ : E.On x₂ y₂) (h₃ : E.On x₃ y₃) :
    E.denominator x₁ y₁ x₂ y₂ x₃ y₃ ≠ 0 := by
  have hk : 1 - E.cross x₁ y₁ x₂ y₂ ^ 2 ≠ 0 := sub_ne_zero.mpr (cross_sq_ne_one h₁ h₂).symm
  have h := mul_ne_zero (one_add_cross_ne_zero (on_sum h₁ h₂) h₃) hk
  rwa [add_mul, one_mul, cross_sum h₁ h₂] at h

lemma sumX_sum_mul (h₁ : E.On x₁ y₁) (h₂ : E.On x₂ y₂) (h₃ : E.On x₃ y₃) :
    E.sumX (E.sumX x₁ y₁ x₂ y₂) (E.sumY x₁ y₁ x₂ y₂) x₃ y₃ * E.denominator x₁ y₁ x₂ y₂ x₃ y₃ =
      (x₁ * y₂ + y₁ * x₂) * (1 - E.cross x₁ y₁ x₂ y₂) * y₃ +
        (y₁ * y₂ + x₁ * x₂) * (1 + E.cross x₁ y₁ x₂ y₂) * x₃ := by
  rw [denominator, ← cross_sum h₁ h₂ x₃ y₃]
  linear_combination (1 - E.cross x₁ y₁ x₂ y₂ ^ 2) * sumX_mul (on_sum h₁ h₂) h₃ +
    (1 - E.cross x₁ y₁ x₂ y₂) * y₃ * sumX_mul h₁ h₂ +
    (1 + E.cross x₁ y₁ x₂ y₂) * x₃ * sumY_mul h₁ h₂

lemma sumY_sum_mul (h₁ : E.On x₁ y₁) (h₂ : E.On x₂ y₂) (h₃ : E.On x₃ y₃) :
    E.sumY (E.sumX x₁ y₁ x₂ y₂) (E.sumY x₁ y₁ x₂ y₂) x₃ y₃ *
        E.denominator x₁ y₁ x₂ y₂ (-x₃) y₃ =
      (y₁ * y₂ + x₁ * x₂) * (1 + E.cross x₁ y₁ x₂ y₂) * y₃ +
        (x₁ * y₂ + y₁ * x₂) * (1 - E.cross x₁ y₁ x₂ y₂) * x₃ := by
  have hc := cross_sum h₁ h₂ x₃ y₃
  rw [denominator]
  linear_combination (1 - E.cross x₁ y₁ x₂ y₂ ^ 2) * sumY_mul (on_sum h₁ h₂) h₃ +
    (1 - E.cross x₁ y₁ x₂ y₂) * x₃ * sumX_mul h₁ h₂ +
    (1 + E.cross x₁ y₁ x₂ y₂) * y₃ * sumY_mul h₁ h₂ +
    E.sumY (E.sumX x₁ y₁ x₂ y₂) (E.sumY x₁ y₁ x₂ y₂) x₃ y₃ * hc

lemma on_neg (h : E.On x₁ y₁) : E.On (-x₁) y₁ := by unfold On at h ⊢; linear_combination h

/-- The sum of the first two points plus the third one is the sum of the last two plus the first. -/
lemma sumX_rotate (h₁ : E.On x₁ y₁) (h₂ : E.On x₂ y₂) (h₃ : E.On x₃ y₃) :
    E.sumX (E.sumX x₁ y₁ x₂ y₂) (E.sumY x₁ y₁ x₂ y₂) x₃ y₃ =
      E.sumX (E.sumX x₃ y₃ x₂ y₂) (E.sumY x₃ y₃ x₂ y₂) x₁ y₁ := by
  apply mul_right_cancel₀ (mul_ne_zero (denominator_ne_zero h₁ h₂ h₃)
    (denominator_ne_zero h₃ h₂ h₁))
  rw [← mul_assoc, sumX_sum_mul h₁ h₂ h₃, mul_comm (E.denominator _ _ _ _ _ _), ← mul_assoc,
    sumX_sum_mul h₃ h₂ h₁]
  unfold On at h₁ h₂ h₃
  unfold denominator cross
  linear_combination
    E.d * x₂ * y₂ * (x₁ * (-(x₂ ^ 3 * (1 + E.d * y₂ ^ 2) * x₃ ^ 2 * y₃)
      - x₂ ^ 2 * y₂ * x₃ * (x₃ ^ 2 + 1) + x₂ * y₂ ^ 2 * y₃ * (y₃ ^ 2 - 1)
      + y₂ ^ 3 * (1 - E.d * x₂ ^ 2) * x₃ * y₃ ^ 2)
      + y₁ * (x₂ ^ 3 * (1 + E.d * y₂ ^ 2) * x₃ * y₃ ^ 2 + x₂ ^ 2 * y₂ * y₃ * (y₃ ^ 2 - 1)
      - x₂ * y₂ ^ 2 * x₃ * (x₃ ^ 2 + 1) - y₂ ^ 3 * (1 - E.d * x₂ ^ 2) * x₃ ^ 2 * y₃)) * h₁ +
    E.d * x₂ * y₂ * (x₂ * (x₁ * (x₁ ^ 2 + 1) * x₃ ^ 2 * y₃ - x₁ ^ 2 * y₁ * x₃ * (x₃ ^ 2 + 1)
      - x₁ * y₁ ^ 2 * y₃ * (y₃ ^ 2 - 1) + y₁ * (y₁ ^ 2 - 1) * x₃ * y₃ ^ 2)
      + y₂ * (x₁ * (x₁ ^ 2 + 1) * x₃ * y₃ ^ 2 - x₁ ^ 2 * y₁ * y₃ * (y₃ ^ 2 - 1)
      - x₁ * y₁ ^ 2 * x₃ * (x₃ ^ 2 + 1) + y₁ * (y₁ ^ 2 - 1) * x₃ ^ 2 * y₃)) * h₂ +
    E.d * x₂ * y₂ * (x₃ * (x₂ ^ 2 * y₂ * x₁ * (x₁ ^ 2 + 1)
      + x₂ ^ 3 * (1 + E.d * y₂ ^ 2) * x₁ ^ 2 * y₁ - y₂ ^ 3 * (1 - E.d * x₂ ^ 2) * x₁ * y₁ ^ 2
      - x₂ * y₂ ^ 2 * y₁ * (y₁ ^ 2 - 1))
      + y₃ * (x₂ * y₂ ^ 2 * x₁ * (x₁ ^ 2 + 1) + y₂ ^ 3 * (1 - E.d * x₂ ^ 2) * x₁ ^ 2 * y₁
      - x₂ ^ 3 * (1 + E.d * y₂ ^ 2) * x₁ * y₁ ^ 2 - x₂ ^ 2 * y₂ * y₁ * (y₁ ^ 2 - 1))) * h₃

lemma sumY_rotate (h₁ : E.On x₁ y₁) (h₂ : E.On x₂ y₂) (h₃ : E.On x₃ y₃) :
    E.sumY (E.sumX x₁ y₁ x₂ y₂) (E.sumY x₁ y₁ x₂ y₂) x₃ y₃ =
      E.sumY (E.sumX x₃ y₃ x₂ y₂) (E.sumY x₃ y₃ x₂ y₂) x₁ y₁ := by
  apply mul_right_cancel₀ (mul_ne_zero (denominator_ne_zero h₁ h₂ (on_neg h₃))
    (denominator_ne_zero h₃ h₂ (on_neg h₁)))
  rw [← mul_assoc, sumY_sum_mul h₁ h₂ h₃, mul_comm (E.denominator _ _ _ _ _ _), ← mul_assoc,
    sumY_sum_mul h₃ h₂ h₁]
  unfold On at h₁ h₂ h₃
  unfold denominator cross
  linear_combination
    E.d * x₂ * y₂ * (x₁ * (x₂ ^ 3 * (1 + E.d * y₂ ^ 2) * x₃ * y₃ ^ 2
      + x₂ ^ 2 * y₂ * y₃ * (y₃ ^ 2 - 1) - x₂ * y₂ ^ 2 * x₃ * (x₃ ^ 2 + 1)
      - y₂ ^ 3 * (1 - E.d * x₂ ^ 2) * x₃ ^ 2 * y₃)
      + y₁ * (-(x₂ ^ 3 * (1 + E.d * y₂ ^ 2) * x₃ ^ 2 * y₃) - x₂ ^ 2 * y₂ * x₃ * (x₃ ^ 2 + 1)
      + x₂ * y₂ ^ 2 * y₃ * (y₃ ^ 2 - 1) + y₂ ^ 3 * (1 - E.d * x₂ ^ 2) * x₃ * y₃ ^ 2)) * h₁ +
    E.d * x₂ * y₂ * (x₂ * (-(x₁ * (x₁ ^ 2 + 1) * x₃ * y₃ ^ 2) + x₁ ^ 2 * y₁ * y₃ * (y₃ ^ 2 - 1)
      + x₁ * y₁ ^ 2 * x₃ * (x₃ ^ 2 + 1) - y₁ * (y₁ ^ 2 - 1) * x₃ ^ 2 * y₃)
      + y₂ * (-(x₁ * (x₁ ^ 2 + 1) * x₃ ^ 2 * y₃) + x₁ ^ 2 * y₁ * x₃ * (x₃ ^ 2 + 1)
      + x₁ * y₁ ^ 2 * y₃ * (y₃ ^ 2 - 1) - y₁ * (y₁ ^ 2 - 1) * x₃ * y₃ ^ 2)) * h₂ +
    E.d * x₂ * y₂ * (y₃ * (x₂ ^ 2 * y₂ * x₁ * (x₁ ^ 2 + 1)
      + x₂ ^ 3 * (1 + E.d * y₂ ^ 2) * x₁ ^ 2 * y₁ - y₂ ^ 3 * (1 - E.d * x₂ ^ 2) * x₁ * y₁ ^ 2
      - x₂ * y₂ ^ 2 * y₁ * (y₁ ^ 2 - 1))
      + x₃ * (x₂ * y₂ ^ 2 * x₁ * (x₁ ^ 2 + 1) + y₂ ^ 3 * (1 - E.d * x₂ ^ 2) * x₁ ^ 2 * y₁
      - x₂ ^ 3 * (1 + E.d * y₂ ^ 2) * x₁ * y₁ ^ 2 - x₂ ^ 2 * y₂ * y₁ * (y₁ ^ 2 - 1))) * h₃

variable (E) in
@[ext] structure Point where
  x : K
  y : K
  on : E.On x y

namespace Point

instance : Zero E.Point := ⟨0, 1, by unfold On; ring⟩

instance : Neg E.Point := ⟨fun P => ⟨-P.x, P.y, on_neg P.on⟩⟩

instance : Add E.Point :=
  ⟨fun P Q => ⟨E.sumX P.x P.y Q.x Q.y, E.sumY P.x P.y Q.x Q.y, on_sum P.on Q.on⟩⟩

@[simp] lemma zero_x : (0 : E.Point).x = 0 := rfl
@[simp] lemma zero_y : (0 : E.Point).y = 1 := rfl
@[simp] lemma neg_x (P : E.Point) : (-P).x = -P.x := rfl
@[simp] lemma neg_y (P : E.Point) : (-P).y = P.y := rfl
lemma add_x (P Q : E.Point) : (P + Q).x = E.sumX P.x P.y Q.x Q.y := rfl
lemma add_y (P Q : E.Point) : (P + Q).y = E.sumY P.x P.y Q.x Q.y := rfl

protected lemma add_comm (P Q : E.Point) : P + Q = Q + P := by
  ext
  · rw [add_x, add_x, sumX, sumX, cross, cross]
    congr 1 <;> ring
  · rw [add_y, add_y, sumY, sumY, cross, cross]
    congr 1 <;> ring

lemma add_rotate (P Q R : E.Point) : P + Q + R = R + Q + P := by
  ext
  · exact sumX_rotate P.on Q.on R.on
  · exact sumY_rotate P.on Q.on R.on

protected lemma add_zero (P : E.Point) : P + 0 = P := by
  ext <;> simp [add_x, add_y, sumX, sumY, cross]

protected lemma neg_add_cancel (P : E.Point) : -P + P = 0 := by
  ext
  · rw [add_x, sumX, neg_x, neg_y, zero_x]
    exact div_eq_zero_iff.mpr (.inl (by ring))
  · rw [add_y, sumY, neg_x, neg_y, zero_y]
    have h := P.on
    unfold On at h
    rw [div_eq_one_iff_eq (one_sub_cross_ne_zero (on_neg P.on) P.on), cross]
    linear_combination h

instance : AddCommGroup E.Point where
  add_assoc P Q R := by rw [add_rotate, Point.add_comm, Point.add_comm R]
  zero_add P := by rw [Point.add_comm, Point.add_zero]
  add_zero := Point.add_zero
  add_comm := Point.add_comm
  neg_add_cancel := Point.neg_add_cancel
  nsmul := nsmulRec
  zsmul := zsmulRec

/-- The points with `y = 0` have order 4. -/
theorem four_nsmul_of_y_eq_zero {P : E.Point} (h : P.y = 0) : 4 • P = 0 := by
  have hx : (P + P).x = 0 := by
    rw [add_x, sumX, h]
    simp
  have hneg : -(P + P) = P + P := by
    ext
    · rw [neg_x, hx, neg_zero]
    · rfl
  calc 4 • P = P + P + (P + P) := by abel
    _ = -(P + P) + (P + P) := by rw [hneg]
    _ = 0 := neg_add_cancel (P + P)

end Point

end EdwardsCurve
end Edwards25519
