import Edwards25519.Proofs.Field.Residue

/-! What the limbs of a field element have to be. A product leaves them carried, and a factor may have
limbs of more than three times that size. -/
namespace Edwards25519.FieldElement

/-- The integer that the limbs add up to. -/
def toInt (x : FieldElement) : ℤ := Limbs.value (x.limbs.map Int32.toInt)

/-- The residue that the limbs add up to. -/
def residue (x : FieldElement) : Residue := Limbs.residue (x.limbs.map Int32.toInt)

/-- The limbs are within 1.01 times half their width, which is what a product leaves. -/
def Carried (x : FieldElement) : Prop :=
  ∀ i, 100 * |(x.limbs.get i).toInt| ≤ 101 * 2 ^ (Limbs.bits i - 1)

/-- The limbs are within 1.65 times their width, which is what a product takes. -/
def IsOperand (x : FieldElement) : Prop :=
  ∀ i, 100 * |(x.limbs.get i).toInt| ≤ 165 * 2 ^ Limbs.bits i

/-- Limbs of any grade stand for their own residue. -/
lemma Represents.residue_eq {k : ℕ} {x : FieldElement} {y : Residue} (h : Represents k x y) :
    x.residue = y := by
  obtain ⟨f, ⟨-, hlimb⟩, -, rfl⟩ := h
  exact congrArg Limbs.residue (Related.map_eq_map hlimb)

theorem represents_one_iff {x : FieldElement} {y : Residue} :
    Represents 1 x y ↔ x.Carried ∧ x.residue = y := by
  constructor
  · intro h
    refine ⟨fun i => ?_, h.residue_eq⟩
    obtain ⟨f, ⟨hf, hlimb⟩, -⟩ := h
    rw [hlimb i, ← Limbs.le_productBound_iff]
    exact (hf i).2.trans_eq (one_mul _)
  · rintro ⟨hx, rfl⟩
    have hg : (Traced.ofElement x).Graded 1 :=
      Traced.graded_ofElement fun i => (Limbs.le_productBound_iff _ i).mpr (hx i)
    exact ⟨_, Traced.follows_ofElement hg, hg, congrArg Limbs.residue (Traced.values_ofElement x)⟩

lemma residue_one : residue 1 = 1 := (represents_one_iff.mp simulation_represents.one).2

lemma residue_zero : residue 0 = 0 := (represents_one_iff.mp simulation_represents.zero).2

/-- Sums of three carried elements are operands. -/
lemma represents_operand {x : FieldElement} {y : Residue} (h : Represents 3 x y) :
    x.IsOperand ∧ x.residue = y := by
  refine ⟨fun i => ?_, h.residue_eq⟩
  obtain ⟨f, ⟨hf, hlimb⟩, -⟩ := h
  have hbound : ∀ i, 100 * (3 * Limbs.productBound i) ≤ 165 * 2 ^ Limbs.bits i := by decide
  have hle := (hf i).2
  rw [hlimb i]
  exact (mul_le_mul_of_nonneg_left hle (by decide)).trans (hbound i)

lemma IsOperand.le_operandBound {x : FieldElement} (hx : x.IsOperand) (i : Fin 10) :
    |(x.limbs.get i).toInt| ≤ Limbs.operandBound i := by
  have hi := hx i
  unfold Limbs.operandBound
  omega

lemma IsOperand.followsFactor {x : FieldElement} (hx : x.IsOperand) :
    Traced.FollowsFactor x (Traced.ofElement x) := by
  refine ⟨fun i => ?_, fun i => ?_⟩
  · rw [Traced.get_factor, Traced.get_ofElement]
    exact ⟨⟨trivial, hx.le_operandBound i⟩, hx.le_operandBound i⟩
  · rw [Traced.get_ofElement]

lemma IsOperand.representsFactor {x : FieldElement} (hx : x.IsOperand) :
    RepresentsFactor x x.residue :=
  ⟨_, hx.followsFactor, hx.followsFactor.1, congrArg Limbs.residue (Traced.values_ofElement x)⟩

/-- Operands can be added up without an overflow. -/
lemma IsOperand.represents {x : FieldElement} (hx : x.IsOperand) : Represents 4 x x.residue := by
  have hbound : ∀ i, Limbs.operandBound i ≤ (4 : ℕ) * Limbs.productBound i := by decide
  have hg : (Traced.ofElement x).Graded 4 := by
    intro i
    rw [Traced.get_ofElement]
    exact ⟨trivial, (hx.le_operandBound i).trans (hbound i)⟩
  exact ⟨_, Traced.follows_ofElement hg, hg, congrArg Limbs.residue (Traced.values_ofElement x)⟩

section residue

variable {x y : FieldElement} (hx : x.IsOperand) (hy : y.IsOperand)
include hx hy

lemma IsOperand.residue_add : (x + y).residue = x.residue + y.residue :=
  (simulation_represents.add hx.represents hy.represents (by decide)).residue_eq

lemma IsOperand.residue_sub : (x - y).residue = x.residue - y.residue :=
  (simulation_represents.sub hx.represents hy.represents (by decide)).residue_eq

lemma IsOperand.residue_mul : (x * y).residue = x.residue * y.residue :=
  (factors_represents.mul hx.representsFactor hy.representsFactor).residue_eq

lemma IsOperand.carried_mul : (x * y).Carried :=
  (represents_one_iff.mp (factors_represents.mul hx.representsFactor hy.representsFactor)).1

omit hy

lemma IsOperand.residue_neg : (-x).residue = -x.residue :=
  (simulation_represents.neg hx.represents (by decide)).residue_eq

lemma IsOperand.residue_square : (Coordinate.square x).residue = x.residue ^ 2 := by
  rw [pow_two]
  exact (factors_represents.square hx.representsFactor).residue_eq

lemma IsOperand.carried_square : (Coordinate.square x).Carried :=
  (represents_one_iff.mp (factors_represents.square hx.representsFactor)).1

end residue

lemma Carried.isOperand {x : FieldElement} (hx : x.Carried) : x.IsOperand := by
  intro i
  have hi := hx i
  have hbits : ∀ i, (101 : ℤ) * 2 ^ (Limbs.bits i - 1) ≤ 165 * 2 ^ Limbs.bits i := by decide
  exact hi.trans (hbits i)

end Edwards25519.FieldElement
