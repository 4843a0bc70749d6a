import Edwards25519.Proofs.Field.TracedOperands
import Edwards25519.Proofs.Multiple.Simulation
import Edwards25519.Proofs.Scalar.Radix16
import Edwards25519.Proofs.Scalar.Reduction

/-! Chains of operations on points. A chain starts at constants and decoded points, and each operation
in it takes results of the kinds that it is made for. A chain is a program for every field; on words
it does the same as on checked integers, and nothing in it overflows. -/
namespace Edwards25519

/-- What an operation takes or returns: a point in one of the coordinate systems, or a table. -/
inductive Kind where
  | affine
  | projective
  | extended
  | completed
  | precomputed
  | cached
  | fixedBaseTable
  | oddMultiples

namespace Kind

def Value (F : Type) : Kind → Type
  | affine => Affine F
  | projective => Projective F
  | extended => Extended F
  | completed => Completed F
  | precomputed => Precomputed F
  | cached => Cached F
  | fixedBaseTable => FixedBaseTable F
  | oddMultiples => OddMultiples F

def Related {F G : Type} (R : ℕ → F → G → Prop) : (k : Kind) → k.Value F → k.Value G → Prop
  | affine => Affine.Related R
  | projective => Projective.Related R
  | extended => Extended.Related R
  | completed => Completed.Related R
  | precomputed => Precomputed.Related R
  | cached => Cached.Related R
  | fixedBaseTable => Edwards25519.Related (Edwards25519.Related (Precomputed.Related R))
  | oddMultiples => Edwards25519.Related (Precomputed.Related R)

/-- The coordinates of projective and extended points, which every operation carries. -/
def coordinates {F : Type} : (k : Kind) → k.Value F → List F
  | projective, (p : Projective F) => [p.x, p.y, p.z]
  | extended, (p : Extended F) => [p.x, p.y, p.z, p.t]
  | _, _ => []

end Kind

/-- The constants that a chain may start from. -/
inductive ConstantPoint : Kind → Type where
  | base : ConstantPoint .extended
  | projectiveNeutral : ConstantPoint .projective
  | extendedNeutral : ConstantPoint .extended
  | precomputedNeutral : ConstantPoint .precomputed

inductive UnaryOperation : Kind → Kind → Type where
  | projectiveToAffine : UnaryOperation .projective .affine
  | extendedToAffine : UnaryOperation .extended .affine
  | extendedToProjective : UnaryOperation .extended .projective
  | extendedToCached : UnaryOperation .extended .cached
  | extendedToPrecomputed : UnaryOperation .extended .precomputed
  | completedToProjective : UnaryOperation .completed .projective
  | completedToExtended : UnaryOperation .completed .extended
  | doubleProjective : UnaryOperation .projective .completed
  | doubleExtended : UnaryOperation .extended .completed
  | negate : UnaryOperation .extended .extended
  | negatePrecomputed : UnaryOperation .precomputed .precomputed
  | buildFixedBase : UnaryOperation .extended .fixedBaseTable
  | buildOddMultiples : UnaryOperation .extended .oddMultiples
  | fixedBaseEntry (row : Fin 32) (column : Fin 8) : UnaryOperation .fixedBaseTable .precomputed
  | select (row : Fin 32) (digit : Int8) : UnaryOperation .fixedBaseTable .precomputed
  | oddMultiple (i : Fin 8) : UnaryOperation .oddMultiples .precomputed
  | multiply (s : Encoded) : UnaryOperation .fixedBaseTable .extended

inductive BinaryOperation : Kind → Kind → Kind → Type where
  | add : BinaryOperation .extended .cached .completed
  | subtract : BinaryOperation .extended .cached .completed
  | addPrecomputed : BinaryOperation .extended .precomputed .completed
  | subtractPrecomputed : BinaryOperation .extended .precomputed .completed
  | choose (second : Bool) : BinaryOperation .precomputed .precomputed .precomputed
  /-- The multiple of the left point by `b` less that of the right one by `a`. -/
  | combine (a b : Encoded) : BinaryOperation .oddMultiples .oddMultiples .projective

inductive Chain : Kind → Type where
  | constant {k : Kind} (c : ConstantPoint k) : Chain k
  | decode (b : Bytes 32) : Chain .extended
  | unary {j k : Kind} (op : UnaryOperation j k) (c : Chain j) : Chain k
  | binary {i j k : Kind} (op : BinaryOperation i j k) (c : Chain i) (c' : Chain j) : Chain k

variable {i j k : Kind} {F G : Type} [Coordinate F] [Coordinate G]

def ConstantPoint.value : ConstantPoint k → k.Value F
  | base => Extended.base
  | projectiveNeutral => Projective.neutral
  | extendedNeutral => Extended.neutral
  | precomputedNeutral => Precomputed.neutral

def UnaryOperation.apply : UnaryOperation j k → j.Value F → k.Value F
  | projectiveToAffine => Projective.toAffine
  | extendedToAffine => Extended.toAffine
  | extendedToProjective => Extended.toProjective
  | extendedToCached => Extended.toCached
  | extendedToPrecomputed => Extended.toPrecomputed
  | completedToProjective => Completed.toProjective
  | completedToExtended => Completed.toExtended
  | doubleProjective => Projective.double
  | doubleExtended => Extended.double
  | negate => Extended.negate
  | negatePrecomputed => Precomputed.negate
  | buildFixedBase => FixedBaseTable.ofPoint
  | buildOddMultiples => OddMultiples.ofPoint
  | fixedBaseEntry row column => fun (t : FixedBaseTable F) => (t.get row).get column
  | select row digit => fun (t : FixedBaseTable F) => FixedBaseTable.selectFrom (t.get row) digit
  | oddMultiple i => fun (t : OddMultiples F) => t.get i
  | multiply s => fun (t : FixedBaseTable F) => t.multiply s

def BinaryOperation.apply : BinaryOperation i j k → i.Value F → j.Value F → k.Value F
  | add => Extended.add
  | subtract => Extended.subtract
  | addPrecomputed => Extended.addPrecomputed
  | subtractPrecomputed => Extended.subtractPrecomputed
  | choose second => fun (p q : Precomputed F) => if second then q else p
  | combine a b => fun (own other : OddMultiples F) =>
    OddMultiples.combine own other a.toScalar b.toScalar

/-- The result of a chain, unless an encoding in it cannot be decoded. -/
def Chain.eval (F : Type) [Coordinate F] : {k : Kind} → Chain k → Option (k.Value F)
  | _, constant c => some c.value
  | _, decode b => Extended.decode? b
  | _, unary op c => (c.eval F).map op.apply
  | _, binary op c c' => (c.eval F).bind fun v => (c'.eval F).map (op.apply v)

section

variable {R : ℕ → F → G → Prop} (hR : Coordinate.Simulation R)
include hR

theorem ConstantPoint.related (c : ConstantPoint k) : k.Related R c.value c.value := by
  cases c with
  | base => exact hR.extended_base
  | projectiveNeutral => exact hR.projective_neutral
  | extendedNeutral => exact hR.extended_neutral
  | precomputedNeutral => exact hR.precomputed_neutral

theorem UnaryOperation.related (op : UnaryOperation j k) {v : j.Value F} {w : j.Value G}
    (h : j.Related R v w) : k.Related R (op.apply v) (op.apply w) := by
  cases op with
  | projectiveToAffine => exact hR.projective_toAffine h
  | extendedToAffine => exact hR.extended_toAffine h
  | extendedToProjective => exact Extended.Related.toProjective h
  | extendedToCached => exact hR.extended_toCached h
  | extendedToPrecomputed => exact hR.extended_toPrecomputed h
  | completedToProjective => exact hR.completed_toProjective h
  | completedToExtended => exact hR.completed_toExtended h
  | doubleProjective => exact hR.projective_double h
  | doubleExtended => exact hR.extended_double h
  | negate => exact hR.extended_negate h
  | negatePrecomputed => exact hR.precomputed_negate h
  | buildFixedBase => exact hR.fixedBaseTable h
  | buildOddMultiples => exact hR.oddMultiples h
  | fixedBaseEntry row column => exact (Related.fin h row).fin column
  | select row digit => exact hR.selectFrom (Related.fin h row) digit
  | oddMultiple i => exact Related.fin h i
  | multiply s => exact hR.multiply h s

theorem BinaryOperation.related (op : BinaryOperation i j k) {v : i.Value F} {w : i.Value G}
    {v' : j.Value F} {w' : j.Value G} (h : i.Related R v w) (h' : j.Related R v' w') :
    k.Related R (op.apply v v') (op.apply w w') := by
  cases op with
  | add => exact hR.extended_add h h'
  | subtract => exact hR.extended_subtract h h'
  | addPrecomputed => exact hR.extended_addPrecomputed h h'
  | subtractPrecomputed => exact hR.extended_subtractPrecomputed h h'
  | choose second =>
    cases second with
    | true => exact h'
    | false => exact h
  | combine a b => exact hR.combine h h' a.toScalar b.toScalar

omit hR [Coordinate F] [Coordinate G] in
lemma rel_map {v : Option (j.Value F)} {w : Option (j.Value G)} {f : j.Value F → k.Value F}
    {g : j.Value G → k.Value G} (hfg : ∀ {a b}, j.Related R a b → k.Related R (f a) (g b))
    (h : Option.Rel (j.Related R) v w) : Option.Rel (k.Related R) (v.map f) (w.map g) := by
  cases h with
  | some h => exact .some (hfg h)
  | none => exact .none

/-- Every operation keeps a simulation, and so does a chain. -/
theorem Chain.related (c : Chain k) : Option.Rel (k.Related R) (c.eval F) (c.eval G) := by
  induction c with
  | constant c => exact .some (c.related hR)
  | decode b => exact hR.extended_decode b
  | unary op c ih => exact rel_map (op.related hR) ih
  | binary op c c' ih ih' =>
    rw [eval, eval]
    generalize c.eval F = v, c.eval G = w at ih
    cases ih with
    | some h => exact rel_map (op.related hR h) ih'
    | none => exact .none

end

section overflow

open Traced

lemma Kind.follows_of_mem {v : k.Value FieldElement} {w : k.Value Traced}
    (h : k.Related Follows v w) {x : FieldElement} (hx : x ∈ k.coordinates v) :
    ∃ f, Follows 1 x f := by
  cases k with
  | projective =>
    obtain ⟨hx', hy, hz⟩ := h
    simp only [coordinates, List.mem_cons, List.not_mem_nil, or_false] at hx
    rcases hx with rfl | rfl | rfl
    exacts [⟨_, hx'⟩, ⟨_, hy⟩, ⟨_, hz⟩]
  | extended =>
    obtain ⟨hx', hy, hz, ht⟩ := h
    simp only [coordinates, List.mem_cons, List.not_mem_nil, or_false] at hx
    rcases hx with rfl | rfl | rfl | rfl
    exacts [⟨_, hx'⟩, ⟨_, hy⟩, ⟨_, hz⟩, ⟨_, ht⟩]
  | _ => exact absurd hx List.not_mem_nil

/-- The limbs of a product are within 1.01 times half their width. -/
lemma limb_bound {x : FieldElement} {f : Traced} (h : Follows 1 x f) (i : Fin 10) :
    100 * |(x.limbs.get i).toInt| ≤ 101 * 2 ^ (Limbs.bits i - 1) := by
  rw [h.2 i, ← Limbs.le_productBound_iff]
  exact (h.1 i).2.trans_eq (one_mul _)

/-- Any limbs of 32 bits can be encoded. -/
lemma digits_canonical_ofElement (x : FieldElement) :
    Limbs.Digits (Limbs.canonical (ofElement x).wide) :=
  Limbs.digits_canonical (within_ofElement x)

/-- Nothing overflows in a chain. Its run on words has the limbs of its run on checked integers, which
records that all that leads to them fits, and that every operand of a product is within its bound. The
tests for a square root, the encodings, the reductions, which start with the limbs that are loaded
(`WideLimbs.load_eq_ofNat`), and the recodings of scalars, of which the results of a chain keep no record,
fit as well. -/
theorem Chain.no_overflow (c : Chain k) :
    Option.Rel (k.Related Follows) (c.eval FieldElement) (c.eval Traced) ∧
    (∀ v, c.eval FieldElement = some v → ∀ x ∈ k.coordinates v, ∀ i : Fin 10,
      100 * |(x.limbs.get i).toInt| ≤ 101 * 2 ^ (Limbs.bits i - 1)) ∧
    (∀ f g : Traced, ((f * g).Fits → f.IsOperand ∧ g.IsOperand) ∧
      ((Coordinate.square f).Fits → f.IsOperand) ∧
      ((Coordinate.squareDouble f).Fits → f.IsOperand)) ∧
    (∀ b, Follows 3 (Extended.defect b) (Extended.defect b) ∧
      Follows 3 (Extended.negatedDefect b) (Extended.negatedDefect b)) ∧
    (∀ x : FieldElement, Limbs.Digits (Limbs.canonical (ofElement x).wide)) ∧
    (∀ b : Bytes 64, WideLimbs.Fit (WideLimbs.reduce (WideLimbs.ofNat b.toNat))) ∧
    ∀ (s : Encoded) (i : Fin 64),
      ((Scalar.radix16 s.toRecodable : Vector (Checked 8) 64).get i).fits := by
  have hrel := c.related simulation_follows
  refine ⟨hrel, fun v hv x hx i => ?_, fun f g => ?_, fun b => ?_, digits_canonical_ofElement,
    fun b => ?_, fun s i => ?_⟩
  · rw [hv] at hrel
    generalize c.eval Traced = w at hrel
    cases hrel with
    | some h =>
      obtain ⟨f, hf⟩ := Kind.follows_of_mem h hx
      exact limb_bound hf i
  · exact ⟨isOperand_of_mul, isOperand_of_square, isOperand_of_squareDouble⟩
  · exact ⟨simulation_follows.extended_defect b, simulation_follows.extended_negatedDefect b⟩
  · exact WideLimbs.fit_reduce_ofNat (Scalar.toNat_lt_wide b)
  · exact (Scalar.radix16_bounds s.topBit_toRecodable i rfl).1

/-- The base point, doubled. -/
theorem Chain.no_overflow_double_base :
    let c : Chain .extended := .unary .completedToExtended (.unary .doubleExtended (.constant .base))
    ∃ v, c.eval FieldElement = some v ∧ ∀ x ∈ Kind.extended.coordinates v, ∀ i : Fin 10,
      100 * |(x.limbs.get i).toInt| ≤ 101 * 2 ^ (Limbs.bits i - 1) := by
  intro c
  exact ⟨_, rfl, (Chain.no_overflow c).2.1 _ rfl⟩

end overflow

end Edwards25519
