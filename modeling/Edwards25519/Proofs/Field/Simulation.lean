import Edwards25519.Field.Coordinate
import Mathlib.Data.Nat.Notation

/-! Relations between two fields that the operations keep. A relation has a grade: the sum of two
elements has the sum of their grades, a factor may have grade 3, and a product has grade 1. -/
namespace Edwards25519

namespace Coordinate

/-- Elements of grade 32 and less can be added and negated, those of grade 3 and less multiplied and
encoded. -/
structure Simulation {F G : Type} [Coordinate F] [Coordinate G] (R : ℕ → F → G → Prop) : Prop where
  mono : ∀ {j k a x}, R j a x → j ≤ k → R k a x
  zero : R 1 0 0
  one : R 1 1 1
  d : R 1 d d
  twoD : R 1 twoD twoD
  sqrtNegOne : R 1 sqrtNegOne sqrtNegOne
  ofBytes : ∀ b, R 1 (ofBytes b) (ofBytes b)
  add : ∀ {j k a b x y}, R j a x → R k b y → j + k ≤ 32 → R (j + k) (a + b) (x + y)
  sub : ∀ {j k a b x y}, R j a x → R k b y → j + k ≤ 32 → R (j + k) (a - b) (x - y)
  neg : ∀ {k a x}, R k a x → k ≤ 32 → R k (-a) (-x)
  mul_three : ∀ {a b x y}, R 3 a x → R 3 b y → R 1 (a * b) (x * y)
  square_three : ∀ {a x}, R 3 a x → R 1 (square a) (square x)
  squareDouble_three : ∀ {a x}, R 3 a x → R 1 (squareDouble a) (squareDouble x)
  toBytes_three : ∀ {a x}, R 3 a x → toBytes a = toBytes x

/-- `Q` relates factors: their products are related with grade 1, and such elements may be factors. -/
structure Factors {F G : Type} [Coordinate F] [Coordinate G] (R : ℕ → F → G → Prop)
    (Q : F → G → Prop) : Prop where
  of_one : ∀ {a x}, R 1 a x → Q a x
  mul : ∀ {a b x y}, Q a x → Q b y → R 1 (a * b) (x * y)
  square : ∀ {a x}, Q a x → R 1 (square a) (square x)
  squareDouble : ∀ {a x}, Q a x → R 1 (squareDouble a) (squareDouble x)

variable {F G H : Type} [Coordinate F] [Coordinate G] [Coordinate H]

namespace Factors

variable {R : ℕ → F → G → Prop} {Q : F → G → Prop} (hQ : Factors R Q) {a b : F} {x y : G}
include hQ

theorem squareTimes (n : ℕ) {a : F} {x : G} (ha : R 1 a x) :
    R 1 (squareTimes n a) (squareTimes n x) := by
  induction n generalizing a x with
  | zero => exact ha
  | succ n ih => exact ih (hQ.square (hQ.of_one ha))

lemma mul_products {a b : F} {x y : G} (ha : R 1 a x) (hb : R 1 b y) : R 1 (a * b) (x * y) :=
  hQ.mul (hQ.of_one ha) (hQ.of_one hb)

theorem powEleven250 (ha : Q a x) :
    R 1 (powEleven250 a).1 (powEleven250 x).1 ∧ R 1 (powEleven250 a).2 (powEleven250 x).2 := by
  have h2 := hQ.square ha
  have h9 := hQ.mul ha (hQ.of_one (hQ.squareTimes 2 h2))
  have h11 := hQ.mul_products h2 h9
  have h5 := hQ.mul_products h9 (hQ.squareTimes 1 h11)
  have h10 := hQ.mul_products (hQ.squareTimes 5 h5) h5
  have h20 := hQ.mul_products (hQ.squareTimes 10 h10) h10
  have h40 := hQ.mul_products (hQ.squareTimes 20 h20) h20
  have h50 := hQ.mul_products (hQ.squareTimes 10 h40) h10
  have h100 := hQ.mul_products (hQ.squareTimes 50 h50) h50
  have h200 := hQ.mul_products (hQ.squareTimes 100 h100) h100
  exact ⟨h11, hQ.mul_products (hQ.squareTimes 50 h200) h50⟩

theorem invert (ha : Q a x) : R 1 (invert a) (invert x) := by
  obtain ⟨h11, h250⟩ := hQ.powEleven250 ha
  exact hQ.mul_products (hQ.squareTimes 5 h250) h11

theorem pow252 (ha : Q a x) : R 1 (pow252 a) (pow252 x) :=
  hQ.mul (hQ.of_one (hQ.squareTimes 2 (hQ.powEleven250 ha).2)) ha

theorem sqrtRatio (ha : Q a x) (hb : Q b y) : R 1 (sqrtRatio a b) (sqrtRatio x y) := by
  have h3 := hQ.mul (hQ.of_one (hQ.square hb)) hb
  have h6 := hQ.mul ha (hQ.of_one (hQ.squareTimes 1 h3))
  have h7 := hQ.mul (hQ.of_one h6) hb
  exact hQ.mul_products (hQ.pow252 (hQ.of_one h7)) (hQ.mul ha (hQ.of_one h3))

/-- Related factors, one step after the other. -/
theorem comp {S : ℕ → G → H → Prop} {T : G → H → Prop} (hT : Factors S T) :
    Factors (fun k a z => ∃ x, R k a x ∧ S k x z) (fun a z => ∃ x, Q a x ∧ T x z) where
  of_one := fun ⟨x, h, h'⟩ => ⟨x, hQ.of_one h, hT.of_one h'⟩
  mul := fun ⟨_, ha, ha'⟩ ⟨_, hb, hb'⟩ => ⟨_, hQ.mul ha hb, hT.mul ha' hb'⟩
  square := fun ⟨_, ha, ha'⟩ => ⟨_, hQ.square ha, hT.square ha'⟩
  squareDouble := fun ⟨_, ha, ha'⟩ => ⟨_, hQ.squareDouble ha, hT.squareDouble ha'⟩

end Factors

namespace Simulation

section

variable {R : ℕ → F → G → Prop} (hR : Simulation R)
include hR

/-- The bounds of the grades are decided by computation. -/
lemma raise {j k : ℕ} {a : F} {x : G} (h : R j a x) (hjk : Nat.ble j k = true) : R k a x :=
  hR.mono h (Nat.le_of_ble_eq_true hjk)

theorem mul {j k : ℕ} {a b : F} {x y : G} (ha : R j a x) (hb : R k b y)
    (hj : Nat.ble j 3 = true) (hk : Nat.ble k 3 = true) : R 1 (a * b) (x * y) :=
  hR.mul_three (hR.raise ha hj) (hR.raise hb hk)

variable {k : ℕ} {a : F} {x : G}

theorem square (ha : R k a x) (hk : Nat.ble k 3 = true) :
    R 1 (Coordinate.square a) (Coordinate.square x) :=
  hR.square_three (hR.raise ha hk)

theorem squareDouble (ha : R k a x) (hk : Nat.ble k 3 = true) :
    R 1 (Coordinate.squareDouble a) (Coordinate.squareDouble x) :=
  hR.squareDouble_three (hR.raise ha hk)

theorem toBytes (ha : R k a x) (hk : Nat.ble k 3 = true) :
    Coordinate.toBytes a = Coordinate.toBytes x :=
  hR.toBytes_three (hR.raise ha hk)

theorem isNonZero (ha : R k a x) (hk : Nat.ble k 3 = true) :
    Coordinate.isNonZero a = Coordinate.isNonZero x := by
  rw [Coordinate.isNonZero, Coordinate.isNonZero, hR.toBytes ha hk]

theorem isNegative (ha : R k a x) (hk : Nat.ble k 3 = true) :
    Coordinate.isNegative a = Coordinate.isNegative x := by
  rw [Coordinate.isNegative, Coordinate.isNegative, hR.toBytes ha hk]

theorem congruent {j : ℕ} {b : F} {y : G} (ha : R j a x) (hb : R k b y)
    (hj : Nat.ble j 3 = true) (hk : Nat.ble k 3 = true) :
    Coordinate.congruent a b = Coordinate.congruent x y := by
  rw [Coordinate.congruent, Coordinate.congruent, hR.toBytes ha hj, hR.toBytes hb hk]

theorem factors : Factors R (R 3) :=
  ⟨fun h => hR.raise h rfl, hR.mul_three, hR.square_three, hR.squareDouble_three⟩

theorem invert (ha : R k a x) (hk : Nat.ble k 3 = true) : R 1 (invert a) (invert x) :=
  hR.factors.invert (hR.raise ha hk)

theorem sqrtRatio {j : ℕ} {b : F} {y : G} (ha : R j a x) (hb : R k b y)
    (hj : Nat.ble j 3 = true) (hk : Nat.ble k 3 = true) : R 1 (sqrtRatio a b) (sqrtRatio x y) :=
  hR.factors.sqrtRatio (hR.raise ha hj) (hR.raise hb hk)

end

/-- Simulations compose. -/
theorem comp {R : ℕ → F → G → Prop} {S : ℕ → G → H → Prop} (hR : Simulation R)
    (hS : Simulation S) : Simulation fun k a z => ∃ x, R k a x ∧ S k x z where
  mono := fun ⟨x, h, h'⟩ hjk => ⟨x, hR.mono h hjk, hS.mono h' hjk⟩
  zero := ⟨_, hR.zero, hS.zero⟩
  one := ⟨_, hR.one, hS.one⟩
  d := ⟨_, hR.d, hS.d⟩
  twoD := ⟨_, hR.twoD, hS.twoD⟩
  sqrtNegOne := ⟨_, hR.sqrtNegOne, hS.sqrtNegOne⟩
  ofBytes b := ⟨_, hR.ofBytes b, hS.ofBytes b⟩
  add := fun ⟨_, ha, ha'⟩ ⟨_, hb, hb'⟩ hk => ⟨_, hR.add ha hb hk, hS.add ha' hb' hk⟩
  sub := fun ⟨_, ha, ha'⟩ ⟨_, hb, hb'⟩ hk => ⟨_, hR.sub ha hb hk, hS.sub ha' hb' hk⟩
  neg := fun ⟨_, ha, ha'⟩ hk => ⟨_, hR.neg ha hk, hS.neg ha' hk⟩
  mul_three := fun ⟨_, ha, ha'⟩ ⟨_, hb, hb'⟩ => ⟨_, hR.mul_three ha hb, hS.mul_three ha' hb'⟩
  square_three := fun ⟨_, ha, ha'⟩ => ⟨_, hR.square_three ha, hS.square_three ha'⟩
  squareDouble_three := fun ⟨_, ha, ha'⟩ =>
    ⟨_, hR.squareDouble_three ha, hS.squareDouble_three ha'⟩
  toBytes_three := fun ⟨_, ha, ha'⟩ => (hR.toBytes_three ha).trans (hS.toBytes_three ha')

end Simulation
end Coordinate
end Edwards25519
