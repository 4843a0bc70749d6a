import Edwards25519.Bytes.Lemmas
import Edwards25519.Proofs.Field.LimbCanonical
import Edwards25519.Proofs.Field.Traced
import Mathlib.Algebra.Field.ZMod

/-! The residues modulo `2 ^ 255 - 19` as the field of the curve. Limbs stand for residues, and the
program computes with them as the field does. -/
namespace Edwards25519

abbrev Residue : Type := ZMod fieldOrder

/-- The coefficient `-121665 / 121666` of the curve. -/
def curveCoefficient : ℕ :=
  37095705934669439343138083508754565189542113879843219016388785533085940283555

def rootOfNegOne : ℕ :=
  19681161376707505956807079304988542015446066515923890162744021073123829784752

-- sums and products of residues are those of the field
attribute [instance (100)] Coordinate.toZero Coordinate.toOne Coordinate.toAdd Coordinate.toSub
  Coordinate.toNeg Coordinate.toMul

instance : Coordinate Residue where
  square x := x * x
  squareDouble x := 2 * (x * x)
  d := curveCoefficient
  twoD := (2 * curveCoefficient : ℕ)
  sqrtNegOne := rootOfNegOne
  ofBytes b := (b.toNat % 2 ^ 255 : ℕ)
  toBytes x := Bytes.ofNat 32 x.val

namespace Residue

/-- The encoding of a residue is a number below `2 ^ 255 - 19`. -/
theorem toNat_toBytes (x : Residue) : (Coordinate.toBytes x).toNat = x.val := by
  have hlt : x.val < 256 ^ 32 := (ZMod.val_lt x).trans (by decide)
  exact (Bytes.toNat_ofNat 32 x.val).trans (Nat.mod_eq_of_lt hlt)

theorem congruent_iff {x y : Residue} : Coordinate.congruent x y = true ↔ x = y := by
  rw [Coordinate.congruent, beq_iff_eq]
  constructor
  · intro h
    have hval := congrArg Bytes.toNat h
    rw [toNat_toBytes, toNat_toBytes] at hval
    exact ZMod.val_injective _ hval
  · exact congrArg Coordinate.toBytes

end Residue

namespace Traced

variable {j k : ℕ} {f g : Traced}

/-- The values of the limbs. -/
def values {w : ℕ} (h : Limbs (Checked w)) : Limbs ℤ := h.map Checked.value

/-- The limbs are graded and stand for the residue. -/
def Represents (k : ℕ) (f : Traced) (x : Residue) : Prop :=
  f.Graded k ∧ Limbs.residue (values f.limbs) = x

/-- The limbs are within the bound of an operand and stand for the residue. -/
def RepresentsFactor (f : Traced) (x : Residue) : Prop :=
  Limbs.Within Limbs.operandBound f.factor ∧ Limbs.residue (values f.limbs) = x

section

variable {h h' : Limbs (Checked 64)}

lemma get_values {w : ℕ} (h : Limbs (Checked w)) (i : Fin 10) :
    (values h).get i = (h.get i).value :=
  Vector.getElem_map _ i.isLt

@[simp] lemma values_narrow (h : Limbs (Checked 64)) : values (narrow h).limbs = values h := by
  simp [values, narrow]

@[simp] lemma values_factor (f : Traced) : values f.factor = values f.limbs := by
  ext i hi
  simp [values, factor, get_eq_getElem]

@[simp] lemma values_wide (f : Traced) : values f.wide = values f.limbs := by
  simp [values, wide]

open LimbArithmetic Limbs in
lemma values_product (h h' : Limbs (Checked 64)) :
    values (product h h') = product (values h) (values h') :=
  Related.eq_map (product_related simulation_value (Related.of_map _ h) (Related.of_map _ h'))

open LimbArithmetic Limbs in
lemma values_square (h : Limbs (Checked 64)) : values (square h) = square (values h) :=
  Related.eq_map (square_related simulation_value (Related.of_map _ h))

open LimbArithmetic Limbs in
lemma values_double (h : Limbs (Checked 64)) : values (double h) = double (values h) :=
  Related.eq_map (double_related simulation_value (Related.of_map _ h))

open LimbArithmetic Limbs in
lemma values_carryAll (chain : List (Fin 10)) (h : Limbs (Checked 64)) :
    values (carryAll chain h) = carryAll chain (values h) :=
  Related.eq_map (carryAll_related simulation_value (Related.of_map _ h) chain)

open LimbArithmetic Limbs in
lemma values_canonical (h : Limbs (Checked 64)) : values (canonical h) = canonical (values h) :=
  Related.eq_map (canonical_related simulation_value (Related.of_map _ h))

open LimbArithmetic Limbs in
lemma values_ofNat (n : ℕ) : values (ofNat n : Limbs (Checked 64)) = ofNat n :=
  Related.eq_map (ofNat_related simulation_value n)

end

lemma represents_narrow {h : Limbs (Checked 64)} (hh : Limbs.Within Limbs.productBound h) :
    Represents 1 (narrow h) (Limbs.residue (values h)) :=
  ⟨graded_narrow hh, by rw [values_narrow]⟩

lemma values_ofElement (x : FieldElement) :
    values (ofElement x).limbs = x.limbs.map Int32.toInt := by
  simp [values, ofElement]

lemma represents_ofElement {x : FieldElement} (n : ℕ)
    (h : ∀ i : Fin 10, |(x.limbs.get i).toInt| ≤ Limbs.productBound i)
    (hn : (fieldOrder : ℤ) ∣ n - Limbs.value (x.limbs.map Int32.toInt)) :
    Represents 1 (ofElement x) (n : Residue) := by
  refine ⟨graded_ofElement h, ?_⟩
  rw [values_ofElement, ← Int.cast_natCast n]
  exact (ZMod.intCast_eq_intCast_iff_dvd_sub _ _ fieldOrder).mpr hn

lemma values_add (f g : Traced) :
    values (f + g).limbs = Vector.zipWith (· + ·) (values f.limbs) (values g.limbs) := by
  ext i hi
  change (Vector.map _ (Vector.zipWith _ _ _))[i] = _
  simp [values]
  rfl

lemma values_sub (f g : Traced) :
    values (f - g).limbs = Vector.zipWith (· - ·) (values f.limbs) (values g.limbs) := by
  ext i hi
  change (Vector.map _ (Vector.zipWith _ _ _))[i] = _
  simp [values]
  rfl

lemma values_neg (f : Traced) : values (-f).limbs = (values f.limbs).map (-·) := by
  ext i hi
  change (Vector.map _ (Vector.map _ _))[i] = _
  simp [values]

lemma toBytes_residue (hf : Limbs.Within Limbs.wordBound f.wide) :
    Coordinate.toBytes f = Coordinate.toBytes (Limbs.residue (values f.limbs)) := by
  have hbound : ∀ i : Fin 10, |(values f.limbs).get i| ≤ Limbs.wordBound i := by
    intro i
    rw [← values_wide, get_values]
    exact (hf i).2
  change Bytes.ofNat 32 (Limbs.value (values (Limbs.canonical f.wide))).toNat = Bytes.ofNat 32 _
  rw [values_canonical, values_wide, Limbs.value_canonical hbound]
  congr 1
  have hval := ZMod.val_intCast (n := fieldOrder) (Limbs.value (values f.limbs))
  have hp : (fieldOrder : ℤ) = 2 ^ 255 - 19 := by decide
  rw [← hp, ← hval]
  rfl

lemma toBytes_represents {x : Residue} (hf : Represents 3 f x) :
    Coordinate.toBytes f = Coordinate.toBytes x := by
  obtain ⟨hg, rfl⟩ := hf
  exact toBytes_residue hg.wide

lemma Represents.factor {x : Residue} (h : Represents 3 f x) : RepresentsFactor f x :=
  ⟨h.1.factor, h.2⟩

theorem factors_represents : Coordinate.Factors Represents RepresentsFactor where
  of_one h := Represents.factor ⟨h.1.mono (by decide), h.2⟩
  mul := by
    rintro f g _ _ ⟨hf, rfl⟩ ⟨hg, rfl⟩
    have h := represents_narrow (Limbs.within_product hf hg)
    rwa [values_carryAll, Limbs.residue_carryAll, values_product, Limbs.residue_product,
      values_factor, values_factor] at h
  square := by
    rintro f _ ⟨hf, rfl⟩
    have h := represents_narrow (Limbs.within_square hf)
    rwa [values_carryAll, Limbs.residue_carryAll, values_square, Limbs.residue_square,
      values_factor] at h
  squareDouble := by
    rintro f _ ⟨hf, rfl⟩
    have h := represents_narrow (Limbs.within_squareDouble hf)
    rwa [values_carryAll, Limbs.residue_carryAll, values_double, values_square,
      Limbs.residue_double, Limbs.residue_square, values_factor] at h

theorem simulation_represents : Coordinate.Simulation Represents where
  mono h hjk := ⟨h.1.mono hjk, h.2⟩
  zero := Nat.cast_zero (R := Residue) ▸
    represents_ofElement (x := 0) 0 (by decide) (by decide +kernel)
  one := Nat.cast_one (R := Residue) ▸
    represents_ofElement (x := 1) 1 (by decide) (by decide +kernel)
  d := represents_ofElement curveCoefficient (by decide) (by decide +kernel)
  twoD := represents_ofElement (2 * curveCoefficient) (by decide) (by decide +kernel)
  sqrtNegOne := represents_ofElement rootOfNegOne (by decide) (by decide +kernel)
  ofBytes b := by
    have h := represents_narrow (Limbs.within_unpack b.toNat)
    rwa [values_carryAll, Limbs.residue_carryAll, values_ofNat, Limbs.residue, Limbs.value_ofNat,
      Int.cast_natCast] at h
  add := by
    rintro j k f g _ _ ⟨hf, rfl⟩ ⟨hg, rfl⟩ hjk
    refine ⟨hf.add hg hjk, ?_⟩
    rw [values_add, Limbs.residue, Limbs.value_add, Int.cast_add]
    rfl
  sub := by
    rintro j k f g _ _ ⟨hf, rfl⟩ ⟨hg, rfl⟩ hjk
    refine ⟨hf.sub hg hjk, ?_⟩
    rw [values_sub, Limbs.residue, Limbs.value_sub, Int.cast_sub]
    rfl
  neg := by
    rintro k f _ ⟨hf, rfl⟩ hk
    refine ⟨hf.neg hk, ?_⟩
    rw [values_neg, Limbs.residue, Limbs.value_neg, Int.cast_neg]
    rfl
  mul_three hf hg := factors_represents.mul hf.factor hg.factor
  square_three hf := factors_represents.square hf.factor
  squareDouble_three hf := factors_represents.squareDouble hf.factor
  toBytes_three := toBytes_represents

end Traced

namespace FieldElement

/-- The limbs are graded and stand for the residue. -/
def Represents (k : ℕ) (x : FieldElement) (y : Residue) : Prop :=
  ∃ f, Traced.Follows k x f ∧ Traced.Represents k f y

theorem simulation_represents : Coordinate.Simulation Represents :=
  Traced.simulation_follows.comp Traced.simulation_represents

/-- The limbs are within the bound of an operand and stand for the residue. -/
def RepresentsFactor (x : FieldElement) (y : Residue) : Prop :=
  ∃ f, Traced.FollowsFactor x f ∧ Traced.RepresentsFactor f y

theorem factors_represents : Coordinate.Factors Represents RepresentsFactor :=
  Traced.factors_follows.comp Traced.factors_represents

end FieldElement
end Edwards25519
