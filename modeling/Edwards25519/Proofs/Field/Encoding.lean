import Edwards25519.Proofs.Bytes
import Edwards25519.Proofs.Field.Product
import Edwards25519.Scalar.Encoded

/-! Field elements in 32 bytes. The bytes are those of the least residue, whatever the limbs are, so that
comparing bytes compares residues. Reading bytes takes any number of 255 bits, and writing gives the bytes
back that stand for a least residue. -/
namespace Edwards25519

namespace Residue

theorem isNegative_iff (x : Residue) : Coordinate.isNegative x = true ↔ Odd x.val := by
  have hfirst : ((Coordinate.toBytes x).first &&& 1).toNat = x.val % 2 := by
    rw [UInt8.toNat_and, Bytes.toNat_first, toNat_toBytes]
    change x.val % 256 &&& 1 = _
    rw [Nat.and_one_is_mod]
    omega
  rw [Coordinate.isNegative, beq_iff_eq, ← UInt8.toNat_inj, hfirst, Nat.odd_iff]
  rfl

theorem isNonZero_iff (x : Residue) : Coordinate.isNonZero x = true ↔ x ≠ 0 := by
  rw [Coordinate.isNonZero, bne_iff_ne, not_iff_not]
  constructor
  · intro h
    have hval := congrArg Bytes.toNat h
    rw [toNat_toBytes] at hval
    exact (ZMod.val_eq_zero x).mp (hval.trans (by decide))
  · rintro rfl
    decide

/-- The order of the field is odd. -/
theorem odd_neg {x : Residue} (hx : x ≠ 0) : Odd (-x).val ↔ ¬ Odd x.val := by
  have hval : (-x).val = fieldOrder - x.val := by rw [ZMod.neg_val, if_neg hx]
  have hlt := ZMod.val_lt x
  have hodd : fieldOrder % 2 = 1 := by decide
  rw [hval, Nat.odd_iff, Nat.odd_iff]
  omega

end Residue

namespace Limbs

open LimbArithmetic

/-- The limbs that hand something on to the next one: all but the last. -/
def floorChain : List (Fin 10) := (List.finRange 9).map Fin.castSucc

/-- The limbs with 19 times the quotient added to limb `i`. -/
def addQuotient {α : Type} [LimbArithmetic α] (h : Limbs α) (i : Fin 10) : Limbs α :=
  place h i (h.get i + ((19 : ℤ) : α) * quotient h)

lemma canonical_eq {α : Type} [LimbArithmetic α] {g h : Limbs α}
    (hg : floorChain.foldl carryFloor (addQuotient h 0) = g) :
    canonical h = place g 9 (dropHigh (g.get 9)) := by
  subst hg
  rfl

/-- All steps to the least residue are exact: those of the quotient, the carries after it has been added,
and the cut at the end. -/
structure ExactCanonical (c : Limbs (Checked 64)) (v : Limbs Int64) : Prop where
  quotient : Exact (quotient c) (quotient v)
  carries : ExactRun carryFloor carryFloor floorChain (addQuotient c 0) (addQuotient v 0)
  canonical : Related Exact (canonical c) (canonical v)

lemma addQuotient_related {α β : Type} [LimbArithmetic α] [LimbArithmetic β] {R : α → β → Prop}
    (hR : Simulation R) {h : Limbs α} {h' : Limbs β} (hh : Related R h h') (i : Fin 10) :
    Related R (addQuotient h i) (addQuotient h' i) :=
  hh.set i.isLt (hR.add (hh.fin i) (hR.mul (hR.intCast 19) (quotient_related hR hh)))

lemma Digits.allFit {w : ℕ} {h : Limbs (Checked w)} (hd : Digits h) : AllFit h := ⟨hd.fits⟩

lemma fits_quotient {w : ℕ} {c : Limbs (Checked w)} {i : Fin 10} (h : AllFit (addQuotient c i)) :
    (quotient c).fits := by
  have hplace := h.limb i
  rw [addQuotient, get_place, if_pos rfl] at hplace
  exact hplace.2.1.2.1

/-- Limbs of 32 bits are brought to the least residue without an overflow. -/
theorem exactCanonical_of_within {c : Limbs (Checked 64)} {v : Limbs Int64} (hc : Within wordBound c)
    (hcv : Related Stands c v) : ExactCanonical c v := by
  have hcanonical := (digits_canonical hc).allFit
  have hfloors : AllFit (floorChain.foldl carryFloor (addQuotient c 0)) := by
    rw [canonical_eq rfl] at hcanonical
    exact allFit_of_place And.left hcanonical
  have hquotient : AllFit (addQuotient c 0) :=
    of_foldl (P := AllFit) (fun _ _ => allFit_of_move) _ hfloors
  have hfits := fits_quotient hquotient
  constructor
  · exact ⟨hfits, quotient_related simulation_int64 hcv hfits⟩
  · exact exactRun_of_allFit allFit_of_move (fun i _ _ h => carryFloor_related simulation_int64 h i)
      (addQuotient_related simulation_int64 hcv 0) hfloors
  · exact hcanonical.exact (canonical_related simulation_int64 hcv)

end Limbs

namespace FieldElement

open Limbs LimbArithmetic

variable {f g : FieldElement}

/-- Any limbs are written as the residue is. -/
lemma toBytes_eq_residue (f : FieldElement) : Coordinate.toBytes f = Coordinate.toBytes f.residue := by
  have hchecked := Traced.toBytes_eq_of_within (Traced.within_ofElement f) (Traced.stands_ofElement f)
  have hresidue := Traced.toBytes_residue (Traced.within_ofElement f)
  rw [Traced.values_ofElement] at hresidue
  exact hchecked.trans hresidue

lemma toNat_toBytes (f : FieldElement) : (Coordinate.toBytes f).toNat = f.residue.val := by
  rw [toBytes_eq_residue, Residue.toNat_toBytes]

lemma val_residue (f : FieldElement) : (f.residue.val : ℤ) = f.toInt % fieldOrder :=
  ZMod.val_intCast f.toInt

lemma residue_eq_iff : f.residue = g.residue ↔ f.toInt ≡ g.toInt [ZMOD fieldOrder] :=
  ZMod.intCast_eq_intCast_iff f.toInt g.toInt fieldOrder

lemma residue_eq_zero_iff : f.residue = 0 ↔ (fieldOrder : ℤ) ∣ f.toInt :=
  ZMod.intCast_zmod_eq_zero_iff_dvd f.toInt fieldOrder

lemma congruent_iff : Coordinate.congruent f g = true ↔ f.residue = g.residue := by
  rw [Coordinate.congruent, toBytes_eq_residue, toBytes_eq_residue]
  exact Residue.congruent_iff

lemma isNonZero_eq_residue (f : FieldElement) :
    Coordinate.isNonZero f = Coordinate.isNonZero f.residue := by
  rw [Coordinate.isNonZero, Coordinate.isNonZero, toBytes_eq_residue]

lemma isNegative_eq_residue (f : FieldElement) :
    Coordinate.isNegative f = Coordinate.isNegative f.residue := by
  rw [Coordinate.isNegative, Coordinate.isNegative, toBytes_eq_residue]

/-- The least residue is the only number below the order of the field that is congruent to the limbs. -/
lemma val_residue_eq_iff {n : ℕ} :
    f.residue.val = n ↔ n < fieldOrder ∧ (n : ℤ) ≡ f.toInt [ZMOD fieldOrder] := by
  have hval := f.val_residue
  constructor
  · rintro rfl
    refine ⟨ZMod.val_lt _, ?_⟩
    rw [hval]
    exact Int.mod_modEq _ _
  · rintro ⟨hlt, hmod⟩
    have hn : (n : ℤ) % fieldOrder = n := Int.emod_eq_of_lt (by omega) (by omega)
    have hmod : (n : ℤ) % fieldOrder = f.toInt % fieldOrder := hmod
    omega

/-- The quotient that the words give is the one by the order of the field, rounded down. -/
lemma toInt_quotient (f : FieldElement) : (quotient f.wide).toInt = f.toInt / fieldOrder := by
  have hexact := (exactCanonical_of_within (Traced.within_ofElement f) (Traced.stands_ofElement f)).quotient
  have hvalue : (quotient (Traced.ofElement f).wide).value =
      quotient (Traced.values (Traced.ofElement f).wide) :=
    quotient_related simulation_value (Related.of_map _ _)
  have hbound : ∀ i, |(Traced.values (Traced.ofElement f).wide).get i| ≤ wordBound i := by
    intro i
    rw [Traced.get_values]
    exact (Traced.within_ofElement f i).2
  rw [hexact.toInt, hvalue, quotient_eq hbound, Traced.values_wide, Traced.values_ofElement]
  rfl

/-- The bytes are those of the least residue, for any limbs of 32 bits, and no step on the way to them
overflows. So equality is congruence, an element counts as zero if the order of the field divides it, and the
sign is the parity of the least residue. -/
theorem toBytes_canonical :
    (∀ f : FieldElement,
      (∀ n : ℕ, (Coordinate.toBytes f).toNat = n ↔
        n < fieldOrder ∧ (n : ℤ) ≡ f.toInt [ZMOD fieldOrder]) ∧
      Coordinate.toBytes f = Bytes.ofNat 32 (f.toInt % fieldOrder).toNat ∧
      (quotient f.wide).toInt = f.toInt / fieldOrder ∧
      ExactCanonical (Traced.ofElement f).wide f.wide ∧
      (∀ i, 0 ≤ ((canonical f.wide).get i).toInt ∧ ((canonical f.wide).get i).toInt < 2 ^ bits i) ∧
      (Coordinate.isNonZero f = true ↔ ¬ (fieldOrder : ℤ) ∣ f.toInt) ∧
      (Coordinate.isNegative f = true ↔ Odd (f.toInt % fieldOrder))) ∧
    ∀ f g : FieldElement, (f == g) = true ↔ f.toInt ≡ g.toInt [ZMOD fieldOrder] := by
  refine ⟨fun f => ?_, fun f g => congruent_iff.trans residue_eq_iff⟩
  have hwithin := Traced.within_ofElement f
  have hexact := exactCanonical_of_within hwithin (Traced.stands_ofElement f)
  refine ⟨fun n => ?_, ?_, toInt_quotient f, hexact, fun i => ?_, ?_, ?_⟩
  · rw [toNat_toBytes]
    exact val_residue_eq_iff
  · rw [toBytes_eq_residue, ← val_residue]
    rfl
  · rw [(hexact.canonical.fin i).toInt]
    exact (digits_canonical hwithin).bounds i
  · rw [isNonZero_eq_residue, Residue.isNonZero_iff, ne_eq, residue_eq_zero_iff]
  · rw [isNegative_eq_residue, Residue.isNegative_iff, ← val_residue, Int.odd_coe_nat]

lemma carried_ofBytes (b : Bytes 32) : (ofBytes b).Carried :=
  (represents_one_iff.mp (simulation_represents.ofBytes b)).1

/-- Bytes are read as the number of their low 255 bits. -/
lemma residue_ofBytes (b : Bytes 32) :
    (ofBytes b).residue = ((b.toNat % 2 ^ 255 : ℕ) : Residue) :=
  (represents_one_iff.mp (simulation_represents.ofBytes b)).2

lemma toBytes_ofBytes (b : Bytes 32) :
    Coordinate.toBytes (ofBytes b) = Bytes.ofNat 32 (b.toNat % 2 ^ 255 % fieldOrder) := by
  rw [toBytes_eq_residue, residue_ofBytes]
  exact congrArg (Bytes.ofNat 32) (ZMod.val_natCast fieldOrder _)

/-- Only the numbers below the order of the field come back as the bytes that they were read from. -/
lemma toBytes_ofBytes_eq_iff (b : Bytes 32) :
    Coordinate.toBytes (ofBytes b) = b ↔ b.toNat < fieldOrder := by
  have horder : fieldOrder = 2 ^ 255 - 19 := rfl
  have hval : (Coordinate.toBytes (ofBytes b)).toNat = b.toNat % 2 ^ 255 % fieldOrder := by
    rw [toNat_toBytes, residue_ofBytes]
    exact ZMod.val_natCast fieldOrder _
  constructor
  · intro h
    rw [h] at hval
    exact hval.trans_lt (Nat.mod_lt _ (by decide))
  · intro h
    have hlow : b.toNat % 2 ^ 255 = b.toNat := Nat.mod_eq_of_lt (by omega)
    rw [hlow, Nat.mod_eq_of_lt h] at hval
    exact Bytes.toNat_injective hval

/-- An element and its bytes read again have the same residue. -/
lemma residue_ofBytes_toBytes (f : FieldElement) :
    (ofBytes (Coordinate.toBytes f)).residue = f.residue := by
  have hlt := ZMod.val_lt f.residue
  have horder : fieldOrder = 2 ^ 255 - 19 := rfl
  rw [residue_ofBytes, toNat_toBytes, Nat.mod_eq_of_lt (by omega)]
  exact ZMod.natCast_zmod_val f.residue

/-- Reading 32 bytes is exact: the limbs stand for the number of the low 255 bits, they are carried, and no
step on the way to them overflows or cuts anything off; what is loaded before the carries are the limbs of the
number (`load_eq_ofNat`). Written again, the number is reduced, so just the numbers below the order of the
field come back as they were. Any element is congruent to what its own bytes are read as. -/
theorem ofBytes_exact :
    (∀ b : Bytes 32,
      (ofBytes b).residue = ((b.toNat % 2 ^ 255 : ℕ) : Residue) ∧ (ofBytes b).Carried ∧
      Coordinate.toBytes (ofBytes b) = Bytes.ofNat 32 (b.toNat % 2 ^ 255 % fieldOrder) ∧
      (Coordinate.toBytes (ofBytes b) = b ↔ b.toNat < fieldOrder) ∧
      ExactRun carry carry unpackChain (ofNat b.toNat) (ofNat b.toNat) ∧
      ∀ i, ((ofBytes b).limbs.get i).toInt =
        ((carryAll unpackChain (ofNat b.toNat : Limbs Int64)).get i).toInt) ∧
    ∀ f : FieldElement, ((Encoded.short (Coordinate.toBytes f)).decode == f) = true := by
  refine ⟨fun b => ?_, fun f => congruent_iff.mpr (residue_ofBytes_toBytes f)⟩
  have hstands := ofNat_related simulation_int64 b.toNat
  have hcarries := carryAll_related simulation_int64 hstands unpackChain
  have hwithin := within_unpack b.toNat
  have hlimbs := toInt_narrow hwithin hcarries
  rw [← ofBytes_eq_narrow] at hlimbs
  exact ⟨residue_ofBytes b, carried_ofBytes b, toBytes_ofBytes b, toBytes_ofBytes_eq_iff b,
    exactRun_carryAll hstands hwithin, hlimbs⟩

end FieldElement

end Edwards25519
