import Edwards25519.Proofs.Field.LimbBytes
import Edwards25519.Proofs.Field.LimbSimulation
import Edwards25519.Proofs.Word.Range

/-! Bounds of the limbs. Products of limbs that are sums of three carried limbs fit in 64 bits, and so
does everything in the carry chain after it; the limbs that come out are again within a hundredth of
the width that a carry leaves. -/
namespace Edwards25519.Limbs

open LimbArithmetic Range

variable {w : ℕ} {h : Limbs (Checked w)} {r : Limbs (Range w)}

/-- The limbs after a carry out of limb `i`, given the carry and what is left of the limb. -/
def moved (r : Limbs (Range w)) (i : Fin 10) (carry rest : Range w) : Limbs (Range w) :=
  place (move r i carry) i rest

/-- The limb that is carried out of is not the one that the carry goes into. -/
lemma get_move {α : Type} [LimbArithmetic α] (h : Limbs α) (i : Fin 10) (c : α) :
    (move h i c).get i = h.get i - shiftLeft c (bits i) := by
  have hne : i + 1 ≠ i := by revert i; decide
  change (place (place h i _) (i + 1) _).get i = _
  rw [get_place, if_neg hne, get_place, if_pos rfl]
  rfl

lemma holds_moved (hh : Related Holds h r) (i : Fin 10) {c : Checked w} {carry rest : Range w}
    (hcarry : Holds c carry) (hrest : Holds (h.get i - shiftLeft c (bits i)) rest) :
    Related Holds (move h i c) (moved r i carry rest) := by
  refine (move_related Range.simulation hh i hcarry).place ?_
  rwa [get_move]

def carryRange (r : Limbs (Range w)) (i : Fin 10) : Limbs (Range w) :=
  moved r i (shiftRightRounded (r.get i) (bits i)) ((r.get i).signedRemainder (bits i))

def floorRange (r : Limbs (Range w)) (i : Fin 10) : Limbs (Range w) :=
  moved r i (shiftRight (r.get i) (bits i)) ((r.get i).remainder (bits i))

lemma bits_ne_zero (i : Fin 10) : bits i ≠ 0 := by unfold bits; split <;> decide

lemma holds_carry (hh : Related Holds h r) (i : Fin 10) :
    Related Holds (carry h i) (carryRange r i) :=
  holds_moved hh i (Range.simulation.shiftRightRounded (bits i) (hh.fin i))
    (holds_signedRemainder (hh.fin i) (bits_ne_zero i))

lemma holds_carryAll (hh : Related Holds h r) (chain : List (Fin 10)) :
    Related Holds (carryAll chain h) (chain.foldl carryRange r) :=
  Related.foldl_list (R := Related Holds) chain (fun i _ _ _ hab => holds_carry hab i) hh

lemma holds_floor (hh : Related Holds h r) (i : Fin 10) :
    Related Holds (carryFloor h i) (floorRange r i) :=
  holds_moved hh i (Range.simulation.shiftRight (bits i) (hh.fin i))
    (holds_remainder (hh.fin i) (bits i))

/-- All limbs fit and are bounded in absolute value. -/
def Within (bound : Fin 10 → ℤ) (h : Limbs (Checked w)) : Prop :=
  ∀ i, (h.get i).fits ∧ |(h.get i).value| ≤ bound i

/-- The limbs of a factor stay below 1.65 times the width. -/
def operandBound (i : Fin 10) : ℤ := 33 * 2 ^ bits i / 20

/-- The limbs of a product stay below 1.01 times half the width. -/
def productBound (i : Fin 10) : ℤ := 101 * 2 ^ bits i / 200

lemma le_productBound_iff (n : ℤ) (i : Fin 10) :
    n ≤ productBound i ↔ 100 * n ≤ 101 * 2 ^ (bits i - 1) := by
  have hpow : ∀ i, (2 : ℤ) ^ bits i = 2 * 2 ^ (bits i - 1) := by decide
  rw [productBound, hpow]
  omega

def boundRange (bound : Fin 10 → ℤ) : Limbs (Range w) := Vector.ofFn fun i => ofBound (bound i)

lemma Within.holds {bound : Fin 10 → ℤ} (hh : Within bound h) : Related Holds h (boundRange bound) := by
  intro i hi hok
  obtain ⟨hfits, hle⟩ := hh ⟨i, hi⟩
  rw [boundRange, Vector.getElem_ofFn]
  exact ⟨hfits, abs_le.mp hle⟩

/-- The ranges show that the limbs fit and stay within a bound. -/
def Shows (bound : Fin 10 → ℤ) (r : Limbs (Range w)) : Prop :=
  ∀ i, (r.get i).ok = true ∧ -bound i ≤ (r.get i).low ∧ (r.get i).high ≤ bound i

instance (bound : Fin 10 → ℤ) (r : Limbs (Range w)) : Decidable (Shows bound r) :=
  inferInstanceAs (Decidable (∀ _, _))

lemma Shows.within {bound : Fin 10 → ℤ} (hr : Shows bound r) (hh : Related Holds h r) :
    Within bound h := by
  intro i
  obtain ⟨hok, hlow, hhigh⟩ := hr i
  obtain ⟨hfits, hl, hu⟩ := hh.fin i hok
  exact ⟨hfits, abs_le.mpr ⟨hlow.trans hl, hu.trans hhigh⟩⟩

theorem within_product {f g : Limbs (Checked 64)} (hf : Within operandBound f)
    (hg : Within operandBound g) :
    Within productBound (carryAll productChain (product f g)) := by
  have hr : Shows productBound (productChain.foldl carryRange
      (product (boundRange operandBound) (boundRange operandBound) : Limbs (Range 64))) := by
    decide +kernel
  exact hr.within (holds_carryAll (product_related Range.simulation hf.holds hg.holds) _)

theorem within_square {f : Limbs (Checked 64)} (hf : Within operandBound f) :
    Within productBound (carryAll productChain (square f)) := by
  have hr : Shows productBound (productChain.foldl carryRange
      (square (boundRange operandBound) : Limbs (Range 64))) := by
    decide +kernel
  exact hr.within (holds_carryAll (square_related Range.simulation hf.holds) _)

theorem within_squareDouble {f : Limbs (Checked 64)} (hf : Within operandBound f) :
    Within productBound (carryAll productChain (double (square f))) := by
  have hr : Shows productBound (productChain.foldl carryRange
      (double (square (boundRange operandBound)) : Limbs (Range 64))) := by
    decide +kernel
  exact hr.within (holds_carryAll
    (double_related Range.simulation (square_related Range.simulation hf.holds)) _)

/-- The limbs before the carries after unpacking reach up to the next cut. -/
def unpackBound (i : Fin 10) : ℤ := 2 ^ (cut.get i.succ - offset i)

lemma within_ofNat (n : ℕ) : Within unpackBound (ofNat n : Limbs (Checked 64)) := by
  intro i
  have hbound : ∀ i : Fin 10, unpackBound i ≤ 2 ^ 32 ∧
      cut.get i.succ - cut.get i.castSucc + (cut.get i.castSucc - offset i) =
        cut.get i.succ - offset i := by
    decide
  obtain ⟨hword, hexp⟩ := hbound i
  have hmod := Nat.mod_lt (n >>> cut.get i.castSucc)
    (Nat.two_pow_pos (cut.get i.succ - cut.get i.castSucc))
  have hlt : (((n >>> cut.get i.castSucc) % 2 ^ (cut.get i.succ - cut.get i.castSucc) *
      2 ^ (cut.get i.castSucc - offset i) : ℕ) : ℤ) < unpackBound i := by
    rw [unpackBound, ← hexp, pow_add]
    exact_mod_cast Nat.mul_lt_mul_of_pos_right hmod (Nat.two_pow_pos _)
  rw [← Nat.shiftLeft_eq, ← Nat.one_shiftLeft] at hlt
  have hlimb : (ofNat n : Limbs (Checked 64)).get i = Checked.ofInt
      ((((n >>> cut.get i.castSucc) % (1 <<< (cut.get i.succ - cut.get i.castSucc))) <<<
        (cut.get i.castSucc - offset i) : ℕ) : ℤ) :=
    Vector.getElem_ofFn i.isLt
  generalize ((n >>> cut.get i.castSucc) % (1 <<< (cut.get i.succ - cut.get i.castSucc))) <<<
    (cut.get i.castSucc - offset i) = m at hlt hlimb
  rw [hlimb]
  refine ⟨⟨?_, ?_⟩, ?_⟩
  · exact (by norm_num : (-2 ^ 63 : ℤ) ≤ 0).trans (Nat.cast_nonneg m)
  · exact (hlt.trans_le hword).trans (by norm_num)
  · exact (abs_of_nonneg (Nat.cast_nonneg m)).trans_le hlt.le

theorem within_unpack (n : ℕ) :
    Within productBound (carryAll unpackChain (ofNat n : Limbs (Checked 64))) := by
  have hr : Shows productBound
      (unpackChain.foldl carryRange (boundRange unpackBound : Limbs (Range 64))) := by
    decide +kernel
  exact hr.within (holds_carryAll (within_ofNat n).holds _)

/-- Any limbs of 32 bits can be brought to the least residue. -/
def wordBound (_ : Fin 10) : ℤ := 2 ^ 31

def canonicalRange (r : Limbs (Range w)) : Limbs (Range w) :=
  canonicalBy floorRange (·.remainder 25) r

lemma holds_canonical (hh : Related Holds h r) :
    Related Holds (canonical h) (canonicalRange r) :=
  canonicalBy_related Range.simulation holds_floor (holds_remainder · 25) hh

/-- All limbs fit and are digits of their width. -/
structure Digits (h : Limbs (Checked w)) : Prop where
  fits : ∀ i, (h.get i).fits
  bounds : ∀ i, 0 ≤ (h.get i).value ∧ (h.get i).value < 2 ^ bits i

def ShowsDigits (r : Limbs (Range w)) : Prop :=
  ∀ i, (r.get i).ok = true ∧ 0 ≤ (r.get i).low ∧ (r.get i).high < 2 ^ bits i

instance (r : Limbs (Range w)) : Decidable (ShowsDigits r) := inferInstanceAs (Decidable (∀ _, _))

lemma ShowsDigits.digits (hr : ShowsDigits r) (hh : Related Holds h r) : Digits h where
  fits i := (hh.fin i (hr i).1).1
  bounds i := by
    obtain ⟨hok, hlow, hhigh⟩ := hr i
    obtain ⟨-, hl, hu⟩ := hh.fin i hok
    exact ⟨hlow.trans hl, hu.trans_lt hhigh⟩

theorem digits_canonical {h : Limbs (Checked 64)} (hh : Within wordBound h) :
    Digits (canonical h) := by
  have hr : ShowsDigits (canonicalRange (boundRange wordBound) : Limbs (Range 64)) := by
    decide +kernel
  exact hr.digits (holds_canonical hh.holds)

end Edwards25519.Limbs
