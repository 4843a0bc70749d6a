import Edwards25519.Multiple.TabledPoint
import Edwards25519.Proofs.Scalar.Radix16
import Edwards25519.Proofs.Scalar.Reduction

/-! What a fixed-base multiplication looks up. A row of the table has the multiples of its point up to the
eighth, and the recoding of every scalar in radix 16 stays within them, since bit 255 is clear when it is
recoded. Digits past the table would count as zero and go unnoticed. -/
namespace Edwards25519

namespace Encoded

lemma last_toRecodable (a : Encoded) : a.toRecodable.last ≤ 127 := by
  have htop : ¬ 128 ≤ a.toRecodable.last.toNat := by
    rw [← Bytes.highBit_iff]
    exact Bool.eq_false_iff.mp a.topBit_toRecodable
  have hle : a.toRecodable.last.toNat ≤ 127 := by omega
  exact hle

end Encoded

namespace FixedBaseTable

variable {F : Type} [Coordinate F]

lemma even_lt (i : Fin 32) : 2 * i.val < 64 := by omega

lemma odd_lt (i : Fin 32) : 2 * i.val + 1 < 64 := by omega

/-- The multiple by a scalar, for some way to look multiples up in a row. -/
def multiplyWith (select : Vector (Precomputed F) 8 → Int8 → Precomputed F) (t : FixedBaseTable F)
    (s : Encoded) : Extended F :=
  let digits : Vector Int8 64 := Scalar.radix16 s.toRecodable
  let odd : Extended F := Fin.foldl 32 (fun h i =>
    (h.addPrecomputed (select (t.get i) (digits.get ⟨2 * i.val + 1, odd_lt i⟩))).toExtended)
    Extended.neutral
  let h := odd.double.toProjective.double.toProjective.double.toProjective.double.toExtended
  Fin.foldl 32 (fun h i =>
    (h.addPrecomputed (select (t.get i) (digits.get ⟨2 * i.val, even_lt i⟩))).toExtended) h

lemma multiply_eq (t : FixedBaseTable F) (s : Encoded) :
    t.multiply s = multiplyWith selectFrom t s := rfl

/-- Nothing but digits in `[-8, 8]` is looked up. -/
theorem multiplyWith_congr {select select' : Vector (Precomputed F) 8 → Int8 → Precomputed F}
    (h : ∀ row digit, -8 ≤ digit.toInt ∧ digit.toInt ≤ 8 → select row digit = select' row digit)
    (t : FixedBaseTable F) (s : Encoded) : multiplyWith select t s = multiplyWith select' t s := by
  have hdigit (row : Vector (Precomputed F) 8) (i : Fin 64) :
      select row ((Scalar.radix16 s.toRecodable).get i) =
        select' row ((Scalar.radix16 s.toRecodable).get i) := by
    obtain ⟨hword, hbounds⟩ := Scalar.toInt_radix16 s.topBit_toRecodable i
    exact h row _ (hword ▸ hbounds)
  simp only [multiplyWith, hdigit]

end FixedBaseTable

namespace Scalar

open FixedBaseTable

/-- The recoding in radix 16 is exact for every scalar, and nothing on the way to a digit overflows. All digits
but the last one lie in `[-8, 7]`; the last one keeps its carry, and lies in `[0, 8]` where bit 255 is clear.
A multiplication recodes only such scalars, so it is the same whatever digits past the table would select. -/
theorem radix16_exact :
    (∀ s : Bytes 32,
      let digit := fun i => ((radix16 s : Vector Int8 64).get i).toInt
      ∑ i, digit i * 16 ^ i.val = s.toNat ∧
      (∀ i, ((radix16 s : Vector (Checked 8) 64).get i).fits ∧ digit i = (digits s).get i) ∧
      (∀ j : Fin 63, -8 ≤ digit j.castSucc ∧ digit j.castSucc ≤ 7) ∧
      (0 ≤ digit (Fin.last 63) ∧ digit (Fin.last 63) ≤ 16) ∧
      (s.last ≤ 127 → digit (Fin.last 63) ≤ 8)) ∧
    (∀ a : Encoded, a.toRecodable.last ≤ 127 ∧
      ∀ i, -8 ≤ ((radix16 a.toRecodable : Vector Int8 64).get i).toInt ∧
        ((radix16 a.toRecodable : Vector Int8 64).get i).toInt ≤ 8) ∧
    ∀ {F : Type} [Coordinate F] (select : Vector (Precomputed F) 8 → Int8 → Precomputed F),
      (∀ row digit, -8 ≤ digit.toInt ∧ digit.toInt ≤ 8 → select row digit = selectFrom row digit) →
      ∀ (t : FixedBaseTable F) (a : Encoded), multiplyWith select t a = t.multiply a := by
  refine ⟨fun s => ?_, fun a => ⟨a.last_toRecodable, fun i => ?_⟩,
    fun select h t a => (multiplyWith_congr h t a).trans (multiply_eq t a).symm⟩
  · intro digit
    have hdigit : digit = (digits s).get := funext (toInt_digit s)
    have hbyte := s.last.toNat_lt
    obtain ⟨hlow, hhigh⟩ := digits_of_holds (radix16_bounds_last s)
    rw [hdigit]
    refine ⟨sum_digits s, fun i => ⟨fits_radix16 s i, rfl⟩,
      fun j => digits_of_holds (radix16_bounds_castSucc s j), ⟨hlow, by omega⟩, fun hlast => ?_⟩
    have hclear : s.last.toNat ≤ 127 := hlast
    omega
  · obtain ⟨hword, hbounds⟩ := toInt_radix16 a.topBit_toRecodable i
    rw [hword]
    exact hbounds

/-- The largest scalar, whose last digit the table does not have, and the largest one with bit 255 clear. A
multiplication reduces the first before it recodes it. -/
theorem radix16_exact_largest :
    let all := Bytes.ofNat 32 (2 ^ 256 - 1)
    let clear := Bytes.ofNat 32 (2 ^ 255 - 1)
    let select : Vector (Precomputed FieldElement) 8 → Int8 → Precomputed FieldElement :=
      fun row digit => if -8 ≤ digit.toInt ∧ digit.toInt ≤ 8 then selectFrom row digit else row.get 0
    ((radix16 all : Vector Int8 64).get (Fin.last 63)).toInt = 16 ∧
    ∑ i, ((radix16 all : Vector Int8 64).get i).toInt * 16 ^ i.val = 2 ^ 256 - 1 ∧
    clear.last ≤ 127 ∧ ((radix16 clear : Vector Int8 64).get (Fin.last 63)).toInt ≤ 8 ∧
    multiplyWith select baseTable (.short all) = baseTable.multiply (.short all) := by
  intro all clear select
  obtain ⟨hrecode, -, hmultiply⟩ := radix16_exact
  have hselect : ∀ row digit, -8 ≤ digit.toInt ∧ digit.toInt ≤ 8 →
      select row digit = selectFrom row digit := fun row digit h => if_pos h
  have hall : all.toNat = 2 ^ 256 - 1 := Bytes.toNat_ofNat 32 (2 ^ 256 - 1)
  have hclear : clear.last ≤ 127 := by decide
  have hsum := (hrecode all).1
  rw [hall] at hsum
  exact ⟨by decide +kernel, hsum, hclear, (hrecode clear).2.2.2.2 hclear,
    hmultiply select hselect baseTable (.short all)⟩

end Scalar

end Edwards25519
