import Edwards25519.Point.Addition
import Edwards25519.Scalar.Digits
import Edwards25519.Scalar.Encoded

/-! Multiples of a point by tables. The fixed-base table holds the multiples `(j + 1) * 256 ^ i` for
`i < 32` and `j < 8` and serves all digits in radix 16; the odd multiples up to 15 serve the sliding
windows of two scalars at once. -/
namespace Edwards25519

/-- The values `x, f x, f (f x), …`. -/
def orbit {α : Type} (f : α → α) : Nat → α → List α
  | 0, _ => []
  | n + 1, x => x :: orbit f n (f x)

@[simp] theorem length_orbit {α : Type} (f : α → α) (n : Nat) (x : α) :
    (orbit f n x).length = n := by
  induction n generalizing x with
  | zero => rfl
  | succ n ih => simp [orbit, ih]

/-- The orbit as a vector. -/
def orbitVector {α : Type} (f : α → α) (n : Nat) (x : α) : Vector α n :=
  ⟨(orbit f n x).toArray, by simp⟩

abbrev FixedBaseTable (F : Type) := Vector (Vector (Precomputed F) 8) 32

abbrev OddMultiples (F : Type) := Vector (Precomputed F) 8

variable {F : Type} [Coordinate F]

namespace FixedBaseTable

/-- The multiples of a point from 1 to 8. -/
def row (p : Extended F) : Vector (Precomputed F) 8 :=
  let q := p.toCached
  (orbitVector (fun r => (r.add q).toExtended) 8 p).map (·.toPrecomputed)

/-- The multiple by 256. -/
def nextRow (p : Extended F) : Extended F := (List.range 8).foldl (fun q _ => q.plus q) p

def ofPoint (p : Extended F) : FixedBaseTable F := (orbitVector nextRow 32 p).map row

/-- All bits are set where the digit is negative, and none where it is not. -/
def signMask (digit : Int8) : Int16 := digit.toInt16 >>> 7

/-- The size of a digit: under the mask of a negative digit one less than the digit is complemented. -/
def magnitude (digit : Int8) : UInt16 :=
  ((digit.toInt16 + signMask digit) ^^^ signMask digit).toUInt16

/-- The multiple of the row's point by a digit. Every entry is looked at, and the one in the place of the
digit's size is taken. A digit outside of `[-8, 8]` counts as zero. -/
def selectFrom (entries : Vector (Precomputed F) 8) (digit : Int8) : Precomputed F :=
  let entry := Fin.foldl 8 (fun t i =>
    if magnitude digit = UInt16.ofNat (i.val + 1) then entries[i] else t) Precomputed.neutral
  if signMask digit &&& 1 = 1 then entry.negate else entry

/-- The multiple by a scalar: the odd digits times 16, and then the even digits. -/
def multiply (t : FixedBaseTable F) (s : Encoded) : Extended F :=
  let digits : Vector Int8 64 := Scalar.radix16 s.toRecodable
  let odd : Extended F := Fin.foldl 32 (fun h i =>
    (h.addPrecomputed (selectFrom t[i] digits[2 * i.val + 1])).toExtended) Extended.neutral
  let h := odd.double.toProjective.double.toProjective.double.toProjective.double.toExtended
  Fin.foldl 32 (fun h i =>
    (h.addPrecomputed (selectFrom t[i] digits[2 * i.val])).toExtended) h

end FixedBaseTable

namespace OddMultiples

def ofPoint (p : Extended F) : OddMultiples F :=
  let q := p.double.toExtended.toCached
  (orbitVector (fun r => (r.add q).toExtended) 8 p).map (·.toPrecomputed)

/-- The multiple by the size of an odd digit. -/
def entry (t : OddMultiples F) (digit : Int) : Precomputed F :=
  if h : digit.natAbs / 2 < 8 then t[digit.natAbs / 2] else Precomputed.neutral

def addDigit (t : OddMultiples F) (digit : Int) (p : Completed F) : Completed F :=
  if 0 < digit then p.toExtended.addPrecomputed (t.entry digit)
  else if digit < 0 then p.toExtended.subtractPrecomputed (t.entry digit)
  else p

/-- Doubles, subtracts the multiple of the first point by its digit and adds that of the second. -/
def step (other own : OddMultiples F) (p : Projective F) (digits : Int × Int) : Projective F :=
  (own.addDigit digits.2 (other.addDigit (-digits.1) p.double)).toProjective

/-- The multiple of the own point by `b` less the multiple of the other one by `a`, from the highest
digit that is not zero down. -/
def combine (own other : OddMultiples F) (a b : Bytes 32) : Projective F :=
  let digits := ((Scalar.slide a).toList.zip (Scalar.slide b).toList).reverse
  (digits.dropWhile (· = (0, 0))).foldl (step other own) Projective.neutral

end OddMultiples
end Edwards25519
