import Edwards25519.Point.Compression
import Mathlib.Tactic.SplitIfs

/-! The steps of decoding: the fraction whose root is the coordinate `x`, the candidate for the root,
and the two numbers that show whether the candidate is one. -/
namespace Edwards25519.Extended

variable {F : Type} [Coordinate F]

open Coordinate

/-- The number of which the decoding takes a root, as a fraction. -/
def numerator (b : Bytes 32) : F := square (ofBytes b) - 1

def denominator (b : Bytes 32) : F := square (ofBytes b) * d + 1

/-- A root up to a sign and a root of `-1`. -/
def candidate (b : Bytes 32) : F := sqrtRatio (numerator b) (denominator b)

/-- Zero if the candidate is a root. -/
def defect (b : Bytes 32) : F := square (candidate b) * denominator b - numerator b

/-- Zero if the candidate is a root of the negated number. -/
def negatedDefect (b : Bytes 32) : F := square (candidate b) * denominator b + numerator b

/-- The point with the coordinate `x`, up to its sign, and the sign that the encoding gives. -/
def ofRoot (b : Bytes 32) (x : F) : Extended F :=
  let x := if isNegative x != b.topBit then -x else x
  ⟨x, ofBytes b, 1, x * ofBytes b⟩

theorem decode?_eq (b : Bytes 32) : (decode? b : Option (Extended F)) =
    if isNonZero (defect b : F) then
      if isNonZero (negatedDefect b : F) then none
      else some (ofRoot b (candidate b * sqrtNegOne))
    else some (ofRoot b (candidate b)) := by
  change Option.map (ofRoot b) (if isNonZero (defect b) then
    if isNonZero (negatedDefect b) then none else some (candidate b * sqrtNegOne)
    else some (candidate b)) = _
  split_ifs <;> rfl

/-- Only `x` is found; the other coordinates are read off the encoding. -/
lemma exists_ofRoot {b : Bytes 32} {p : Extended F} (h : decode? b = some p) :
    ∃ x, p = ofRoot b x := by
  rw [decode?_eq] at h
  split_ifs at h
  · exact ⟨_, (Option.some.inj h).symm⟩
  · exact ⟨_, (Option.some.inj h).symm⟩

end Edwards25519.Extended
