import Edwards25519.Field.Element

/-! What the curve needs of a field: arithmetic, the curve's constants and the encoding in 32 bytes.
Formulas on points are written for every such field; field elements on limbs are the one that runs. -/
namespace Edwards25519

class Coordinate (F : Type) extends Zero F, One F, Add F, Sub F, Neg F, Mul F where
  square : F → F
  /-- Twice the square. -/
  squareDouble : F → F
  /-- The curve is `-x ^ 2 + y ^ 2 = 1 + d * x ^ 2 * y ^ 2`. -/
  d : F
  twoD : F
  sqrtNegOne : F
  ofBytes : Bytes 32 → F
  /-- The encoding of the residue; equal residues have equal encodings. -/
  toBytes : F → Bytes 32

instance : Coordinate FieldElement where
  zero := .zero
  one := .one
  add := .add
  sub := .sub
  neg := .neg
  mul := .mul
  square := .square
  squareDouble := .squareDouble
  d := .ofLimbs (-10913610) 13857413 (-15372611) 6949391 114729 (-8787816) (-6275908) (-3247719)
    (-18696448) (-12055116)
  twoD := .ofLimbs (-21827239) (-5839606) (-30745221) 13898782 229458 15978800 (-12551817)
    (-6495438) 29715968 9444199
  sqrtNegOne := .ofLimbs (-32595792) (-7943725) 9377950 3500415 12389472 (-272473) (-25146209)
    (-2005654) 326686 11406482
  ofBytes := .ofBytes
  toBytes := FieldElement.toBytes

namespace Coordinate

variable {F : Type} [Coordinate F]

def isNonZero (x : F) : Bool := toBytes x != Bytes.zero 32

/-- Half of the nonzero residues are called negative: the odd ones. -/
def isNegative (x : F) : Bool := (toBytes x).first &&& 1 == 1

/-- Whether two elements stand for the same residue. -/
def congruent (x y : F) : Bool := toBytes x == toBytes y

def squareTimes : Nat → F → F
  | 0, x => x
  | n + 1, x => squareTimes n (square x)

/-- The powers `x ^ 11` and `x ^ (2 ^ 250 - 1)`. -/
def powEleven250 (x : F) : F × F :=
  let x2 := square x
  let x9 := x * squareTimes 2 x2
  let x11 := x2 * x9
  let e5 := x9 * square x11
  let e10 := squareTimes 5 e5 * e5
  let e20 := squareTimes 10 e10 * e10
  let e40 := squareTimes 20 e20 * e20
  let e50 := squareTimes 10 e40 * e10
  let e100 := squareTimes 50 e50 * e50
  let e200 := squareTimes 100 e100 * e100
  (x11, squareTimes 50 e200 * e50)

/-- The power `x ^ (2 ^ 255 - 21)`, which is the inverse unless `x` is zero, and then zero. -/
def invert (x : F) : F :=
  let (x11, e250) := powEleven250 x
  squareTimes 5 e250 * x11

/-- The power `x ^ (2 ^ 252 - 3)`. -/
def pow252 (x : F) : F := squareTimes 2 (powEleven250 x).2 * x

/-- If `u / v` is a square, then `v * x ^ 2` is `u` or `-u` for the result `x`. -/
def sqrtRatio (u v : F) : F :=
  let v3 := square v * v
  pow252 (u * square v3 * v) * (u * v3)

end Coordinate

instance : BEq FieldElement := ⟨Coordinate.congruent⟩

end Edwards25519
