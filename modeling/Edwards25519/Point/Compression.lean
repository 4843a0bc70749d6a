import Edwards25519.Point.Coordinates

/-! Points in 32 bytes: the encoding of `y`, with the parity of `x` in bit 255. Reading recovers `x`
from the curve equation and fails where no `x` solves it. -/
namespace Edwards25519

variable {F : Type} [Coordinate F]

open Coordinate

namespace Affine

def encode (p : Affine F) : Bytes 32 :=
  (toBytes p.y).mapLast (· ||| if isNegative p.x then 128 else 0)

def onCurve (p : Affine F) : Bool :=
  let xx := square p.x
  let yy := square p.y
  congruent (yy - xx) (1 + d * xx * yy)

end Affine

namespace Projective

def encode (p : Projective F) : Bytes 32 := p.toAffine.encode

def onCurve (p : Projective F) : Bool := p.toAffine.onCurve

end Projective

namespace Extended

def encode (p : Extended F) : Bytes 32 := p.toProjective.encode

def onCurve (p : Extended F) : Bool := p.toProjective.onCurve

/-- Of the two solutions `x` takes the one whose parity is bit 255. Zero has one parity only, and the
bit is then ignored. -/
def decode? (b : Bytes 32) : Option (Extended F) :=
  let y : F := ofBytes b
  let yy := square y
  let u := yy - 1
  let v := yy * d + 1
  let x := sqrtRatio u v
  let vxx := square x * v
  let root? : Option F :=
    if isNonZero (vxx - u) then
      if isNonZero (vxx + u) then none else some (x * sqrtNegOne)
    else some x
  root?.map fun x =>
    let x := if isNegative x != b.topBit then -x else x
    ⟨x, y, 1, x * y⟩

/-- Whether two points are equal, by cross multiplication with the denominators. -/
def agrees (p q : Extended F) : Bool :=
  congruent (p.x * q.z) (q.x * p.z) && congruent (p.y * q.z) (q.y * p.z)

end Extended
end Edwards25519
