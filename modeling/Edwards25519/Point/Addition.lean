import Edwards25519.Point.Coordinates

/-! Doubling, addition and subtraction of points. The left operand is extended, the right one
prepared, and the result is completed. No formula asks whether its operands are equal, opposite or
neutral. -/
namespace Edwards25519

variable {F : Type} [Coordinate F]

open Coordinate

def Projective.double (p : Projective F) : Completed F :=
  let xx := square p.x
  let yy := square p.y
  let zz2 := squareDouble p.z
  let aa := square (p.x + p.y)
  let sum := yy + xx
  let difference := yy - xx
  ⟨aa - sum, sum, difference, zz2 - difference⟩

namespace Extended

def double (p : Extended F) : Completed F := p.toProjective.double

def negate (p : Extended F) : Extended F := ⟨-p.x, p.y, p.z, -p.t⟩

def add (p : Extended F) (q : Cached F) : Completed F :=
  let a := (p.y + p.x) * q.yPlusX
  let b := (p.y - p.x) * q.yMinusX
  let c := q.t2d * p.t
  let zz := p.z * q.z
  let d := zz + zz
  ⟨a - b, a + b, d + c, d - c⟩

def subtract (p : Extended F) (q : Cached F) : Completed F :=
  let a := (p.y + p.x) * q.yMinusX
  let b := (p.y - p.x) * q.yPlusX
  let c := q.t2d * p.t
  let zz := p.z * q.z
  let d := zz + zz
  ⟨a - b, a + b, d - c, d + c⟩

def addPrecomputed (p : Extended F) (q : Precomputed F) : Completed F :=
  let a := (p.y + p.x) * q.yPlusX
  let b := (p.y - p.x) * q.yMinusX
  let c := q.xy2d * p.t
  let d := p.z + p.z
  ⟨a - b, a + b, d + c, d - c⟩

def subtractPrecomputed (p : Extended F) (q : Precomputed F) : Completed F :=
  let a := (p.y + p.x) * q.yMinusX
  let b := (p.y - p.x) * q.yPlusX
  let c := q.xy2d * p.t
  let d := p.z + p.z
  ⟨a - b, a + b, d - c, d + c⟩

/-- The sum of two extended points. -/
def plus (p q : Extended F) : Extended F := (p.add q.toCached).toExtended

end Extended
end Edwards25519
