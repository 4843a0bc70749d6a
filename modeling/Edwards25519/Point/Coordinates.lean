import Edwards25519.Field.Coordinate

/-! Points in the six coordinate systems and the conversions between them. Any values may stand in a
record; the conversions and formulas say something about points only where the values belong to one. -/
namespace Edwards25519

/-- The point `(x, y)`. -/
structure Affine (F : Type) where
  x : F
  y : F

/-- The point `(x / z, y / z)`. -/
structure Projective (F : Type) where
  x : F
  y : F
  z : F

/-- The point `(x / z, y / z)`, where `x * y = z * t`. -/
structure Extended (F : Type) where
  x : F
  y : F
  z : F
  t : F

/-- The point `(x / z, y / t)`. -/
structure Completed (F : Type) where
  x : F
  y : F
  z : F
  t : F

/-- A point `(x, y)` as the sum, the difference and the product that an addition takes. -/
structure Precomputed (F : Type) where
  yPlusX : F
  yMinusX : F
  xy2d : F

/-- An extended point as the sum, the difference and the product that an addition takes. -/
structure Cached (F : Type) where
  yPlusX : F
  yMinusX : F
  z : F
  t2d : F

variable {F : Type} [Coordinate F]

open Coordinate

namespace Projective

/-- The neutral element. -/
def neutral : Projective F := ⟨0, 1, 1⟩

/-- Division by zero gives zero, so a point without denominator becomes `(0, 0)`. -/
def toAffine (p : Projective F) : Affine F :=
  let r := invert p.z
  ⟨p.x * r, p.y * r⟩

end Projective

namespace Extended

/-- The neutral element. -/
def neutral : Extended F := ⟨0, 1, 1, 0⟩

omit [Coordinate F] in
def toProjective (p : Extended F) : Projective F := ⟨p.x, p.y, p.z⟩

def toAffine (p : Extended F) : Affine F := p.toProjective.toAffine

def toCached (p : Extended F) : Cached F := ⟨p.y + p.x, p.y - p.x, p.z, p.t * twoD⟩

def toPrecomputed (p : Extended F) : Precomputed F :=
  let r := invert p.z
  let x := p.x * r
  let y := p.y * r
  ⟨y + x, y - x, x * y * twoD⟩

end Extended

namespace Completed

def toProjective (p : Completed F) : Projective F := ⟨p.x * p.t, p.y * p.z, p.z * p.t⟩

def toExtended (p : Completed F) : Extended F := ⟨p.x * p.t, p.y * p.z, p.z * p.t, p.x * p.y⟩

end Completed

namespace Precomputed

/-- The neutral element. -/
def neutral : Precomputed F := ⟨1, 1, 0⟩

def negate (p : Precomputed F) : Precomputed F := ⟨p.yMinusX, p.yPlusX, -p.xy2d⟩

end Precomputed
end Edwards25519
