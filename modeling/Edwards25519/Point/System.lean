/-! Names of the coordinate systems for points and of the operations that exist in some of them
only. -/
namespace Edwards25519

inductive CoordinateSystem where
  /-- The coordinates `x` and `y`. -/
  | affine
  /-- A common denominator: `X / Z` and `Y / Z`. -/
  | projective
  /-- Projective with a fourth coordinate `T` such that `X * Y = Z * T`. -/
  | extended
  /-- A denominator for each coordinate: `X / Z` and `Y / T`. -/
  | completed
  /-- The values `y + x`, `y - x` and `2 * d * x * y`. -/
  | precomputed
  /-- The values `Y + X`, `Y - X`, `Z` and `2 * d * T` of an extended point. -/
  | cached
  deriving DecidableEq, Repr

def CoordinateSystem.name : CoordinateSystem → String
  | affine => "Affine"
  | projective => "P2"
  | extended => "P3"
  | completed => "P1xP1"
  | precomputed => "Precomputed"
  | cached => "Cached"

inductive PointOperation where
  | double
  | add
  | subtract
  | addPrecomputed
  | subtractPrecomputed
  | negate
  | select
  deriving DecidableEq, Repr

def PointOperation.name : PointOperation → String
  | double => "dbl"
  | add => "add"
  | subtract => "subtract"
  | addPrecomputed => "precomputed_add"
  | subtractPrecomputed => "precomputed_subtract"
  | negate => "negate"
  | select => "cmov"

end Edwards25519
