import Edwards25519.Point.Compression
import Edwards25519.Point.Addition

/-! The base point: `y` is `4 / 5` and `x` is even. -/
namespace Edwards25519

def basePointX : Bytes 32 := Bytes.ofNat 32
  15112221349535400772501151409588531511454012693041857206046113283949847762202

/-- The base point in 32 bytes. -/
def basePointEncoded : Bytes 32 := Bytes.ofNat 32
  46316835694926478169428394003475163141307993866256225615783033603165251855960

def Extended.base {F : Type} [Coordinate F] : Extended F :=
  let x : F := Coordinate.ofBytes basePointX
  let y : F := Coordinate.ofBytes basePointEncoded
  ⟨x, y, 1, x * y⟩

end Edwards25519
