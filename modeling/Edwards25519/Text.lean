import Edwards25519.Point.Element
import Edwards25519.Scalar.Encoded

/-! Points and numbers as text for diagnostics: a record with its named values, and every value by the
encoding of its residue. -/
namespace Edwards25519

def Encoded.render (e : Encoded) : String :=
  "EncodedFieldElement(" ++ Hex.encode e.toBytes ++ ")"

namespace Coordinate

variable {F : Type} [Coordinate F]

def render (x : F) : String := "FieldElement(" ++ Hex.encode (toBytes x).toList ++ ")"

def renderRecord (name : String) (values : List (String × F)) : String :=
  name ++ " \x7b " ++
    ", ".intercalate (values.map fun v => v.1 ++ ": " ++ render v.2) ++ " \x7d"

end Coordinate

namespace Element

variable {F : Type} [Coordinate F]

open Coordinate

def renderPoint : Element F → String
  | affine p => renderRecord "GeAffine" [("x", p.x), ("y", p.y)]
  | projective p => renderRecord "GeP2" [("x", p.x), ("y", p.y), ("z", p.z)]
  | extended p => renderRecord "GeP3" [("x", p.x), ("y", p.y), ("z", p.z), ("t", p.t)]
  | completed p => renderRecord "GeP1P1" [("x", p.x), ("y", p.y), ("z", p.z), ("t", p.t)]
  | precomputed p =>
    renderRecord "GePrecomp" [("y_plus_x", p.yPlusX), ("y_minus_x", p.yMinusX), ("xy2d", p.xy2d)]
  | cached p =>
    renderRecord "GeCached"
      [("y_plus_x", p.yPlusX), ("y_minus_x", p.yMinusX), ("z", p.z), ("t2d", p.t2d)]

def render (e : Element F) : String := e.system.name ++ "(" ++ e.renderPoint ++ ")"

end Element
end Edwards25519
