import Edwards25519.Error
import Edwards25519.Point.Addition
import Edwards25519.Point.Compression

/-! A point whose coordinate system is known only when the program runs. An operation that does not
exist in the system at hand fails; the operand on the left is looked at first. -/
namespace Edwards25519

inductive Element (F : Type) where
  | affine (p : Affine F)
  | projective (p : Projective F)
  | extended (p : Extended F)
  | completed (p : Completed F)
  | precomputed (p : Precomputed F)
  | cached (p : Cached F)

namespace Element

variable {F : Type}

def system : Element F → CoordinateSystem
  | affine _ => .affine
  | projective _ => .projective
  | extended _ => .extended
  | completed _ => .completed
  | precomputed _ => .precomputed
  | cached _ => .cached

def first : Element F → F
  | affine p => p.x
  | projective p => p.x
  | extended p => p.x
  | completed p => p.x
  | precomputed p => p.yPlusX
  | cached p => p.yPlusX

def second : Element F → F
  | affine p => p.y
  | projective p => p.y
  | extended p => p.y
  | completed p => p.y
  | precomputed p => p.yMinusX
  | cached p => p.yMinusX

/-- The denominator, where the system has one. -/
def third [Coordinate F] : Element F → F
  | affine _ => 1
  | projective p => p.z
  | extended p => p.z
  | completed p => p.z
  | precomputed p => p.xy2d
  | cached p => p.z

def fourth? : Element F → Option F
  | extended p => some p.t
  | completed p => some p.t
  | cached p => some p.t2d
  | _ => none

def unsupported (e : Element F) (operation : PointOperation) : Error :=
  .unsupportedOperation operation e.system

def requireExtended (e : Element F) (operation : PointOperation) : Except Error (Extended F) :=
  match e with
  | extended p => .ok p
  | e => .error (e.unsupported operation)

def requireCached (e : Element F) (operation : PointOperation) : Except Error (Cached F) :=
  match e with
  | cached p => .ok p
  | e => .error (e.unsupported operation)

def requirePrecomputed (e : Element F) (operation : PointOperation) :
    Except Error (Precomputed F) :=
  match e with
  | precomputed p => .ok p
  | e => .error (e.unsupported operation)

variable [Coordinate F]

def decode (s : ByteString) : Except Error (Element F) :=
  match Bytes.ofList? 32 s with
  | none => .error (.invalidEncodingLength s.length)
  | some b =>
    match Extended.decode? b with
    | none => .error .invalidCurvePoint
    | some p => .ok (extended p)

/-- Extended and completed points can be converted, and every system but the affine one to itself. -/
def convert (e : Element F) (target : CoordinateSystem) : Except Error (Element F) :=
  match e, target with
  | projective p, .projective => .ok (projective p)
  | extended p, .projective => .ok (projective p.toProjective)
  | extended p, .extended => .ok (extended p)
  | extended p, .cached => .ok (cached p.toCached)
  | completed p, .projective => .ok (projective p.toProjective)
  | completed p, .extended => .ok (extended p.toExtended)
  | completed p, .completed => .ok (completed p)
  | precomputed p, .precomputed => .ok (precomputed p)
  | cached p, .cached => .ok (cached p)
  | e, target => .error (.unsupportedConversion e.system target)

def toProjective : Element F → Except Error (Projective F)
  | projective p => .ok p
  | extended p => .ok p.toProjective
  | completed p => .ok p.toProjective
  | e => .error (.unsupportedConversion e.system .projective)

def toAffine? : Element F → Option (Affine F)
  | affine p => some p
  | projective p => some p.toAffine
  | extended p => some p.toAffine
  | completed p => some p.toProjective.toAffine
  | precomputed _ | cached _ => none

def double : Element F → Except Error (Element F)
  | projective p => .ok (completed p.double)
  | extended p => .ok (completed p.double)
  | e => .error (e.unsupported .double)

def add (e f : Element F) : Except Error (Element F) := do
  let p ← e.requireExtended .add
  let q ← f.requireCached .add
  return completed (p.add q)

def subtract (e f : Element F) : Except Error (Element F) := do
  let p ← e.requireExtended .subtract
  let q ← f.requireCached .subtract
  return completed (p.subtract q)

def addPrecomputed (e f : Element F) : Except Error (Element F) := do
  let p ← e.requireExtended .addPrecomputed
  let q ← f.requirePrecomputed .addPrecomputed
  return completed (p.addPrecomputed q)

def subtractPrecomputed (e f : Element F) : Except Error (Element F) := do
  let p ← e.requireExtended .subtractPrecomputed
  let q ← f.requirePrecomputed .subtractPrecomputed
  return completed (p.subtractPrecomputed q)

def negate (e : Element F) : Except Error (Element F) := do
  let p ← e.requireExtended .negate
  return extended p.negate

/-- Picks `f` if the choice is set, and `e` if not. -/
def select (choice : Bool) (e f : Element F) : Except Error (Element F) := do
  let p ← e.requirePrecomputed .select
  let q ← f.requirePrecomputed .select
  return precomputed (if choice then q else p)

def encode (e : Element F) : Except Error (Bytes 32) := e.toProjective.map (·.encode)

def onCurve (e : Element F) : Except Error Bool := e.toProjective.map (·.onCurve)

open Coordinate in
/-- Equality within one system: by encodings, by cross multiplication of extended points, or value by
value for prepared points. -/
def agreesWithin : Element F → Element F → Bool
  | projective p, projective q => p.encode == q.encode
  | extended p, extended q => p.agrees q
  | completed p, completed q => p.toProjective.encode == q.toProjective.encode
  | precomputed p, precomputed q =>
    congruent p.yPlusX q.yPlusX && congruent p.yMinusX q.yMinusX && congruent p.xy2d q.xy2d
  | cached p, cached q =>
    congruent p.yPlusX q.yPlusX && congruent p.yMinusX q.yMinusX && congruent p.z q.z &&
      congruent p.t2d q.t2d
  | _, _ => false

open Coordinate in
/-- An affine point is compared by affine coordinates. Otherwise the right element is converted to the
system of the left one, and the two differ if it cannot be: the order matters. -/
def agrees (e f : Element F) : Bool :=
  if e.system = .affine ∨ f.system = .affine then
    match e.toAffine?, f.toAffine? with
    | some p, some q => congruent p.x q.x && congruent p.y q.y
    | _, _ => false
  else if e.system = f.system then agreesWithin e f
  else
    match f.convert e.system with
    | .ok g => agreesWithin e g
    | .error _ => false

end Element
end Edwards25519
