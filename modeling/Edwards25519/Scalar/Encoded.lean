import Edwards25519.Error
import Edwards25519.Field.Element
import Edwards25519.Scalar.Reduction

/-! Numbers as they are handed over: 32 bytes hold a field element or a scalar, 64 bytes the output
of a hash that still has to be reduced. -/
namespace Edwards25519

inductive Encoded where
  | short (bytes : Bytes 32)
  | wide (bytes : Bytes 64)
  deriving DecidableEq

namespace Encoded

def ofBytes (s : ByteString) : Except Error Encoded :=
  match Bytes.ofList? 32 s, Bytes.ofList? 64 s with
  | some b, _ => .ok (short b)
  | none, some b => .ok (wide b)
  | none, none => .error (.invalidEncodingLength s.length)

def toBytes : Encoded → ByteString
  | short b => b.toList
  | wide b => b.toList

def toNat (e : Encoded) : Nat := ByteString.toNat e.toBytes

def length (e : Encoded) : Nat := e.toBytes.length

/-- The field element in the first 32 bytes. -/
def decode : Encoded → FieldElement
  | short b => .ofBytes b
  | wide b => .ofBytes b.low

/-- The residue modulo the group order. -/
def reduce : Encoded → Bytes 32
  | short b => Scalar.reduce b.widen
  | wide b => Scalar.reduce b

/-- The scalar of 32 bytes: 64 bytes are reduced, 32 bytes are taken as they are. -/
def toScalar : Encoded → Bytes 32
  | short b => b
  | wide b => Scalar.reduce b

/-- The scalar with bit 255 clear: where the bit is set, the residue. -/
def toRecodable (e : Encoded) : Bytes 32 :=
  let b := e.toScalar
  if b.topBit then Scalar.reduce b.widen else b

/-- The residue of `a * b + c` modulo the group order. -/
def mulAdd (a b c : Encoded) : Bytes 32 := Scalar.mulAdd a.toScalar b.toScalar c.toScalar

def isOdd (e : Encoded) : Bool := e.toBytes.head? |>.any (· &&& 1 == 1)

def isNonZero (e : Encoded) : Bool := e.toBytes.any (· != 0)

end Encoded
end Edwards25519
