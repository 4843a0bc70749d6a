import Edwards25519.Bytes

/-! Scalars are numbers of 32 bytes. The base point has a prime order, and every scalar stands for
its residue modulo this order. -/
namespace Edwards25519

/-- The order of the base point. -/
def groupOrder : Nat := 1 <<< 252 + 27742317777372353535851937790883648493

namespace Scalar

/-- Whether the scalar is below the group order. -/
def isCanonical (s : Bytes 32) : Bool := s.below (Bytes.ofNat 32 groupOrder)

/-- Clears the three lowest bits and bit 255, and sets bit 254. -/
def clamp (b : Bytes 32) : Bytes 32 :=
  (b.mapFirst (· &&& 248)).mapLast (· &&& 127 ||| 64)

end Scalar
end Edwards25519
