import Edwards25519.Envelope
import Edwards25519.Signature

/-! The facts about the curve that its users ask for. -/
namespace Edwards25519.Curve

def name : String := "ed25519"

def order : Bytes 32 := Bytes.ofNat 32 groupOrder

/-- Half of the group order, rounded down. -/
def halfOrder : Bytes 32 := Bytes.ofNat 32 (groupOrder / 2)

def keyLength : Nat := 32

def signatureLength : Nat := 64

end Edwards25519.Curve
