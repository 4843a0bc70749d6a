import Edwards25519.Hex
import Edwards25519.Point.System

/-! The causes for which an operation fails, and their wording. -/
namespace Edwards25519

inductive Error where
  /-- A number or a point has neither of the lengths it is read from. -/
  | invalidEncodingLength (length : Nat)
  | publicKeyNotCompressed
  | missingPrivateKey
  | invalidCurvePoint
  /-- A signature that was just made has a scalar of zero. -/
  | nonCanonicalSignatureGenerated
  | unsupportedConversion (source target : CoordinateSystem)
  /-- An operand is held in `system`, for which the operation does not exist. -/
  | unsupportedOperation (operation : PointOperation) (system : CoordinateSystem)
  | invalidSignatureLength (length : Nat)
  | invalidHex (cause : HexError)
  /-- The random source has fewer bytes left than were asked for. -/
  | randomnessExhausted
  | ciphertextTooShort (length : Nat)
  | decryptionFailed
  deriving DecidableEq, Repr

namespace Error

/-- What a random source says when it runs dry. -/
def outOfBytes : String := "out of bytes"

def message : Error → String
  | invalidEncodingLength n =>
    "invalid encoding length " ++ toString n ++ ", expected 32 or 64 bytes"
  | publicKeyNotCompressed => "public key must be in compressed form"
  | missingPrivateKey => "key pair does not hold a private key"
  | invalidCurvePoint => "encoding does not describe a point on the curve"
  | nonCanonicalSignatureGenerated => "generated signature is not canonical"
  | unsupportedConversion source target =>
    "cannot convert group element from " ++ source.name ++ " to " ++ target.name
  | unsupportedOperation operation system =>
    operation.name ++ " is not defined for " ++ system.name ++ " coordinates"
  | invalidSignatureLength n => "binary signature must be 64 bytes, got " ++ toString n
  | invalidHex cause => "invalid hex string: " ++ cause.message
  | randomnessExhausted => "system randomness unavailable: " ++ outOfBytes
  | ciphertextTooShort n => "ciphertext of " ++ toString n ++ " bytes is too short"
  | decryptionFailed => "decryption failed"

end Error

namespace Hex

def read (text : String) : Except Error ByteString := (decode text).mapError Error.invalidHex

end Hex
end Edwards25519
