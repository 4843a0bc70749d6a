import Edwards25519.Key

/-! Signatures: the encoding of a point and a scalar. Verification never fails, it says no, and takes a
scalar only if it is positive and below the group order. -/
namespace Edwards25519

structure Signature where
  /-- The encoding of the nonce's point. -/
  r : Bytes 32
  /-- The scalar. -/
  s : Bytes 32
  deriving DecidableEq

namespace Signature

def ofBytes (b : ByteString) : Except Error Signature :=
  match Bytes.ofList? 64 b with
  | some b => .ok ⟨b.low, b.high⟩
  | none => .error (.invalidSignatureLength b.length)

def ofHex (text : String) : Except Error Signature := do ofBytes (← Hex.read text)

def toBytes (sig : Signature) : Bytes 64 := sig.r ++ sig.s

def text (sig : Signature) : String := Hex.encodeUpper sig.toBytes.toList

def render (sig : Signature) : String := "Signature(" ++ sig.text ++ ")"

def isCanonical (sig : Signature) : Bool :=
  sig.s != Bytes.zero 32 && Scalar.isCanonical sig.s

/-- Replaces the scalar by its residue. -/
def makeCanonical (sig : Signature) : Signature := ⟨sig.r, Scalar.reduce sig.s.widen⟩

/-- The scalar that a signature is bound to the key and the message by. -/
def challenge (suite : Suite) (r key : Bytes 32) (message : ByteString) : Bytes 32 :=
  Scalar.reduce (suite.hash512 (r.toList ++ key.toList ++ message))

/-- The nonce is derived from the key and the message, so that equal messages have equal signatures. -/
def nonce (suite : Suite) (key : PrivateKey) (message : ByteString) : Bytes 32 :=
  Scalar.reduce (suite.hash512 ((key.noncePrefix suite).toList ++ message))

def sign (suite : Suite) (pair : KeyPair) (message : ByteString) :
    Logged (Except Error Signature) :=
  match pair.requireSecret with
  | .error e => pure (.error e)
  | .ok key => do
    let n := nonce suite key message
    let r := (baseTable.multiply (.short n)).encode
    let k := challenge suite r pair.encoded message
    let sig : Signature := ⟨r, Scalar.mulAdd k (key.scalar suite) n⟩
    if sig.isCanonical then return .ok sig
    else
      Logged.note (.madeNonCanonicalSignature sig.toBytes.toList)
      return .error .nonCanonicalSignatureGenerated

/-- Whether the multiple of the base point by the scalar, less the multiple of the key's point by the
challenge, has the encoding that the signature starts with. -/
def verify (suite : Suite) (pair : KeyPair) (message : ByteString) (sig : Signature) :
    Logged Bool :=
  if !sig.isCanonical then do
    Logged.note .rejectingNonCanonicalSignature
    return false
  else if pair.encoded = Bytes.zero 32 then do
    Logged.note .rejectingZeroPublicKey
    return false
  else
    match Extended.decode? pair.encoded with
    | none => do
      Logged.note .rejectingUndecodablePublicKey
      return false
    | some point => do
      let k := challenge suite sig.r pair.encoded message
      let (multiples, _) ← (TabledPoint.ofPoint point).oddMultiples
      return (OddMultiples.combine baseOddMultiples multiples k sig.s).encode == sig.r

end Signature
end Edwards25519
