import Edwards25519.Cipher.Chaining
import Edwards25519.Key

/-! Encryption between two key pairs. Both sides reach the same point, the multiple of one key's point
by the other key's scalar; its encoding and a salt give the key of a block cipher. An envelope holds
the salt, the initial vector and the encrypted blocks. It is not authenticated. -/
namespace Edwards25519

namespace Envelope

def saltLength : Nat := 32

def ivLength : Nat := 16

/-- The salt, the initial vector and one block. -/
def minimumLength : Nat := saltLength + ivLength + ivLength

/-- The key that the owner of `key` shares with the owner of `peer`. -/
def sharedKey (suite : Suite) (key : PrivateKey) (peer : PublicKey) (salt : Bytes 32) :
    Logged (Except Error (Bytes 32)) :=
  match peer.toBytes? with
  | none => pure (.error (.invalidEncodingLength peer.raw.length))
  | some encoded =>
    match (Extended.decode? encoded : Option (Extended FieldElement)) with
    | none => pure (.error .invalidCurvePoint)
    | some point => do
      let (shared, _) ← (TabledPoint.ofPoint point).multiply (.short (key.scalar suite))
      return .ok (suite.hash256 (Bytes.xor shared.encode salt).toList)

/-- The salt and the initial vector are drawn before the key is derived. -/
def encrypt (suite : Suite) (sender recipient : KeyPair) (plaintext : ByteString) :
    Randomized ByteString := do
  let secret ← Randomized.ofLogged (pure sender.requireSecret)
  let salt ← Randomized.draw 32
  let iv ← Randomized.draw 16
  let key ← Randomized.ofLogged (sharedKey suite secret recipient.publicKey salt)
  return salt.toList ++ iv.toList ++ Chaining.encrypt (suite.encryptBlock key) iv plaintext

/-- The length is checked before the recipient's private key is asked for. -/
def decrypt (suite : Suite) (sender recipient : KeyPair) (input : ByteString) :
    Logged (Except Error ByteString) :=
  if input.length < minimumLength then do
    Logged.note (.ciphertextTooShort input.length)
    return .error (.ciphertextTooShort input.length)
  else
    match recipient.requireSecret with
    | .error e => pure (.error e)
    | .ok secret => do
      let salt := Bytes.ofPrefix 32 input
      let iv := Bytes.ofPrefix 16 (input.drop 32)
      match ← sharedKey suite secret sender.publicKey salt with
      | .error e => return .error e
      | .ok key =>
        match Chaining.decrypt (suite.decryptBlock key) iv (input.drop 48) with
        | some plaintext => return .ok plaintext
        | none =>
          Logged.note .paddingCheckFailed
          return .error .decryptionFailed

end Envelope
end Edwards25519
