import Edwards25519.Multiple.TabledPoint
import Edwards25519.Randomness
import Edwards25519.Suite

/-! Keys. A private key is a seed; hashing it gives the secret scalar and the prefix for nonces. The
public key is the encoding of the scalar's multiple of the base point. -/
namespace Edwards25519

structure PrivateKey where
  seed : Bytes 32
  deriving DecidableEq

/-- Any byte string can stand as a public key. Pairs take those of 32 bytes. -/
structure PublicKey where
  raw : ByteString
  deriving DecidableEq

/-- A public key of 32 bytes, and perhaps a private key. -/
structure KeyPair where
  secret? : Option PrivateKey
  encoded : Bytes 32
  deriving DecidableEq

namespace PrivateKey

def ofHex (text : String) : Except Error PrivateKey := do
  let s ← Hex.read text
  match Bytes.ofList? 32 s with
  | some seed => return ⟨seed⟩
  | none => throw (.invalidEncodingLength s.length)

def expand (suite : Suite) (key : PrivateKey) : Bytes 64 := suite.hash512 key.seed.toList

/-- The secret scalar. -/
def scalar (suite : Suite) (key : PrivateKey) : Bytes 32 := Scalar.clamp (key.expand suite).low

/-- What the message is prefixed with to derive a nonce. -/
def noncePrefix (suite : Suite) (key : PrivateKey) : Bytes 32 := (key.expand suite).high

/-- The public key that belongs to the private one. -/
def derive (suite : Suite) (key : PrivateKey) : Bytes 32 :=
  (baseTable.multiply (.short (key.scalar suite))).encode

/-- The seed is not shown. -/
def render (_ : PrivateKey) : String := "PrivateKey(..)"

end PrivateKey

namespace PublicKey

def ofHex (text : String) : Except Error PublicKey := return ⟨← Hex.read text⟩

def toBytes? (key : PublicKey) : Option (Bytes 32) := Bytes.ofList? 32 key.raw

def isCompressed (key : PublicKey) : Bool := key.raw.length = 32

def text (key : PublicKey) : String := Hex.encodeUpper key.raw

def render (key : PublicKey) : String := "PublicKey(" ++ key.text ++ ")"

end PublicKey

namespace KeyPair

/-- The public key is not derived again. -/
def ofKeys (secret? : Option PrivateKey) (key : PublicKey) : Except Error KeyPair :=
  match key.toBytes? with
  | some encoded => .ok ⟨secret?, encoded⟩
  | none => .error .publicKeyNotCompressed

def ofPrivate (suite : Suite) (key : PrivateKey) : KeyPair := ⟨some key, key.derive suite⟩

/-- A pair that can verify and be sent to. -/
def ofPublic (key : PublicKey) : Except Error KeyPair := ofKeys none key

def publicKey (pair : KeyPair) : PublicKey := ⟨pair.encoded.toList⟩

def requireSecret (pair : KeyPair) : Except Error PrivateKey :=
  match pair.secret? with
  | some key => .ok key
  | none => .error .missingPrivateKey

/-- A new pair whose seed is the next 32 bytes of the source. -/
def generate (suite : Suite) : Randomized KeyPair := do
  let seed ← Randomized.draw 32
  let pair := ofPrivate suite ⟨seed⟩
  Randomized.ofLogged do
    Logged.note (.generatedKeyPair pair.publicKey.raw)
    return .ok pair

def render (pair : KeyPair) : String :=
  let secret :=
    match pair.secret? with
    | some key => "Some(" ++ key.render ++ ")"
    | none => "None"
  "KeyPair \x7b private_key: " ++ secret ++ ", public_key: " ++ pair.publicKey.render ++ " \x7d"

end KeyPair
end Edwards25519
