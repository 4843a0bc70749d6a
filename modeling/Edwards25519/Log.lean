import Edwards25519.Error

/-! Computations that leave a log. A log is the list of events in the order in which they happened;
it never influences a value. -/
namespace Edwards25519

inductive Level where
  | trace
  | debug
  | error
  deriving DecidableEq, Repr

def Level.name : Level → String
  | trace => "TRACE"
  | debug => "DEBUG"
  | error => "ERROR"

inductive Event where
  | buildingFixedBaseTable
  | buildingOddMultiples
  | generatedKeyPair (publicKey : ByteString)
  /-- A signature that was just made is refused by its maker. -/
  | madeNonCanonicalSignature (signature : ByteString)
  | rejectingNonCanonicalSignature
  | rejectingZeroPublicKey
  | rejectingUndecodablePublicKey
  | ciphertextTooShort (length : Nat)
  | paddingCheckFailed
  | randomnessFailed
  deriving DecidableEq, Repr

namespace Event

def level : Event → Level
  | buildingFixedBaseTable | buildingOddMultiples => .trace
  | madeNonCanonicalSignature _ | randomnessFailed => .error
  | _ => .debug

def message : Event → String
  | buildingFixedBaseTable => "building fixed-base table"
  | buildingOddMultiples => "building odd-multiples table"
  | generatedKeyPair _ => "generated key pair"
  | madeNonCanonicalSignature _ => "generated signature is not canonical"
  | rejectingNonCanonicalSignature => "rejecting non-canonical signature"
  | rejectingZeroPublicKey => "rejecting signature for all-zero public key"
  | rejectingUndecodablePublicKey => "rejecting signature for undecodable public key"
  | ciphertextTooShort _ => "ciphertext too short"
  | paddingCheckFailed => "ciphertext padding check failed"
  | randomnessFailed => "randomness source failed"

def fields : Event → List (String × String)
  | generatedKeyPair publicKey => [("public_key", Hex.encodeUpper publicKey)]
  | madeNonCanonicalSignature signature => [("signature", Hex.encodeUpper signature)]
  | ciphertextTooShort length => [("length", toString length)]
  | randomnessFailed => [("err", Error.outOfBytes)]
  | _ => []

end Event

/-- A value together with the events on the way to it. -/
structure Logged (α : Type) where
  value : α
  events : List Event

namespace Logged

variable {α β : Type}

instance : Monad Logged where
  pure a := ⟨a, []⟩
  bind x f := ⟨(f x.value).value, x.events ++ (f x.value).events⟩

def note (e : Event) : Logged Unit := ⟨(), [e]⟩

@[simp] theorem value_pure (a : α) : (pure a : Logged α).value = a := rfl

@[simp] theorem value_bind (x : Logged α) (f : α → Logged β) :
    (x >>= f).value = (f x.value).value := rfl

@[simp] theorem value_map (f : α → β) (x : Logged α) : (f <$> x).value = f x.value := rfl

instance : LawfulMonad Logged := LawfulMonad.mk' Logged
  (by rintro α ⟨a, l⟩; simp [Functor.map])
  (by intro α β a f; rfl)
  (by intro α β γ x f g; simp [Bind.bind, List.append_assoc])

end Logged
end Edwards25519
