/-! Byte strings and the numbers they stand for, least significant byte first. -/
namespace Edwards25519

/-- A byte string of any length. -/
abbrev ByteString := List UInt8

/-- A byte string of length `n`. -/
abbrev Bytes (n : Nat) := Vector UInt8 n

namespace ByteString

/-- The number whose digits in base 256 are the bytes, the first one least significant. -/
def toNat : ByteString → Nat
  | [] => 0
  | b :: s => b.toNat + 256 * toNat s

@[simp] theorem toNat_nil : toNat [] = 0 := rfl

@[simp] theorem toNat_cons (b : UInt8) (s : ByteString) :
    toNat (b :: s) = b.toNat + 256 * toNat s := rfl

/-- Whether the first of two strings of one length is the lower number, both with the most significant
byte first: the first bytes that differ decide. -/
def below : ByteString → ByteString → Bool
  | a :: s, b :: t => if a = b then below s t else a < b
  | _, _ => false

/-- Cuts a string into parts of `n` bytes; the last one may be shorter. -/
def chunks (n : Nat) (s : ByteString) : List ByteString :=
  if _h : s = [] ∨ n = 0 then [] else s.take n :: chunks n (s.drop n)
termination_by s.length
decreasing_by
  have := List.length_pos_iff.2 (fun e => _h (Or.inl e))
  simp only [List.length_drop]
  omega

end ByteString

namespace Bytes

def zero (n : Nat) : Bytes n := Vector.replicate n 0

def toNat {n : Nat} (b : Bytes n) : Nat := ByteString.toNat b.toList

/-- The `n` low bytes of a number. -/
def ofNat (n value : Nat) : Bytes n := Vector.ofFn fun i => UInt8.ofNat (value >>> (8 * i.val))

def ofList? (n : Nat) (s : ByteString) : Option (Bytes n) :=
  if h : s.length = n then some ⟨s.toArray, by simpa using h⟩ else none

/-- The first `n` bytes of a string, zeros in place of those that it lacks. -/
def ofPrefix (n : Nat) (s : ByteString) : Bytes n :=
  ofNat n (ByteString.toNat (s.take n))

/-- The first half of 64 bytes. -/
def low (b : Bytes 64) : Bytes 32 := Vector.ofFn fun i => b[i.val]

/-- The second half of 64 bytes. -/
def high (b : Bytes 64) : Bytes 32 := Vector.ofFn fun i => b[32 + i.val]

/-- The same number in twice as many bytes. -/
def widen (b : Bytes 32) : Bytes 64 := b ++ zero 32

/-- Whether the first number is the lower one, from the last byte down. -/
def below {n : Nat} (a b : Bytes n) : Bool := ByteString.below a.toList.reverse b.toList.reverse

def xor {n : Nat} (a b : Bytes n) : Bytes n := Vector.zipWith (· ^^^ ·) a b

def first (b : Bytes 32) : UInt8 := b[0]

def last (b : Bytes 32) : UInt8 := b[31]

def mapFirst (f : UInt8 → UInt8) (b : Bytes 32) : Bytes 32 := b.set 0 (f b[0])

def mapLast (f : UInt8 → UInt8) (b : Bytes 32) : Bytes 32 := b.set 31 (f b[31])

/-- Bit 255 of 32 bytes. -/
def topBit (b : Bytes 32) : Bool := b.last >>> 7 == 1

end Bytes
end Edwards25519
