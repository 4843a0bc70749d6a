import Edwards25519.Bytes

/-! SHA-3 with outputs of 256 and 512 bits: a sponge over a permutation of 25 lanes of 64 bits. Lane
`x + 5 * y` stands in column `x` of row `y`. -/
namespace Edwards25519.Sha3

abbrev Lanes := Vector UInt64 25

def rotateLeft (v : UInt64) (n : Nat) : UInt64 :=
  if n = 0 then v else v <<< UInt64.ofNat n ||| v >>> UInt64.ofNat (64 - n)

/-- How far each lane is rotated. -/
def rotations : Vector Nat 25 := #v[
  0, 1, 62, 28, 27,
  36, 44, 6, 55, 20,
  3, 10, 43, 25, 39,
  41, 45, 15, 21, 8,
  18, 2, 61, 56, 14]

def roundConstants : List UInt64 := [
  0x0000000000000001, 0x0000000000008082, 0x800000000000808a, 0x8000000080008000,
  0x000000000000808b, 0x0000000080000001, 0x8000000080008081, 0x8000000000008009,
  0x000000000000008a, 0x0000000000000088, 0x0000000080008009, 0x000000008000000a,
  0x000000008000808b, 0x800000000000008b, 0x8000000000008089, 0x8000000000008003,
  0x8000000000008002, 0x8000000000000080, 0x000000000000800a, 0x800000008000000a,
  0x8000000080008081, 0x8000000000008080, 0x0000000080000001, 0x8000000080008008]

/-- The lane of a column and a row, both modulo 5. -/
def lane (s : Lanes) (x y : Nat) : UInt64 :=
  have : x % 5 + 5 * (y % 5) < 25 := by omega
  s[x % 5 + 5 * (y % 5)]

def ofLanes (f : Nat → Nat → UInt64) : Lanes := Vector.ofFn fun i => f (i.val % 5) (i.val / 5)

/-- Adds to each lane the parities of two columns beside it. -/
def theta (s : Lanes) : Lanes :=
  let parity : Vector UInt64 5 := Vector.ofFn fun x =>
    lane s x.val 0 ^^^ lane s x.val 1 ^^^ lane s x.val 2 ^^^ lane s x.val 3 ^^^ lane s x.val 4
  let effect : Vector UInt64 5 := Vector.ofFn fun x =>
    parity[x + 4] ^^^ rotateLeft parity[x + 1] 1
  Vector.ofFn fun i =>
    have : i.val % 5 < 5 := by omega
    s[i] ^^^ effect[i.val % 5]

/-- Rotates each lane and moves it to its new place. -/
def rhoPi (s : Lanes) : Lanes :=
  let rotated : Lanes := Vector.ofFn fun i => rotateLeft s[i] rotations[i]
  ofLanes fun x y => lane rotated (x + 3 * y) x

/-- The step that is not linear, within each row. -/
def chi (s : Lanes) : Lanes :=
  ofLanes fun x y => lane s x y ^^^ (~~~(lane s (x + 1) y) &&& lane s (x + 2) y)

def round (s : Lanes) (constant : UInt64) : Lanes :=
  let s := chi (rhoPi (theta s))
  s.set 0 (s[0] ^^^ constant)

def permute (s : Lanes) : Lanes := roundConstants.foldl round s

/-- Appends the suffix of SHA-3 and the padding to a whole number of blocks. -/
def pad (rate : Nat) (message : ByteString) : ByteString :=
  let free := rate - message.length % rate
  if free = 1 then message ++ [0x86]
  else message ++ 0x06 :: List.replicate (free - 2) 0 ++ [0x80]

/-- Adds a block to the first lanes, eight bytes to a lane, and permutes. -/
def absorb (s : Lanes) (block : ByteString) : Lanes :=
  let words := ((ByteString.chunks 8 block).map fun w => UInt64.ofNat (ByteString.toNat w)).toArray
  permute (Vector.ofFn fun i => s[i] ^^^ words[i.val]?.getD 0)

/-- The first `n` bytes of the lanes after the whole message, which is absorbed in blocks of the 200
bytes of the lanes less `2 * n`. -/
def digest (n : Nat) (message : ByteString) : Bytes n :=
  let rate := 200 - 2 * n
  let s := (ByteString.chunks rate (pad rate message)).foldl absorb (Vector.replicate 25 0)
  Vector.ofFn fun i => (s[i.val / 8]?.getD 0 >>> UInt64.ofNat (8 * (i.val % 8))).toUInt8

def sha256 (message : ByteString) : Bytes 32 := digest 32 message

def sha512 (message : ByteString) : Bytes 64 := digest 64 message

end Edwards25519.Sha3
