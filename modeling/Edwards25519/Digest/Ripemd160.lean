import Edwards25519.Bytes

/-! RIPEMD-160: every block of 64 bytes goes through two lines of 80 steps, whose results are added to
the state. -/
namespace Edwards25519.Ripemd160

/-- The five words of the state, or of a line. -/
structure State where
  a : UInt32
  b : UInt32
  c : UInt32
  d : UInt32
  e : UInt32

def initial : State := ⟨0x67452301, 0xefcdab89, 0x98badcfe, 0x10325476, 0xc3d2e1f0⟩

/-- What differs between the two lines: the order in which words of the block are taken, the
rotations, the constant of each of the five rounds, and the order of the round functions. -/
structure Line where
  words : List Nat
  rotations : List Nat
  constants : List UInt32
  functions : List Nat

def left : Line where
  words := [
    0, 1, 2, 3, 4, 5, 6, 7, 8, 9, 10, 11, 12, 13, 14, 15,
    7, 4, 13, 1, 10, 6, 15, 3, 12, 0, 9, 5, 2, 14, 11, 8,
    3, 10, 14, 4, 9, 15, 8, 1, 2, 7, 0, 6, 13, 11, 5, 12,
    1, 9, 11, 10, 0, 8, 12, 4, 13, 3, 7, 15, 14, 5, 6, 2,
    4, 0, 5, 9, 7, 12, 2, 10, 14, 1, 3, 8, 11, 6, 15, 13]
  rotations := [
    11, 14, 15, 12, 5, 8, 7, 9, 11, 13, 14, 15, 6, 7, 9, 8,
    7, 6, 8, 13, 11, 9, 7, 15, 7, 12, 15, 9, 11, 7, 13, 12,
    11, 13, 6, 7, 14, 9, 13, 15, 14, 8, 13, 6, 5, 12, 7, 5,
    11, 12, 14, 15, 14, 15, 9, 8, 9, 14, 5, 6, 8, 6, 5, 12,
    9, 15, 5, 11, 6, 8, 13, 12, 5, 12, 13, 14, 11, 8, 5, 6]
  constants := [0x00000000, 0x5a827999, 0x6ed9eba1, 0x8f1bbcdc, 0xa953fd4e]
  functions := [0, 1, 2, 3, 4]

def right : Line where
  words := [
    5, 14, 7, 0, 9, 2, 11, 4, 13, 6, 15, 8, 1, 10, 3, 12,
    6, 11, 3, 7, 0, 13, 5, 10, 14, 15, 8, 12, 4, 9, 1, 2,
    15, 5, 1, 3, 7, 14, 6, 9, 11, 8, 12, 2, 10, 0, 4, 13,
    8, 6, 4, 1, 3, 11, 15, 0, 5, 12, 2, 13, 9, 7, 10, 14,
    12, 15, 10, 4, 1, 5, 8, 7, 6, 2, 13, 14, 0, 3, 9, 11]
  rotations := [
    8, 9, 9, 11, 13, 15, 15, 5, 7, 7, 8, 11, 14, 14, 12, 6,
    9, 13, 15, 7, 12, 8, 9, 11, 7, 7, 12, 7, 6, 15, 13, 11,
    9, 7, 15, 11, 8, 6, 6, 14, 12, 13, 5, 14, 13, 13, 7, 5,
    15, 5, 8, 11, 14, 14, 6, 14, 6, 9, 12, 9, 12, 5, 15, 8,
    8, 5, 12, 9, 12, 5, 14, 6, 8, 13, 6, 5, 15, 13, 11, 11]
  constants := [0x50a28be6, 0x5c4dd124, 0x6d703ef3, 0x7a6d76e9, 0x00000000]
  functions := [4, 3, 2, 1, 0]

/-- The five round functions. -/
def mix (f : Nat) (x y z : UInt32) : UInt32 :=
  match f with
  | 0 => x ^^^ y ^^^ z
  | 1 => (x &&& y) ||| (~~~x &&& z)
  | 2 => (x ||| ~~~y) ^^^ z
  | 3 => (x &&& z) ||| (y &&& ~~~z)
  | _ => x ^^^ (y ||| ~~~z)

def rotateLeft (v : UInt32) (n : Nat) : UInt32 :=
  v <<< UInt32.ofNat n ||| v >>> UInt32.ofNat (32 - n)

/-- One step with a word of the block, a constant and a rotation. -/
def step (f : Nat) (constant : UInt32) (s : State) (word : UInt32) (rotation : Nat) : State :=
  let t := rotateLeft (s.a + mix f s.b s.c s.d + word + constant) rotation + s.e
  ⟨s.e, t, s.b, rotateLeft s.c 10, s.d⟩

def Line.run (line : Line) (block : Array UInt32) (s : State) : State :=
  let turns := (line.functions.zip line.constants).flatMap (List.replicate 16)
  (turns.zip (line.words.zip line.rotations)).foldl
    (fun s t => step t.1.1 t.1.2 s (block[t.2.1]?.getD 0) t.2.2) s

def compress (s : State) (block : ByteString) : State :=
  let words := ((ByteString.chunks 4 block).map fun w => UInt32.ofNat (ByteString.toNat w)).toArray
  let l := left.run words s
  let r := right.run words s
  ⟨s.b + l.c + r.d, s.c + l.d + r.e, s.d + l.e + r.a, s.e + l.a + r.b, s.a + l.b + r.c⟩

/-- Appends a one bit, zeros and the number of bits in eight bytes, to a whole number of blocks. -/
def pad (message : ByteString) : ByteString :=
  let zeros := (119 - message.length % 64) % 64
  message ++ 0x80 :: List.replicate zeros 0 ++ (Bytes.ofNat 8 (8 * message.length)).toList

def digest (message : ByteString) : Bytes 20 :=
  let s := (ByteString.chunks 64 (pad message)).foldl compress initial
  let words : Vector UInt32 5 := #v[s.a, s.b, s.c, s.d, s.e]
  Vector.ofFn fun i =>
    have : i.val / 4 < 5 := by omega
    (words[i.val / 4] >>> UInt32.ofNat (8 * (i.val % 4))).toUInt8

end Edwards25519.Ripemd160
