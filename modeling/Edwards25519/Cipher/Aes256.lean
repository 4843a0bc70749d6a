import Edwards25519.Bytes

/-! AES with keys of 32 bytes. Byte `r + 4 * c` of a block stands in row `r` of column `c`. Each step
of a round has an inverse, and decryption takes the inverses in the opposite order. -/
namespace Edwards25519.Aes256

abbrev Block := Bytes 16

/-- Multiplication by the variable in the field of 256 elements. -/
def double (a : UInt8) : UInt8 := (a <<< 1) ^^^ if a &&& 0x80 = 0 then 0 else 0x1b

/-- The product in the field, over the bits of the first factor from the lowest one on. -/
def times (a b : UInt8) : UInt8 :=
  ((List.range 8).foldl (fun (s : UInt8 × UInt8) i =>
    (if a.toNat.testBit i then s.1 ^^^ s.2 else s.1, double s.2)) (0, b)).1

/-- The power `a ^ 254`, which is the inverse unless `a` is zero, and then zero. -/
def inverse (a : UInt8) : UInt8 :=
  let a2 := times a a
  let a3 := times a2 a
  let a6 := times a3 a3
  let a12 := times a6 a6
  let a15 := times a12 a3
  let a30 := times a15 a15
  let a60 := times a30 a30
  let a63 := times a60 a3
  let a126 := times a63 a63
  let a127 := times a126 a
  times a127 a127

def rotateLeft (a : UInt8) (n : UInt8) : UInt8 := a <<< n ||| a >>> (8 - n)

/-- The inverse followed by an affine map on the bits. -/
def substitution : Vector UInt8 256 := Vector.ofFn fun i =>
  let a := inverse (UInt8.ofNat i.val)
  a ^^^ rotateLeft a 1 ^^^ rotateLeft a 2 ^^^ rotateLeft a 3 ^^^ rotateLeft a 4 ^^^ 0x63

def inverseSubstitution : Vector UInt8 256 := Vector.ofFn fun i =>
  UInt8.ofNat (substitution.toList.idxOf (UInt8.ofNat i.val))

def substitute (table : Vector UInt8 256) (a : UInt8) : UInt8 :=
  have := a.toNat_lt
  table[a.toNat]

def substituteAll (table : Vector UInt8 256) (b : Block) : Block := b.map (substitute table)

/-- The byte in a row and a column, the column modulo 4. -/
def byteAt (b : Block) (row : Fin 4) (column : Nat) : UInt8 :=
  have : row.val + 4 * (column % 4) < 16 := by omega
  b[row.val + 4 * (column % 4)]

def ofColumns (f : Fin 4 → Nat → UInt8) : Block :=
  Vector.ofFn fun i => f ⟨i.val % 4, by omega⟩ (i.val / 4)

/-- Rotates row `r` by `r` columns. -/
def shiftRows (b : Block) : Block := ofColumns fun r c => byteAt b r (c + r.val)

def unshiftRows (b : Block) : Block := ofColumns fun r c => byteAt b r (c + (4 - r.val))

/-- Multiplies every column by the circulant matrix whose first row is given. -/
def mixColumnsBy (k0 k1 k2 k3 : UInt8) (b : Block) : Block := ofColumns fun r c =>
  times k0 (byteAt b r c) ^^^ times k1 (byteAt b (r + 1) c) ^^^
    times k2 (byteAt b (r + 2) c) ^^^ times k3 (byteAt b (r + 3) c)

def mixColumns : Block → Block := mixColumnsBy 2 3 1 1

def unmixColumns : Block → Block := mixColumnsBy 14 11 13 9

/-- Adds a word to the first column and the sum of each column to the next one. -/
def chain (b : Block) (word : Fin 4 → UInt8) : Block := ofColumns fun r c =>
  (List.range (c + 1)).foldl (fun sum k => sum ^^^ byteAt b r k) (word r)

/-- The pairs of round keys, each made from the pair before it and a round constant. -/
def schedulePairs : Nat → UInt8 → Block → Block → List Block
  | 0, _, _, _ => []
  | n + 1, constant, a, b =>
    let a' := chain a fun r =>
      substitute substitution (byteAt b (r + 1) 3) ^^^ if r = 0 then constant else 0
    let b' := chain b fun r => substitute substitution (byteAt a' r 3)
    a :: b :: schedulePairs n (double constant) a' b'

/-- The 15 round keys. -/
def schedule (key : Bytes 32) : List Block :=
  let first : Block := Vector.ofFn fun i => key[i.val]
  let second : Block := Vector.ofFn fun i => key[16 + i.val]
  (schedulePairs 8 1 first second).take 15

/-- Runs the rounds with the keys that are left; the last round does not mix columns. -/
def encryptRounds (b : Block) : List Block → Block
  | [] => b
  | [k] => Bytes.xor (shiftRows (substituteAll substitution b)) k
  | k :: keys =>
    encryptRounds (Bytes.xor (mixColumns (shiftRows (substituteAll substitution b))) k) keys

def encryptBlock (key : Bytes 32) (b : Block) : Block :=
  match schedule key with
  | [] => b
  | k :: keys => encryptRounds (Bytes.xor b k) keys

/-- Undoes the rounds, given in the order in which they were run. -/
def decryptRounds (b : Block) : List Block → Block
  | [] => b
  | [k] => substituteAll inverseSubstitution (unshiftRows (Bytes.xor b k))
  | k :: keys =>
    substituteAll inverseSubstitution
      (unshiftRows (unmixColumns (Bytes.xor (decryptRounds b keys) k)))

def decryptBlock (key : Bytes 32) (b : Block) : Block :=
  match schedule key with
  | [] => b
  | k :: keys => Bytes.xor (decryptRounds b keys) k

end Edwards25519.Aes256
