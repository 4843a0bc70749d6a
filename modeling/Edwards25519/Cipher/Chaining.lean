import Edwards25519.Bytes

/-! Encryption of byte strings by a cipher on blocks of 16 bytes. The string is padded to whole blocks,
and every block is added to the encrypted block before it. -/
namespace Edwards25519.Chaining

abbrev Block := Bytes 16

/-- Appends between 1 and 16 bytes, each of them the number of bytes appended. -/
def pad (s : ByteString) : ByteString :=
  let n := 16 - s.length % 16
  s ++ List.replicate n (UInt8.ofNat n)

/-- Takes the padding off. Every byte of it is looked at. -/
def unpad (s : ByteString) : Option ByteString := do
  let last ← s.getLast?
  let n := last.toNat
  let body := s.take (s.length - n)
  if 1 ≤ n ∧ n ≤ 16 ∧ s = body ++ List.replicate n last then some body else none

/-- The blocks of a string that consists of whole blocks. -/
def blocks (s : ByteString) : List Block := (ByteString.chunks 16 s).map (Bytes.ofPrefix 16)

def join (bs : List Block) : ByteString := bs.flatMap Vector.toList

/-- The block before the first one is the initial vector. -/
def encryptBlocks (f : Block → Block) (previous : Block) : List Block → List Block
  | [] => []
  | b :: bs =>
    let c := f (Bytes.xor b previous)
    c :: encryptBlocks f c bs

def decryptBlocks (f : Block → Block) (previous : Block) : List Block → List Block
  | [] => []
  | c :: cs => Bytes.xor (f c) previous :: decryptBlocks f c cs

def encrypt (f : Block → Block) (iv : Block) (s : ByteString) : ByteString :=
  join (encryptBlocks f iv (blocks (pad s)))

/-- Fails if the string is no sequence of whole blocks or its padding is wrong. -/
def decrypt (f : Block → Block) (iv : Block) (s : ByteString) : Option ByteString :=
  if s.length % 16 = 0 then unpad (join (decryptBlocks f iv (blocks s))) else none

end Edwards25519.Chaining
