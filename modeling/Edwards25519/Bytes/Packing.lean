import Edwards25519.Bytes

/-! Words of 64 bits between bytes and limbs. A word is read from a few bytes at once; limbs of any widths
are put together in a word, from which whole bytes are written as soon as there are any. -/
namespace Edwards25519

namespace ByteString

/-- The `n` lowest bytes of a word. -/
def ofWord : Nat → UInt64 → ByteString
  | 0, _ => []
  | n + 1, w => w.toUInt8 :: ofWord n (w >>> 8)

/-- Puts limbs, each with its width, above the bits that wait in a word, and writes the whole bytes after
each of them. The bits that wait at the end are the last byte. -/
def pack (waiting : UInt64) (bits : Nat) : List (UInt64 × Nat) → ByteString
  | [] => [waiting.toUInt8]
  | (limb, width) :: limbs =>
    let word := waiting ||| limb <<< UInt64.ofNat bits
    let whole := (bits + width) / 8
    ofWord whole word ++ pack (word >>> UInt64.ofNat (8 * whole)) ((bits + width) % 8) limbs

/-- The number of bits of limbs. -/
def totalWidth : List (UInt64 × Nat) → Nat
  | [] => 0
  | (_, width) :: limbs => width + totalWidth limbs

@[simp] theorem length_ofWord (n : Nat) (w : UInt64) : (ofWord n w).length = n := by
  induction n generalizing w with
  | zero => rfl
  | succ n ih => simp [ofWord, ih]

theorem length_pack (waiting : UInt64) {bits : Nat} (h : bits < 8) (limbs : List (UInt64 × Nat)) :
    (pack waiting bits limbs).length = (bits + totalWidth limbs) / 8 + 1 := by
  induction limbs generalizing waiting bits with
  | nil =>
    simp only [pack, totalWidth, List.length_cons, List.length_nil]
    omega
  | cons limb limbs ih =>
    simp only [pack, totalWidth, List.length_append, length_ofWord,
      ih _ (Nat.mod_lt _ (by decide : 0 < 8))]
    omega

end ByteString

namespace Bytes

variable {n : Nat}

/-- The number of `count` bytes, of which there are at most eight, from a place on. -/
def load (b : Bytes n) (place count : Nat) (h : place + count ≤ n) : UInt64 :=
  Fin.foldl count (fun w i => w ||| b[place + i.val].toUInt64 <<< UInt64.ofNat (8 * i.val)) 0

/-- The limbs as bytes, the first limb least significant. The last byte has some bits left. -/
def pack (limbs : List (UInt64 × Nat)) (h : ByteString.totalWidth limbs / 8 + 1 = n) : Bytes n :=
  ⟨(ByteString.pack 0 0 limbs).toArray, by
    rw [List.size_toArray, ByteString.length_pack 0 (by decide), Nat.zero_add]
    exact h⟩

end Bytes
end Edwards25519
