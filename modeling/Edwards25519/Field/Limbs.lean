import Edwards25519.Bytes.Packing
import Edwards25519.LimbArithmetic

/-! Ten signed limbs for a number modulo `2 ^ 255 - 19`. Limb `i` counts multiples of
`2 ^ offset i`; the limbs are 26 and 25 bits wide by turns, and a carry out of the last one comes
back to the first with the factor 19, since `2 ^ 255` is congruent to 19. -/
namespace Edwards25519

abbrev Limbs (α : Type) := Vector α 10

namespace Limbs

open LimbArithmetic

/-- The weight of limb `i` is two to this power. -/
def offset (i : Nat) : Nat := (51 * i + 1) / 2

def bits (i : Fin 10) : Nat := if i.val % 2 = 0 then 26 else 25

/-- The integer that the limbs add up to. -/
def value (h : Limbs Int) : Int := Fin.foldl 10 (fun s i => s + shiftLeft h[i] (offset i.val)) 0

variable {α : Type} [LimbArithmetic α]

/-- Takes the multiple `c` of `2 ^ bits i` out of limb `i` and adds it to the next limb. -/
@[specialize] def move (h : Limbs α) (i : Fin 10) (c : α) : Limbs α :=
  let h := h.set i (h[i] - shiftLeft c (bits i))
  let j := i + 1
  h.set j (h[j] + if i = 9 then c * ((19 : Int) : α) else c)

/-- Brings limb `i` to the residue of least absolute value. -/
@[specialize] def carry (h : Limbs α) (i : Fin 10) : Limbs α :=
  move h i (shiftRightRounded h[i] (bits i))

@[specialize] def carryAll (chain : List (Fin 10)) (h : Limbs α) : Limbs α :=
  chain.foldl carry h

/-- The carries that bring the columns of a product back into bounds. -/
def productChain : List (Fin 10) := [0, 4, 1, 5, 2, 6, 3, 7, 4, 8, 9, 0]

/-- The carries after unpacking 32 bytes: the odd limbs first, from the last one on. -/
def unpackChain : List (Fin 10) := [9, 1, 3, 5, 7, 0, 2, 4, 6, 8]

/-- The product of limbs `i` and `j` lands in column `i + j` with this factor: two limbs of 25 bits
fall one bit short of the column, and columns past the last come back with 19. -/
def weight (i j : Fin 10) : Int :=
  (if i.val % 2 = 1 ∧ j.val % 2 = 1 then 2 else 1) * if 10 ≤ i.val + j.val then 19 else 1

@[specialize] def productColumn (f g : Limbs α) (k : Fin 10) : α :=
  Fin.foldl 10 (fun s i => s + f[i] * g[k - i] * (weight i (k - i) : α)) ((0 : Int) : α)

@[specialize] def product (f g : Limbs α) : Limbs α := Vector.ofFn (productColumn f g)

/-- One column of a square, each pair of different limbs taken once and doubled. -/
@[specialize] def squareColumn (f : Limbs α) (k : Fin 10) : α :=
  Fin.foldl 10 (fun s i =>
    let j := k - i
    if i ≤ j then s + f[i] * f[j] * (((if i = j then 1 else 2) * weight i j : Int) : α) else s)
    ((0 : Int) : α)

@[specialize] def square (f : Limbs α) : Limbs α := Vector.ofFn (squareColumn f)

@[specialize] def double (h : Limbs α) : Limbs α := h.map (shiftLeft · 1)

/-- How often `2 ^ 255 - 19` goes into the number, for limbs of at most 32 bits. -/
@[specialize] def quotient (h : Limbs α) : α :=
  Fin.foldl 10 (fun q i => shiftRight (h[i] + q) (bits i))
    (shiftRightRounded (((19 : Int) : α) * h[(9 : Fin 10)]) 25)

/-- Takes all that is above its width out of limb `i`. -/
@[specialize] def carryFloor (h : Limbs α) (i : Fin 10) : Limbs α :=
  move h i (shiftRight h[i] (bits i))

/-- What is left of the last limb below `2 ^ 255`. -/
@[specialize] def dropHigh (x : α) : α := x - shiftLeft (shiftRight x 25) 25

/-- The steps to the least residue, for some way to carry and to cut the last limb off. -/
@[specialize] def canonicalBy (carry : Limbs α → Fin 10 → Limbs α) (drop : α → α) (h : Limbs α) :
    Limbs α :=
  let h := h.set 0 (h[0] + ((19 : Int) : α) * quotient h)
  let h := ([0, 1, 2, 3, 4, 5, 6, 7, 8] : List (Fin 10)).foldl carry h
  h.set 9 (drop h[9])

/-- The limbs of the residue in `[0, 2 ^ 255 - 19)`, all of them within their width. -/
@[specialize] def canonical (h : Limbs α) : Limbs α := canonicalBy carryFloor dropHigh h

/-- Which bytes a limb is read from, and how far their number is shifted to the weight of the limb. -/
structure Part where
  place : Nat
  count : Nat
  shift : Nat
  inside : place + count ≤ 32

def parts : Vector Part 10 := #v[⟨0, 4, 0, by decide⟩, ⟨4, 3, 6, by decide⟩, ⟨7, 3, 5, by decide⟩,
  ⟨10, 3, 3, by decide⟩, ⟨13, 3, 2, by decide⟩, ⟨16, 4, 0, by decide⟩, ⟨20, 3, 7, by decide⟩,
  ⟨23, 3, 5, by decide⟩, ⟨26, 3, 4, by decide⟩, ⟨29, 3, 2, by decide⟩]

/-- A limb before any carry. Bit 255, which is among the last bytes, is dropped. -/
def loadLimb (b : Bytes 32) (i : Fin 10) : UInt64 :=
  let part := parts[i]
  let word := b.load part.place part.count part.inside
  (if i = 9 then word &&& 0x7fffff else word) <<< UInt64.ofNat part.shift

/-- Cuts 32 bytes into limbs, before any carry. -/
@[specialize] def load (b : Bytes 32) : Limbs α :=
  Vector.ofFn fun i => (((loadLimb b i).toNat : Int) : α)

/-- The bytes of limbs that are digits of their widths. -/
def pack (h : Limbs Int64) : Bytes 32 :=
  Bytes.pack (List.ofFn fun i => (h[i].toUInt64, bits i))
    (by simp [List.ofFn_succ, ByteString.totalWidth, bits])

end Limbs
end Edwards25519
