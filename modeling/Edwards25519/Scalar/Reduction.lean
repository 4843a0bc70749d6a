import Edwards25519.Bytes.Packing
import Edwards25519.LimbArithmetic
import Edwards25519.Scalar.Order

/-! Reduction modulo the group order on 24 signed limbs of 21 bits. The limbs from the twelfth on
count multiples of `2 ^ 252`, which is congruent to a number of six limbs. -/
namespace Edwards25519

abbrev WideLimbs (α : Type) := Vector α 24

namespace WideLimbs

open LimbArithmetic

/-- The six limbs of `2 ^ 252 - groupOrder`. -/
def foldLimbs : Vector Int 6 := #v[666643, 470296, 654183, -997805, 136657, -683901]

variable {α : Type} [LimbArithmetic α]

/-- Limb `i` of `count` limbs: 21 bits out of the four bytes that they are in. The last limb takes all the
bits that are left. -/
def loadLimb {n : Nat} (count : Nat) (b : Bytes n) (h : 21 * (count - 1) / 8 + 4 ≤ n) (i : Fin count) :
    UInt64 :=
  let word := b.load (21 * i.val / 8) 4 (by omega) >>> UInt64.ofNat (21 * i.val % 8)
  if i.val + 1 = count then word else word &&& 0x1fffff

/-- Cuts bytes into limbs. -/
@[specialize] def load {n : Nat} (count : Nat) (b : Bytes n)
    (h : 21 * (count - 1) / 8 + 4 ≤ n := by decide) : Vector α count :=
  Vector.ofFn fun i => (((loadLimb count b h i).toNat : Int) : α)

/-- Takes the multiple `c` of `2 ^ 21` out of limb `i` and adds it to the next limb. -/
@[specialize] def move (s : WideLimbs α) (i : Fin 24) (c : α) : WideLimbs α :=
  let j := i + 1
  let s := s.set j (s[j] + c)
  s.set i (s[i] - shiftLeft c 21)

@[specialize] def carryRounded (s : WideLimbs α) (i : Fin 24) : WideLimbs α :=
  move s i (shiftRightRounded s[i] 21)

@[specialize] def carryFloor (s : WideLimbs α) (i : Fin 24) : WideLimbs α :=
  move s i (shiftRight s[i] 21)

/-- Replaces limb `i`, counted from the twelfth on, by its residue in the six limbs below. -/
@[specialize] def fold (s : WideLimbs α) (i : Fin 12) : WideLimbs α :=
  let high := s[i.val + 12]
  let s := Fin.foldl 6 (fun (s : WideLimbs α) k =>
    s.set (i.val + k.val) (s[i.val + k.val] + high * (foldLimbs[k] : α))) s
  s.set (i.val + 12) ((0 : Int) : α)

/-! The limbs that are folded and carried out of, in their order. Where carries go by turns, those out of the
even limbs come first. -/

def highFolds : List (Fin 12) := [11, 10, 9, 8, 7, 6]

def highCarries : List (Fin 24) := [6, 8, 10, 12, 14, 16, 7, 9, 11, 13, 15]

def lowFolds : List (Fin 12) := [5, 4, 3, 2, 1, 0]

def lowCarries : List (Fin 24) := [0, 2, 4, 6, 8, 10, 1, 3, 5, 7, 9, 11]

/-- The limb that counts multiples of `2 ^ 252`. Carries from below reach it, so that it is folded twice more. -/
def lastFold : Fin 12 := 0

def settleCarries : List (Fin 24) := [0, 1, 2, 3, 4, 5, 6, 7, 8, 9, 10, 11]

def finishCarries : List (Fin 24) := [0, 1, 2, 3, 4, 5, 6, 7, 8, 9, 10]

def spreadCarries : List (Fin 24) :=
  [0, 2, 4, 6, 8, 10, 12, 14, 16, 18, 20, 22, 1, 3, 5, 7, 9, 11, 13, 15, 17, 19, 21]

/-! The reduction in stages, for some way to carry. -/

/-- Up to the last but one fold. -/
@[specialize] def prepare (carry : WideLimbs α → Fin 24 → WideLimbs α) (s : WideLimbs α) :
    WideLimbs α :=
  let s := highFolds.foldl fold s
  let s := highCarries.foldl carry s
  let s := lowFolds.foldl fold s
  let s := lowCarries.foldl carry s
  fold s lastFold

/-- The carries out of the limbs below `2 ^ 252`. -/
@[specialize] def settle (carry : WideLimbs α → Fin 24 → WideLimbs α) (s : WideLimbs α) :
    WideLimbs α :=
  settleCarries.foldl carry s

/-- The last fold and the carries after it. -/
@[specialize] def finish (carry : WideLimbs α → Fin 24 → WideLimbs α) (s : WideLimbs α) :
    WideLimbs α :=
  finishCarries.foldl carry (fold s lastFold)

/-- The limbs of the residue, for limbs of about 21 bits, the last one of up to 29. -/
@[specialize] def reduce (s : WideLimbs α) : WideLimbs α :=
  finish carryFloor (settle carryFloor (prepare carryRounded s))

/-- The columns of a product, each of them complete, with a summand. -/
@[specialize] def columns (f g h : Vector α 12) : WideLimbs α :=
  Vector.ofFn fun k => Fin.foldl 12 (fun s i =>
      if hj : i.val ≤ k.val ∧ k.val - i.val < 12 then s + f[i] * g[k.val - i.val] else s)
    (if hk : k.val < 12 then h[k.val] else ((0 : Int) : α))

/-- The carries after a product. -/
@[specialize] def spread (carry : WideLimbs α → Fin 24 → WideLimbs α) (s : WideLimbs α) :
    WideLimbs α :=
  spreadCarries.foldl carry s

end WideLimbs

namespace Scalar

/-- The bytes of the twelve lowest limbs. -/
def ofLimbs (s : WideLimbs Int64) : Bytes 32 :=
  Bytes.pack (List.ofFn fun i : Fin 12 => (s[i.val].toUInt64, 21))
    (by simp [List.ofFn_succ, ByteString.totalWidth])

/-- The residue of a number of 64 bytes. -/
def reduce (wide : Bytes 64) : Bytes 32 := ofLimbs (WideLimbs.reduce (WideLimbs.load 24 wide))

/-- The residue of `a * b + c`. -/
def mulAdd (a b c : Bytes 32) : Bytes 32 :=
  let columns := WideLimbs.columns (WideLimbs.load 12 a) (WideLimbs.load 12 b) (WideLimbs.load 12 c)
  ofLimbs (WideLimbs.reduce (WideLimbs.spread WideLimbs.carryRounded columns))

end Scalar
end Edwards25519
