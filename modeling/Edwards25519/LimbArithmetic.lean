/-! Signed integer arithmetic as algorithms on limbs use it. The algorithms are written once for
every carrier: they run on machine words, and on integers they say what the words stand for. -/
namespace Edwards25519

class LimbArithmetic (α : Type) extends Add α, Sub α, Mul α, IntCast α where
  /-- Multiplication by a power of two. -/
  shiftLeft : α → Nat → α
  /-- Division by a power of two, rounded down. -/
  shiftRight : α → Nat → α

open LimbArithmetic in
/-- Division by a power of two, rounded to the nearest integer and halves up. -/
@[inline] def shiftRightRounded {α : Type} [LimbArithmetic α] (x : α) (n : Nat) : α :=
  shiftRight (x + (((1 <<< (n - 1) : Nat) : Int) : α)) n

instance : LimbArithmetic Int where
  shiftLeft x n := x <<< n
  shiftRight x n := x >>> n

instance : LimbArithmetic Int64 where
  intCast := Int64.ofInt
  shiftLeft x n := x <<< Int64.ofNat n
  shiftRight x n := x >>> Int64.ofNat n

instance : LimbArithmetic Int8 where
  intCast := Int8.ofInt
  shiftLeft x n := x <<< Int8.ofNat n
  shiftRight x n := x >>> Int8.ofNat n

end Edwards25519
