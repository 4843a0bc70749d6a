import Edwards25519.Bytes
import Edwards25519.LimbArithmetic

/-! Two recodings of a scalar into signed digits: all digits in radix 16, for a multiplication that
takes every step, and few nonzero binary digits, for one that may skip steps. -/
namespace Edwards25519.Scalar

open LimbArithmetic

/-- The digits in `[0, 15]`, two for each byte. -/
def nibbles {α : Type} [LimbArithmetic α] (s : ByteString) : List α :=
  s.flatMap fun b => [((b.toNat % 16 : Nat) : Int), ((b.toNat / 16 : Nat) : Int)]

/-- Adds the carry to the first digit and passes on what rounding it to `[-8, 7]` leaves over. The
last digit keeps its carry. -/
def balance {α : Type} [LimbArithmetic α] (carry : α) : List α → List α
  | [] => []
  | [d] => [d + carry]
  | d :: e :: rest =>
    let d := d + carry
    let carry := shiftRight (d + ((8 : Int) : α)) 4
    (d - shiftLeft carry 4) :: balance carry (e :: rest)

@[simp] theorem length_nibbles {α : Type} [LimbArithmetic α] (s : ByteString) :
    (nibbles s : List α).length = 2 * s.length := by
  induction s with
  | nil => rfl
  | cons b s ih =>
    simp only [nibbles, List.flatMap_cons, List.length_append, List.length_cons] at ih ⊢
    simp only [ih, List.length_nil]
    omega

@[simp] theorem length_balance {α : Type} [LimbArithmetic α] (carry : α) (ds : List α) :
    (balance carry ds).length = ds.length := by
  fun_induction balance carry ds <;> simp_all

/-- The digits in radix 16, least significant first. All but the last lie in `[-8, 7]`; the last lies
in `[0, 8]` if bit 255 is clear. -/
def radix16 {α : Type} [LimbArithmetic α] (s : Bytes 32) : Vector α 64 :=
  ⟨(balance ((0 : Int) : α) (nibbles s.toList)).toArray, by simp⟩

/-- The bits of the scalar, least significant first. -/
def bitList (s : ByteString) : List Bool :=
  s.flatMap fun b => (List.range 8).map fun i => b.toNat.testBit i

@[simp] theorem length_bitList (s : ByteString) : (bitList s).length = 8 * s.length := by
  induction s with
  | nil => rfl
  | cons b s ih =>
    simp only [bitList, List.flatMap_cons, List.length_append, List.length_map, List.length_range,
      List.length_cons] at ih ⊢
    omega

/-- Adds one to a binary number, least significant bit first. A carry out of the last bit is lost. -/
def increment : List Bool → List Bool
  | [] => []
  | false :: rest => true :: rest
  | true :: rest => false :: increment rest

/-- Draws the next bits into an odd digit, the first of them with the weight given. A bit is added
as long as the digit stays at most 15; else it is subtracted and carried on, as long as the digit
stays at least -15; else the drawing stops. Returns the digit and the bits that are left. -/
def window (digit weight : Int) : Nat → List Bool → Int × List Bool
  | 0, bits => (digit, bits)
  | _ + 1, [] => (digit, [])
  | n + 1, false :: rest =>
    let (digit, rest) := window digit (2 * weight) n rest
    (digit, false :: rest)
  | n + 1, true :: rest =>
    if digit + weight ≤ 15 then
      let (digit, rest) := window (digit + weight) (2 * weight) n rest
      (digit, false :: rest)
    else if -15 ≤ digit - weight then
      let (digit, rest) := window (digit - weight) (2 * weight) n (increment rest)
      (digit, false :: rest)
    else (digit, true :: rest)

@[simp] theorem length_increment (bits : List Bool) : (increment bits).length = bits.length := by
  induction bits with
  | nil => rfl
  | cons b rest ih => cases b <;> simp [increment, ih]

@[simp] theorem length_window (digit weight : Int) (n : Nat) (bits : List Bool) :
    (window digit weight n bits).2.length = bits.length := by
  fun_induction window digit weight n bits <;> simp_all

/-- One digit for each bit. -/
def slideBits : List Bool → List Int
  | [] => []
  | false :: rest => 0 :: slideBits rest
  | true :: rest =>
    let drawn := window 1 2 6 rest
    drawn.1 :: slideBits drawn.2
termination_by bits => bits.length
decreasing_by all_goals simp

@[simp] theorem length_slideBits (bits : List Bool) : (slideBits bits).length = bits.length := by
  fun_induction slideBits bits with
  | case1 => rfl
  | case2 rest ih => simp [ih]
  | case3 rest drawn ih => simp [ih, drawn]

/-- The sliding window recoding: binary digits, each zero or odd and between -15 and 15. A carry past
bit 255 is lost. -/
def slide (s : Bytes 32) : Vector Int 256 := ⟨(slideBits (bitList s.toList)).toArray, by simp⟩

end Edwards25519.Scalar
