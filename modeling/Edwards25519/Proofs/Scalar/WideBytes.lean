import Edwards25519.Proofs.Packing
import Edwards25519.Proofs.Word.Related
import Edwards25519.Scalar.Reduction

/-! The limbs of bytes and the bytes of limbs. Four bytes have all the bits of a limb, so that the limbs are
those of the number that the bytes stand for; and limbs that overlap nowhere are written as the number that
they add up to. -/
namespace Edwards25519

namespace WideLimbs

open LimbArithmetic

section load

variable {α : Type} [LimbArithmetic α]

/-- Limb `i` of `count` limbs of a number; the last one takes all the bits that are left. -/
def limbOfNat (count n i : ℕ) : α :=
  let rest := n >>> (21 * i)
  ((if i + 1 = count then rest else rest % (1 <<< 21) : ℕ) : ℤ)

def ofNat (n : ℕ) : WideLimbs α := Vector.ofFn fun i => limbOfNat 24 n i.val

/-- The limbs of a factor or a summand. -/
def split (n : ℕ) : Vector α 12 := Vector.ofFn fun i => limbOfNat 12 n i.val

/-- The limbs of `a * b + c`, carried so that `reduce` can take them. -/
def mulAdd (a b c : ℕ) : WideLimbs α := spread carryRounded (columns (split a) (split b) (split c))

lemma toNat_loadLimb {n count : ℕ} (b : Bytes n) (h : 21 * (count - 1) / 8 + 4 ≤ n)
    (hn : n = 21 * (count - 1) / 8 + 4) (i : Fin count) : (loadLimb count b h i).toNat =
      if i.val + 1 = count then b.toNat >>> (21 * i.val) else b.toNat >>> (21 * i.val) % (1 <<< 21) := by
  obtain ⟨q, s, hq, hs, hqs⟩ : ∃ q s, 21 * i.val / 8 = q ∧ 21 * i.val % 8 = s ∧
    21 * i.val = 8 * q + s := ⟨_, _, rfl, rfl, (Nat.div_add_mod _ 8).symm⟩
  have hslt : s < 8 := hs ▸ Nat.mod_lt _ (by decide)
  have hplace : 21 * i.val / 8 + 4 ≤ n := by omega
  have hword : (b.load (21 * i.val / 8) 4 hplace >>> UInt64.ofNat (21 * i.val % 8)).toNat =
      b.toNat / 256 ^ q % 2 ^ 32 / 2 ^ s := by
    rw [toNat_shiftRight_amount _ (by omega), Bytes.toNat_load b hplace (by decide), hq, hs]
    rfl
  have hrest : b.toNat >>> (21 * i.val) = b.toNat / 256 ^ q / 2 ^ s := by
    rw [Nat.shiftRight_eq_div_pow, hqs, pow_add, pow_mul, ← Nat.div_div_eq_div_mul]
    rfl
  rw [loadLimb]
  split_ifs with hi
  · have hlt : b.toNat / 256 ^ q < 2 ^ 32 := by
      have hnq : n = q + 4 := by omega
      have hpow : 256 ^ n = 256 ^ q * 2 ^ 32 := hnq ▸ pow_add 256 q 4
      exact Nat.div_lt_of_lt_mul (hpow ▸ b.toNat_lt)
    rw [hword, hrest, Nat.mod_eq_of_lt hlt]
  · have hsplit : (2 : ℕ) ^ 32 = 2 ^ s * 2 ^ (32 - s) := by
      rw [← pow_add, Nat.add_sub_of_le (by omega)]
    have hdvd : (2 : ℕ) ^ 21 ∣ 2 ^ (32 - s) := pow_dvd_pow 2 (by omega)
    rw [toNat_and_mask _ (n := 21) rfl, hword, hrest, hsplit, Nat.mod_mul_right_div_self,
      Nat.mod_mod_of_dvd _ hdvd, Nat.one_shiftLeft]

theorem load_eq_ofNat (b : Bytes 64) : (load 24 b : WideLimbs α) = ofNat b.toNat := by
  refine congrArg Vector.ofFn (funext fun i => ?_)
  rw [toNat_loadLimb b _ rfl]
  rfl

theorem load_eq_split (b : Bytes 32) : (load 12 b : Vector α 12) = split b.toNat := by
  refine congrArg Vector.ofFn (funext fun i => ?_)
  rw [toNat_loadLimb b _ rfl]
  rfl

end load

/-- The integer that the lowest twelve limbs add up to. -/
def lowValue (s : WideLimbs ℤ) : ℤ :=
  Fin.foldl 12 (fun v i => v + shiftLeft (s.get (i.castAdd 12)) (21 * i.val)) 0

lemma lowValue_eq_sum (s : WideLimbs ℤ) :
    lowValue s = ∑ i : Fin 12, s.get (i.castAdd 12) * 2 ^ (21 * i.val) := by
  simp only [lowValue, shiftLeft_int, foldl_add_eq_sum, zero_add]

/-- The limbs overlap nowhere when they are packed. -/
structure Packable (s : WideLimbs ℤ) : Prop where
  digit : ∀ i : Fin 24, i.val < 11 → 0 ≤ s.get i ∧ s.get i < 2 ^ 21
  top : 0 ≤ s.get 11 ∧ s.get 11 ≤ 2 ^ 21

end WideLimbs

namespace Scalar

open WideLimbs

/-- Limbs are packed without a loss. -/
theorem toNat_ofLimbs {v : WideLimbs Int64} (h : Packable (v.map Int64.toInt)) {n : ℕ}
    (hn : lowValue (v.map Int64.toInt) = n) (hlt : n < 256 ^ 32) : (ofLimbs v).toNat = n := by
  let limb (i : Fin 12) : UInt64 := (v.get (i.castAdd 12)).toUInt64
  have hget (i : Fin 24) : (v.map Int64.toInt).get i = (v.get i).toInt := Vector.getElem_map _ i.isLt
  have hdigit (i : Fin 11) : 0 ≤ (v.get (i.castAdd 13)).toInt ∧ (v.get (i.castAdd 13)).toInt < 2 ^ 21 :=
    hget _ ▸ h.digit (i.castAdd 13) i.isLt
  have htop : 0 ≤ (v.get 11).toInt := hget 11 ▸ h.top.1
  have hlimb (i : Fin 12) : ((limb i).toNat : ℤ) = (v.get (i.castAdd 12)).toInt := by
    apply toNat_toUInt64
    cases i using Fin.lastCases with
    | last => exact htop
    | cast i => exact (hdigit i).1
  have hsum : ByteString.limbSum (List.ofFn fun i => (limb i, 21)) = n := by
    have hoffset := ByteString.limbSum_ofFn limb (fun _ => 21) (fun i => 21 * i) fun _ => rfl
    rw [mul_zero, pow_zero, one_mul] at hoffset
    apply Int.natCast_inj.mp
    rw [hoffset, ← hn, lowValue_eq_sum]
    push_cast
    simp only [hlimb, hget]
  have hpack : (ofLimbs v).toNat = ByteString.limbSum (List.ofFn fun i => (limb i, 21)) % 256 ^ 32 := by
    refine Bytes.toNat_pack _ (List.forall_mem_ofFn_iff.mpr fun _ => (by decide : 21 < 56)) fun l hl => ?_
    rw [List.ofFn_succ', List.concat_eq_append, List.dropLast_concat] at hl
    obtain ⟨i, rfl⟩ := List.mem_ofFn.mp hl
    have hlimblt : ((limb i.castSucc).toNat : ℤ) < 2 ^ 21 := hlimb i.castSucc ▸ (hdigit i).2
    exact_mod_cast hlimblt
  rw [hpack, hsum, Nat.mod_eq_of_lt hlt]

end Scalar
end Edwards25519
