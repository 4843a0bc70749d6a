import Edwards25519.Proofs.Field.LimbValue
import Edwards25519.Proofs.Packing

/-! The limbs of 32 bytes and the bytes of limbs. The loads of the limbs tile the bytes, so that what they read
is the number of the low 255 bits; limbs that are digits of their widths are written as the number that they
add up to. -/
namespace Edwards25519.Limbs

open LimbArithmetic

/-- The bit of a 255-bit number at which the part for limb `i` starts. -/
def cut : Vector ℕ 11 := #v[0, 32, 56, 80, 104, 128, 160, 184, 208, 232, 255]

section load

variable {α : Type} [LimbArithmetic α]

/-- Cuts the low 255 bits of a number into whole bytes for each limb, before any carry. -/
def ofNat (n : ℕ) : Limbs α := Vector.ofFn fun i =>
  let start := cut[i.val]
  ((((n >>> start) % (1 <<< (cut[i.val + 1] - start))) <<< (start - offset i.val) : ℕ) : ℤ)

/-- The bytes of a limb are those between two cuts, but for the bit that the mask takes off the last ones. -/
lemma parts_cut : ∀ i : Fin 10, 8 * (parts.get i).place = cut.get i.castSucc ∧
    cut.get i.succ - cut.get i.castSucc = (if i = 9 then 23 else 8 * (parts.get i).count) ∧
    (parts.get i).shift = cut.get i.castSucc - offset i ∧
    (parts.get i).count ≤ 4 ∧ (parts.get i).shift < 8 := by
  decide

lemma toNat_loadLimb (b : Bytes 32) (i : Fin 10) : (loadLimb b i).toNat =
    ((b.toNat >>> cut.get i.castSucc) % (1 <<< (cut.get i.succ - cut.get i.castSucc))) <<<
      (cut.get i.castSucc - offset i) := by
  obtain ⟨hplace, hwidth, hshift, hcount, hshiftLt⟩ := parts_cut i
  let word := b.load (parts.get i).place (parts.get i).count (parts.get i).inside
  have hword : word.toNat = b.toNat >>> cut.get i.castSucc % 2 ^ (8 * (parts.get i).count) := by
    rw [← hplace, Nat.shiftRight_eq_div_pow, pow_mul, pow_mul]
    exact Bytes.toNat_load b (parts.get i).inside (by omega)
  have hmask : (if i = 9 then word &&& 0x7fffff else word).toNat =
      b.toNat >>> cut.get i.castSucc % (1 <<< (cut.get i.succ - cut.get i.castSucc)) := by
    rw [hwidth, Nat.one_shiftLeft]
    split_ifs with hi
    · have hdvd : (2 : ℕ) ^ 23 ∣ 2 ^ (8 * (parts.get i).count) := by
        subst hi
        decide
      rw [toNat_and_mask word (n := 23) rfl, hword, Nat.mod_mod_of_dvd _ hdvd]
    · exact hword
  have hlt : (if i = 9 then word &&& 0x7fffff else word).toNat < 2 ^ 32 := by
    have hle : cut.get i.succ - cut.get i.castSucc ≤ 32 := by
      rw [hwidth]
      split_ifs <;> omega
    rw [hmask, Nat.one_shiftLeft]
    exact (Nat.mod_lt _ (Nat.two_pow_pos _)).trans_le (Nat.pow_le_pow_right (by decide) hle)
  rw [← hshift, ← hmask]
  have hfits : (parts.get i).shift + 32 ≤ 64 := by omega
  exact toNat_shiftLeft_digit hlt hfits (hshiftLt.trans (by decide))

theorem load_eq_ofNat (b : Bytes 32) : (load b : Limbs α) = ofNat b.toNat := by
  refine congrArg Vector.ofFn (funext fun i => ?_)
  rw [toNat_loadLimb]
  rfl

end load

lemma cut_bounds : ∀ i : Fin 10,
    offset i ≤ cut.get i.castSucc ∧ cut.get i.castSucc ≤ cut.get i.succ := by
  decide

/-- Each limb takes the bits between two cuts. -/
lemma get_ofNat_mul (n : ℕ) (i : Fin 10) :
    ((ofNat n).get i * 2 ^ offset i : ℤ) =
      (n % 2 ^ cut.get i.succ : ℕ) - (n % 2 ^ cut.get i.castSucc : ℕ) := by
  obtain ⟨hoff, hcut⟩ := cut_bounds i
  have hlimb : ((ofNat n).get i : ℤ) =
      (((n >>> cut.get i.castSucc) % (1 <<< (cut.get i.succ - cut.get i.castSucc))) <<<
        (cut.get i.castSucc - offset i) : ℕ) := by
    simp [ofNat, get_eq_getElem]
  generalize cut.get i.castSucc = a at *
  generalize cut.get i.succ = b at *
  have hmod : n % 2 ^ b = n % 2 ^ a + 2 ^ a * (n / 2 ^ a % 2 ^ (b - a)) := by
    rw [← Nat.mod_mul, ← pow_add, Nat.add_sub_of_le hcut]
  have hpow : (2 : ℤ) ^ (a - offset i) * 2 ^ offset i = 2 ^ a := by
    rw [← pow_add, Nat.sub_add_cancel hoff]
  rw [hlimb, Nat.shiftLeft_eq, Nat.shiftLeft_eq, Nat.shiftRight_eq_div_pow, one_mul, hmod]
  push_cast
  rw [mul_assoc, hpow]
  ring

theorem value_ofNat (n : ℕ) : value (ofNat n) = (n % 2 ^ 255 : ℕ) := by
  rw [value_eq_sum]
  simp only [get_ofNat_mul]
  simp [Fin.sum_univ_succ, get_eq_getElem, cut]

theorem ofNat_related {α β : Type} [LimbArithmetic α] [LimbArithmetic β] {R : α → β → Prop}
    (hR : Simulation R) (n : ℕ) : Related R (ofNat n) (ofNat n) :=
  Related.ofFn fun _ => hR.intCast _

/-- Digits are packed without a loss. -/
theorem pack_eq_ofNat {v : Limbs Int64}
    (h : ∀ i, 0 ≤ (v.get i).toInt ∧ (v.get i).toInt < 2 ^ bits i) :
    pack v = Bytes.ofNat 32 (value (v.map Int64.toInt)).toNat := by
  have hlimb (i : Fin 10) : ((v.get i).toUInt64.toNat : ℤ) = (v.get i).toInt := toNat_toUInt64 (h i).1
  have hdigit (i : Fin 10) : (v.get i).toUInt64.toNat < 2 ^ bits i := by
    have hlt := (h i).2
    rw [← hlimb] at hlt
    exact_mod_cast hlt
  have hsum : value (v.map Int64.toInt) =
      ByteString.limbSum (List.ofFn fun i => ((v.get i).toUInt64, bits i)) := by
    have hoffset := ByteString.limbSum_ofFn (fun i => (v.get i).toUInt64) bits offset (by decide)
    have hget (i : Fin 10) : (v.map Int64.toInt).get i = (v.get i).toInt := Vector.getElem_map _ i.isLt
    rw [show offset 0 = 0 from rfl, pow_zero, one_mul] at hoffset
    rw [value_eq_sum, hoffset]
    push_cast
    simp only [hget, hlimb]
  apply Bytes.toNat_injective
  rw [hsum, Int.toNat_natCast, Bytes.toNat_ofNat]
  have hwidth : ∀ i, bits i < 56 := by decide
  refine Bytes.toNat_pack _ (List.forall_mem_ofFn_iff.mpr hwidth) fun l hl => ?_
  obtain ⟨i, rfl⟩ := List.mem_ofFn.mp (List.mem_of_mem_dropLast hl)
  exact hdigit i

end Edwards25519.Limbs
