import Edwards25519.Proofs.Scalar.WideDigits
import Edwards25519.Proofs.Scalar.WideValue
import Edwards25519.Scalar.Encoded
import Mathlib.Algebra.Order.BigOperators.Group.Finset

/-! The reduction modulo the group order is exact. Before the last carries the limbs stand for a
number between `-2 ^ 252` and `2 ^ 252`; the carry out of bit 252 is then 0 or -1, and the last fold
adds the group order if the number is negative. -/
namespace Edwards25519

namespace WideLimbs

open LimbArithmetic Range

/-- Limb 12 counts multiples of `2 ^ 252`, and above it there may be nothing. -/
lemma value_eq_lowValue {s : WideLimbs ℤ} (h : ∀ i : Fin 24, 12 < i.val → s.get i = 0) :
    value s = lowValue s + s.get 12 * 2 ^ 252 := by
  have hhigh : ∀ i ∈ Finset.univ, i ≠ (0 : Fin 12) →
      s.get (i.natAdd 12) * 2 ^ (21 * (i.natAdd 12).val) = 0 := by
    intro i _ hi
    have hpos : 0 < i.val := Nat.pos_of_ne_zero fun h0 => hi (Fin.ext h0)
    exact mul_eq_zero_of_left (h (i.natAdd 12) (by simpa using hpos)) _
  have hsum := Fin.sum_univ_add fun i : Fin (12 + 12) => s.get i * 2 ^ (21 * i.val)
  have hsingle := Finset.sum_eq_single (0 : Fin 12) hhigh (by simp)
  rw [lowValue_eq_sum, value]
  exact hsum.trans (congrArg (_ + ·) hsingle)

/-! What the ranges have to show before the last carries, after them, and at the end. -/

def Prepared (r : WideLimbs (Range 64)) : Prop :=
  (∀ i : Fin 24, (r.get i).ok = true ∧ (12 ≤ i.val → (r.get i).low = 0 ∧ (r.get i).high = 0)) ∧
    -2 ^ 252 ≤ lowValue (r.map Range.low) ∧ lowValue (r.map Range.high) < 2 ^ 252

def Settled (r : WideLimbs (Range 64)) : Prop :=
  ∀ i : Fin 24, (r.get i).ok = true ∧ (i.val < 12 → 0 ≤ (r.get i).low ∧ (r.get i).high < 2 ^ 21) ∧
    (12 < i.val → (r.get i).low = 0 ∧ (r.get i).high = 0)

def Finished (r : WideLimbs (Range 64)) : Prop :=
  ∀ i : Fin 24, (r.get i).ok = true ∧ (12 ≤ i.val → (r.get i).low = 0 ∧ (r.get i).high = 0)

structure Reduces (r : WideLimbs (Range 64)) : Prop where
  prepared : Prepared (prepare roundedRange r)
  settled : Settled (settle floorRange (prepare roundedRange r))
  finished : Finished (finish floorRange (settle floorRange (prepare roundedRange r)))

instance (r : WideLimbs (Range 64)) : Decidable (Prepared r) := inferInstanceAs (Decidable (_ ∧ _))

instance (r : WideLimbs (Range 64)) : Decidable (Settled r) := inferInstanceAs (Decidable (∀ _, _))

instance (r : WideLimbs (Range 64)) : Decidable (Finished r) :=
  inferInstanceAs (Decidable (∀ _, _))

theorem reduces_wide : Reduces wideRange where
  prepared := by decide +kernel
  settled := by decide +kernel
  finished := by decide +kernel

theorem reduces_mulAdd : Reduces mulAddRange where
  prepared := by decide +kernel
  settled := by decide +kernel
  finished := by decide +kernel

variable {s : WideLimbs (Checked 64)} {r : WideLimbs (Range 64)}

def values (s : WideLimbs (Checked 64)) : WideLimbs ℤ := s.map Checked.value

lemma get_values (s : WideLimbs (Checked 64)) (i : Fin 24) : (values s).get i = (s.get i).value :=
  Vector.getElem_map _ i.isLt

lemma lowValue_mono {a b : WideLimbs ℤ} (h : ∀ i : Fin 24, a.get i ≤ b.get i) :
    lowValue a ≤ lowValue b := by
  rw [lowValue_eq_sum, lowValue_eq_sum]
  exact Finset.sum_le_sum fun i _ =>
    mul_le_mul_of_nonneg_right (h (i.castAdd 12)) (by positivity)

/-- A limb whose range is a point. -/
lemma values_eq_zero {i : Fin 24} (hs : Related Holds s r) (hok : (r.get i).ok = true)
    (h : (r.get i).low = 0 ∧ (r.get i).high = 0) : (values s).get i = 0 := by
  obtain ⟨-, hl, hu⟩ := hs.fin i hok
  rw [get_values]
  omega

lemma Prepared.bounds (hr : Prepared r) (hs : Related Holds s r) :
    -2 ^ 252 ≤ value (values s) ∧ value (values s) < 2 ^ 252 := by
  obtain ⟨hr, hlow, hhigh⟩ := hr
  have hzero (i : Fin 24) (hi : 12 ≤ i.val) : (values s).get i = 0 :=
    values_eq_zero hs (hr i).1 ((hr i).2 hi)
  have hvalue := value_eq_lowValue fun i hi => hzero i hi.le
  have htop : (values s).get 12 = 0 := hzero 12 le_rfl
  rw [hvalue, htop, zero_mul, add_zero]
  have hl : lowValue (r.map Range.low) ≤ lowValue (values s) := lowValue_mono fun i => by
    rw [get_values]
    exact (Vector.getElem_map _ i.isLt).trans_le (hs.fin i (hr i).1).2.1
  have hu : lowValue (values s) ≤ lowValue (r.map Range.high) := lowValue_mono fun i => by
    rw [get_values]
    exact (hs.fin i (hr i).1).2.2.trans_eq (Vector.getElem_map _ i.isLt).symm
  exact ⟨hlow.trans hl, hu.trans_lt hhigh⟩

lemma Settled.bounds (hr : Settled r) (hs : Related Holds s r) :
    value (values s) = lowValue (values s) + (values s).get 12 * 2 ^ 252 ∧
      0 ≤ lowValue (values s) ∧ lowValue (values s) < 2 ^ 252 := by
  refine ⟨value_eq_lowValue fun i hi => values_eq_zero hs (hr i).1 ((hr i).2.2 hi), ?_⟩
  have hdigit (i : Fin 12) :
      0 ≤ (values s).get (i.castAdd 12) ∧ (values s).get (i.castAdd 12) < 2 ^ 21 := by
    obtain ⟨hok, hdigit, -⟩ := hr (i.castAdd 12)
    obtain ⟨-, hl, hu⟩ := hs.fin (i.castAdd 12) hok
    obtain ⟨hlow, hhigh⟩ := hdigit i.isLt
    rw [← get_values] at hl hu
    exact ⟨hlow.trans hl, hu.trans_lt hhigh⟩
  rw [lowValue_eq_sum]
  simp only [Fin.forall_fin_succ] at hdigit
  simp [Fin.sum_univ_succ] at hdigit ⊢
  omega

lemma Finished.value_eq (hr : Finished r) (hs : Related Holds s r) :
    value (values s) = lowValue (values s) := by
  have hzero (i : Fin 24) (hi : 12 ≤ i.val) : (values s).get i = 0 :=
    values_eq_zero hs (hr i).1 ((hr i).2 hi)
  have htop : (values s).get 12 = 0 := hzero 12 le_rfl
  rw [value_eq_lowValue fun i hi => hzero i hi.le, htop, zero_mul, add_zero]

/-- All limbs fit. -/
structure Fit (s : WideLimbs (Checked 64)) : Prop where
  fits : ∀ i : Fin 24, (s.get i).fits

lemma Finished.fit (hr : Finished r) (hs : Related Holds s r) : Fit s where
  fits i := (hs.fin i (hr i).1).1

/-- A number below `2 ^ 252` in absolute value is brought to its residue by adding the group order
unless it is positive, which is the carry out of bit 252. -/
lemma residue_of_carry {v low carry : ℤ} (hv : -2 ^ 252 ≤ v ∧ v < 2 ^ 252)
    (hlow : 0 ≤ low ∧ low < 2 ^ 252) (h : v = low + carry * 2 ^ 252) :
    v - carry * groupOrder = v % groupOrder := by
  have horder : (groupOrder : ℤ) = 2 ^ 252 + 27742317777372353535851937790883648493 := rfl
  rw [horder]
  have hcarry : carry = 0 ∨ carry = -1 := by omega
  rcases hcarry with rfl | rfl <;> omega

lemma values_eq_map (s : WideLimbs (Checked 64)) :
    Related (fun (c : Checked 64) n => c.value = n) s (values s) := Related.of_map _ s

/-- The reduction fits in 64 bits and leaves the residue. -/
theorem reduce_exact (hr : Reduces r) (hs : Related Holds s r) :
    Fit (reduce s) ∧ lowValue (values (reduce s)) = value (values s) % groupOrder := by
  have hp := prepare_related (fun i _ _ => holds_carryRounded i) Range.simulation hs
  have hq := settle_related (fun i _ _ => holds_carryFloor i) hp
  have hf := finish_related (fun i _ _ => holds_carryFloor i) Range.simulation hq
  refine ⟨hr.finished.fit hf, ?_⟩
  have hvp : values (prepare carryRounded s) = prepare carryRounded (values s) :=
    Related.eq_map (prepare_related (fun i _ _ => carryRounded_related simulation_value i)
      simulation_value (values_eq_map s))
  have hvq : values (settle carryFloor (prepare carryRounded s)) =
      settle carryFloor (values (prepare carryRounded s)) :=
    Related.eq_map (settle_related (fun i _ _ => carryFloor_related simulation_value i)
      (values_eq_map _))
  have hvf : values (finish carryFloor (settle carryFloor (prepare carryRounded s))) =
      finish carryFloor (values (settle carryFloor (prepare carryRounded s))) :=
    Related.eq_map (finish_related (fun i _ _ => carryFloor_related simulation_value i)
      simulation_value (values_eq_map _))
  have hbounds := hr.prepared.bounds hp
  obtain ⟨hsplit, hlow⟩ := hr.settled.bounds hq
  have hmod : value (values (prepare carryRounded s)) ≡ value (values s) [ZMOD groupOrder] := by
    rw [hvp]
    exact value_prepare _
  rw [reduce, ← hr.finished.value_eq hf, hvf, value_finish]
  rw [hvq, value_settle, ← hvq] at hsplit
  rw [hvq, value_settle, ← hvq, residue_of_carry hbounds hlow hsplit]
  exact hmod

/-- Words of 64 bits stand for checked integers that fit. -/
lemma map_toInt_eq {v : WideLimbs Int64} (hs : Fit s) (hv : Related Stands s v) :
    v.map Int64.toInt = values s :=
  Related.map_eq_map fun i => hv.fin i (hs.fits i)

lemma packable_reduce {v : WideLimbs Int64} (hr : Reduces r) (hs : Related Holds s r)
    (hv : Related Stands s v) : Packable ((reduce v).map Int64.toInt) := by
  obtain ⟨hfit, hlow⟩ := reduce_exact hr hs
  have hvalues : values (reduce s) = reduce (values s) :=
    Related.eq_map (reduce_related simulation_value (values_eq_map s))
  rw [map_toInt_eq hfit (reduce_related simulation_int64 hv)]
  apply packable_of_lowValue
  · rw [hvalues]
    exact digit_finish _
  · rw [hlow]
    exact ⟨Int.emod_nonneg _ (by decide), Int.emod_lt_of_pos _ (by decide)⟩

theorem fit_reduce_ofNat {n : ℕ} (hn : n < 2 ^ (8 * 64)) : Fit (reduce (ofNat n)) :=
  (reduce_exact reduces_wide (holds_ofNat hn)).1

theorem fit_reduce_mulAdd {a b c : ℕ} (ha : a < 2 ^ (8 * 32)) (hb : b < 2 ^ (8 * 32))
    (hc : c < 2 ^ (8 * 32)) : Fit (reduce (mulAdd a b c)) :=
  (reduce_exact reduces_mulAdd (holds_mulAdd ha hb hc)).1

end WideLimbs

namespace Scalar

open WideLimbs LimbArithmetic

lemma toNat_lt_wide (b : Bytes 64) : b.toNat < 2 ^ (8 * 64) := by
  have h := b.toNat_lt
  rwa [show 256 = 2 ^ 8 from rfl, ← pow_mul] at h

lemma toNat_lt_short (b : Bytes 32) : b.toNat < 2 ^ (8 * 32) := by
  have h := b.toNat_lt
  rwa [show 256 = 2 ^ 8 from rfl, ← pow_mul] at h

lemma reduce_eq_ofLimbs (b : Bytes 64) : reduce b = ofLimbs (WideLimbs.reduce (ofNat b.toNat)) := by
  rw [reduce, load_eq_ofNat]

lemma mulAdd_eq_ofLimbs (a b c : Bytes 32) :
    mulAdd a b c = ofLimbs (WideLimbs.reduce (WideLimbs.mulAdd a.toNat b.toNat c.toNat)) := by
  rw [mulAdd, load_eq_split, load_eq_split, load_eq_split]
  rfl

/-- The bytes of a reduction are those of the residue. -/
lemma toNat_ofLimbs_reduce {s : WideLimbs (Checked 64)} {r : WideLimbs (Range 64)} {v : WideLimbs Int64}
    (hr : Reduces r) (hs : Related Range.Holds s r) (hv : Related Stands s v) {n : ℕ}
    (hn : value (values s) = n) : (ofLimbs (WideLimbs.reduce v)).toNat = n % groupOrder := by
  obtain ⟨hfit, hlow⟩ := reduce_exact hr hs
  refine toNat_ofLimbs (packable_reduce hr hs hv) ?_ ((Nat.mod_lt n (by decide)).trans (by decide))
  rw [map_toInt_eq hfit (reduce_related simulation_int64 hv), hlow, hn, Int.natCast_mod]

theorem toNat_reduce (b : Bytes 64) : (reduce b).toNat = b.toNat % groupOrder := by
  have hvalues : values (ofNat b.toNat) = ofNat b.toNat :=
    Related.eq_map (ofNat_related simulation_value b.toNat)
  rw [reduce_eq_ofLimbs]
  apply toNat_ofLimbs_reduce reduces_wide (holds_ofNat (toNat_lt_wide b))
    (ofNat_related simulation_int64 b.toNat)
  rw [hvalues, value_ofNat]

theorem toNat_mulAdd (a b c : Bytes 32) :
    (mulAdd a b c).toNat = (a.toNat * b.toNat + c.toNat) % groupOrder := by
  have hvalues : values (WideLimbs.mulAdd a.toNat b.toNat c.toNat) =
      WideLimbs.mulAdd a.toNat b.toNat c.toNat :=
    Related.eq_map (mulAdd_related simulation_value _ _ _)
  rw [mulAdd_eq_ofLimbs]
  apply toNat_ofLimbs_reduce reduces_mulAdd
    (holds_mulAdd (toNat_lt_short a) (toNat_lt_short b) (toNat_lt_short c))
    (mulAdd_related simulation_int64 _ _ _)
  rw [hvalues, value_mulAdd]
  push_cast
  rfl

lemma groupOrder_bounds : 2 ^ 252 < groupOrder ∧ groupOrder < 2 ^ 253 := by decide

lemma toNat_reduce_lt (b : Bytes 64) : (reduce b).toNat < 2 ^ 253 := by
  rw [toNat_reduce]
  exact (Nat.mod_lt _ (Nat.zero_lt_of_lt groupOrder_bounds.1)).trans groupOrder_bounds.2

lemma topBit_reduce (b : Bytes 64) : (reduce b).topBit = false := by
  rw [Bool.eq_false_iff, ne_eq, Bytes.topBit_iff]
  have hlt := toNat_reduce_lt b
  omega

end Scalar

namespace Encoded

theorem topBit_toRecodable (e : Encoded) : e.toRecodable.topBit = false := by
  unfold toRecodable
  dsimp only
  split_ifs with h
  · exact Scalar.topBit_reduce e.toScalar.widen
  · exact Bool.eq_false_iff.mpr h

/-- A scalar below `2 ^ 255` is recoded as it is. -/
theorem toRecodable_short {b : Bytes 32} (h : b.toNat < 2 ^ 255) : (short b).toRecodable = b := by
  have htop : b.topBit ≠ true := by
    rw [ne_eq, Bytes.topBit_iff]
    omega
  exact if_neg htop

end Encoded
end Edwards25519
