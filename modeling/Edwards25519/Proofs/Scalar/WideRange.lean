import Edwards25519.Proofs.Scalar.WideBytes
import Edwards25519.Proofs.Word.Range

/-! Bounds for the reduction modulo the group order. Everything in it fits in 64 bits, and before the
last carries the limbs add up to less than `2 ^ 252` in absolute value. -/
namespace Edwards25519.WideLimbs

open LimbArithmetic

section simulation

variable {α β : Type} [LimbArithmetic α] [LimbArithmetic β] {R : α → β → Prop}
variable {s : WideLimbs α} {s' : WideLimbs β}

theorem move_related (hR : Simulation R) (hs : Related R s s') (i : Fin 24) {c : α} {c' : β}
    (hc : R c c') : Related R (move s i c) (move s' i c') := by
  have hj := hs.set (i + 1).isLt (hR.add (hs.fin (i + 1)) hc)
  exact hj.set i.isLt (hR.sub (hj.fin i) (hR.shiftLeft 21 hc))

theorem carryRounded_related (hR : Simulation R) (i : Fin 24) (hs : Related R s s') :
    Related R (carryRounded s i) (carryRounded s' i) :=
  move_related hR hs i (hR.shiftRightRounded 21 (hs.fin i))

theorem carryFloor_related (hR : Simulation R) (i : Fin 24) (hs : Related R s s') :
    Related R (carryFloor s i) (carryFloor s' i) :=
  move_related hR hs i (hR.shiftRight 21 (hs.fin i))

theorem fold_related (hR : Simulation R) (hs : Related R s s') (i : Fin 12) :
    Related R (fold s i) (fold s' i) := by
  have hhigh := hs (i.val + 12) (by omega)
  have hlow := Related.foldl_fin (R := Related R) (n := 6) (fun k a b hab =>
    hab.set (show i.val + k.val < 24 by omega) (hR.add (hab (i.val + k.val) (by omega))
      (hR.mul hhigh (hR.intCast foldLimbs[k])))) hs
  exact hlow.set (by omega) (hR.intCast 0)

theorem folds_related (hR : Simulation R) (l : List (Fin 12)) (hs : Related R s s') :
    Related R (l.foldl fold s) (l.foldl fold s') :=
  Related.foldl_list (R := Related R) l (fun i _ _ _ h => fold_related hR h i) hs

theorem columns_related (hR : Simulation R) {f g h : Vector α 12} {f' g' h' : Vector β 12}
    (hf : Related R f f') (hg : Related R g g') (hh : Related R h h') :
    Related R (columns f g h) (columns f' g' h') := by
  refine Related.ofFn fun k => Related.foldl_fin (fun i a b hab => ?_) ?_
  · split
    · exact hR.add hab (hR.mul (hf.fin i) (hg _ _))
    · exact hab
  · split
    · exact hh _ _
    · exact hR.intCast 0

section carries

variable {carry : WideLimbs α → Fin 24 → WideLimbs α} {carry' : WideLimbs β → Fin 24 → WideLimbs β}
variable (hcarry : ∀ i a b, Related R a b → Related R (carry a i) (carry' b i))
include hcarry

omit [LimbArithmetic α] [LimbArithmetic β] in
lemma carries_related (l : List (Fin 24)) (hs : Related R s s') :
    Related R (l.foldl carry s) (l.foldl carry' s') :=
  Related.foldl_list (R := Related R) l (fun i _ a b h => hcarry i a b h) hs

theorem prepare_related (hR : Simulation R) (hs : Related R s s') :
    Related R (prepare carry s) (prepare carry' s') := by
  have hhigh := carries_related hcarry highCarries (folds_related hR highFolds hs)
  have hlow := carries_related hcarry lowCarries (folds_related hR lowFolds hhigh)
  exact fold_related hR hlow lastFold

omit [LimbArithmetic α] [LimbArithmetic β] in
theorem settle_related (hs : Related R s s') : Related R (settle carry s) (settle carry' s') :=
  carries_related hcarry settleCarries hs

omit [LimbArithmetic α] [LimbArithmetic β] in
theorem spread_related (hs : Related R s s') : Related R (spread carry s) (spread carry' s') :=
  carries_related hcarry spreadCarries hs

theorem finish_related (hR : Simulation R) (hs : Related R s s') :
    Related R (finish carry s) (finish carry' s') :=
  carries_related hcarry finishCarries (fold_related hR hs lastFold)

end carries

theorem reduce_related (hR : Simulation R) (hs : Related R s s') :
    Related R (reduce s) (reduce s') :=
  finish_related (fun i _ _ => carryFloor_related hR i) hR
    (settle_related (fun i _ _ => carryFloor_related hR i)
      (prepare_related (fun i _ _ => carryRounded_related hR i) hR hs))

theorem ofNat_related (hR : Simulation R) (n : ℕ) :
    Related R (ofNat n : WideLimbs α) (ofNat n : WideLimbs β) :=
  Related.ofFn fun _ => hR.intCast _

theorem split_related (hR : Simulation R) (n : ℕ) :
    Related R (split n : Vector α 12) (split n : Vector β 12) :=
  Related.ofFn fun _ => hR.intCast _

theorem mulAdd_related (hR : Simulation R) (a b c : ℕ) :
    Related R (mulAdd a b c : WideLimbs α) (mulAdd a b c : WideLimbs β) :=
  spread_related (fun i _ _ => carryRounded_related hR i)
    (columns_related hR (split_related hR a) (split_related hR b) (split_related hR c))

end simulation

section ranges

open Range

variable {w : ℕ} {s : WideLimbs (Checked w)} {r : WideLimbs (Range w)}

/-- The limbs after a carry out of limb `i`, given the carry and what is left of the limb. -/
def moved (r : WideLimbs (Range w)) (i : Fin 24) (carry rest : Range w) : WideLimbs (Range w) :=
  place (move r i carry) i rest

def roundedRange (r : WideLimbs (Range w)) (i : Fin 24) : WideLimbs (Range w) :=
  moved r i (shiftRightRounded (r.get i) 21) ((r.get i).signedRemainder 21)

def floorRange (r : WideLimbs (Range w)) (i : Fin 24) : WideLimbs (Range w) :=
  moved r i (shiftRight (r.get i) 21) ((r.get i).remainder 21)

/-- The limb that is carried out of is not the one that the carry goes into. -/
lemma move_eq {α : Type} [LimbArithmetic α] (s : WideLimbs α) (i : Fin 24) (c : α) :
    move s i c = place (place s (i + 1) (s.get (i + 1) + c)) i (s.get i - shiftLeft c 21) := by
  have hne : i + 1 ≠ i := by revert i; decide
  change place (place s (i + 1) (s.get (i + 1) + c)) i
    ((place s (i + 1) (s.get (i + 1) + c)).get i - shiftLeft c 21) = _
  rw [get_place, if_neg hne]

lemma holds_moved (hs : Related Holds s r) (i : Fin 24) {c : Checked w} {carry rest : Range w}
    (hcarry : Holds c carry) (hrest : Holds (s.get i - shiftLeft c 21) rest) :
    Related Holds (move s i c) (moved r i carry rest) := by
  refine (move_related Range.simulation hs i hcarry).place ?_
  rwa [move_eq, get_place, if_pos rfl]

lemma holds_carryRounded (i : Fin 24) (hs : Related Holds s r) :
    Related Holds (carryRounded s i) (roundedRange r i) :=
  holds_moved hs i (Range.simulation.shiftRightRounded 21 (hs.fin i))
    (holds_signedRemainder (hs.fin i) (by decide))

lemma holds_carryFloor (i : Fin 24) (hs : Related Holds s r) :
    Related Holds (carryFloor s i) (floorRange r i) :=
  holds_moved hs i (Range.simulation.shiftRight 21 (hs.fin i)) (holds_remainder (hs.fin i) 21)

/-- The range of limb `i` of a number below `2 ^ (21 * (count - 1) + last)`. -/
def limbRange (count last i : ℕ) : Range 64 :=
  checked 0 (2 ^ (if i + 1 = count then last else 21) - 1) true

lemma holds_limbOfNat {count last n e : ℕ} (hn : n < 2 ^ e) (he : e = 21 * (count - 1) + last)
    (i : ℕ) : Holds (limbOfNat count n i) (limbRange count last i) := by
  refine holds_checked fun _ => ⟨id, Int.natCast_nonneg _, ?_⟩
  apply Int.le_sub_one_of_lt
  change ((if i + 1 = count then n >>> (21 * i) else n >>> (21 * i) % (1 <<< 21) : ℕ) : ℤ) < _
  rw [Nat.shiftRight_eq_div_pow, Nat.one_shiftLeft]
  rw [he] at hn
  split_ifs with hi
  · subst hi
    rw [Nat.add_sub_cancel, pow_add, mul_comm] at hn
    exact_mod_cast Nat.div_lt_of_lt_mul (mul_comm _ (2 ^ last) ▸ hn)
  · exact_mod_cast Nat.mod_lt _ (Nat.two_pow_pos 21)

/-- The limbs of a number of 64 bytes. -/
def wideRange : WideLimbs (Range 64) := Vector.ofFn fun i => limbRange 24 29 i.val

/-- The limbs of a number of 32 bytes. -/
def splitRange : Vector (Range 64) 12 := Vector.ofFn fun i => limbRange 12 25 i.val

def mulAddRange : WideLimbs (Range 64) :=
  spread roundedRange (columns splitRange splitRange splitRange)

lemma holds_ofNat {n : ℕ} (hn : n < 2 ^ (8 * 64)) : Related Holds (ofNat n) wideRange :=
  Related.ofFn fun i => holds_limbOfNat hn rfl i.val

lemma holds_mulAdd {a b c : ℕ} (ha : a < 2 ^ (8 * 32)) (hb : b < 2 ^ (8 * 32)) (hc : c < 2 ^ (8 * 32)) :
    Related Holds (mulAdd a b c) mulAddRange := by
  have hsplit : ∀ n < 2 ^ (8 * 32), Related Holds (split n) splitRange := fun n hn =>
    Related.ofFn fun i => holds_limbOfNat hn rfl i.val
  exact spread_related (fun i _ _ => holds_carryRounded i)
    (columns_related Range.simulation (hsplit a ha) (hsplit b hb) (hsplit c hc))

end ranges

end Edwards25519.WideLimbs
