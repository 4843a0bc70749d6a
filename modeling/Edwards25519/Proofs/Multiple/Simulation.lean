import Edwards25519.Multiple.Table
import Edwards25519.Proofs.Bytes
import Edwards25519.Proofs.Point.Simulation
import Edwards25519.Proofs.Word.Related
import Mathlib.Logic.Function.Iterate

/-! Related coordinates stay related through tables and multiplications: the digits are the same, and
each step is a formula on points. -/
namespace Edwards25519

lemma getElem_orbit {α : Type} (f : α → α) {n i : ℕ} (x : α) (hi : i < (orbit f n x).length) :
    (orbit f n x)[i] = f^[i] x := by
  induction n generalizing x i with
  | zero => exact absurd hi (Nat.not_lt_zero i)
  | succ n ih =>
    cases i with
    | zero => rfl
    | succ i => exact ih (f x) (Nat.lt_of_succ_lt_succ hi)

lemma getElem_orbitVector {α : Type} (f : α → α) {n i : ℕ} (x : α) (hi : i < n) :
    (orbitVector f n x)[i] = f^[i] x :=
  getElem_orbit f x (by simpa using hi)

/-- Orbits of related starting points under related functions are related. -/
lemma related_orbitVector {α β : Type} {R : α → β → Prop} {f : α → α} {g : β → β}
    (hstep : ∀ {a b}, R a b → R (f a) (g b)) (n : ℕ) {a : α} {b : β} (h : R a b) :
    Related R (orbitVector f n a) (orbitVector g n b) := by
  intro i hi
  rw [getElem_orbitVector, getElem_orbitVector]
  clear hi
  induction i generalizing a b with
  | zero => exact h
  | succ i ih => exact ih (hstep h)

namespace FixedBaseTable

lemma magnitude_spec (digit : Int8) : (magnitude digit).toNat = digit.toInt.natAbs ∧
    (signMask digit &&& 1 = 1 ↔ digit < 0) :=
  forall_byte (p := fun b => (magnitude b.toInt8).toNat = b.toInt8.toInt.natAbs ∧
    (signMask b.toInt8 &&& 1 = 1 ↔ b.toInt8 < 0)) (by decide +kernel) digit.toUInt8

/-- A pass over all places takes the value at the place that is asked for, counted from one. -/
lemma foldl_place {α : Type} {n : ℕ} (k : ℕ) (f : Fin n → α) (x : α) :
    Fin.foldl n (fun t i => if k = i.val + 1 then f i else t) x =
      if h : 1 ≤ k ∧ k ≤ n then f ⟨k - 1, by omega⟩ else x := by
  induction n with
  | zero => rw [Fin.foldl_zero, dif_neg (by omega)]
  | succ n ih =>
    rw [Fin.foldl_succ_last]
    by_cases hk : k = n + 1
    · subst hk
      simp only [Fin.val_last, if_true]
      rw [dif_pos (by omega)]
      rfl
    · simp only [Fin.val_last, if_neg hk, Fin.val_castSucc, ih]
      exact dite_congr (by rw [eq_iff_iff]; omega) (fun _ => rfl) fun _ => rfl

/-- The entry is looked up by the size of the digit, and negated for a negative one. -/
theorem selectFrom_eq {F : Type} [Coordinate F] (entries : Vector (Precomputed F) 8) (digit : Int8) :
    selectFrom entries digit =
      let n := digit.toInt.natAbs
      let entry := if h : 1 ≤ n ∧ n ≤ 8 then entries.get ⟨n - 1, by omega⟩ else Precomputed.neutral
      if digit < 0 then entry.negate else entry := by
  obtain ⟨hsize, hsign⟩ := magnitude_spec digit
  have hplace (i : Fin 8) :
      magnitude digit = UInt16.ofNat (i.val + 1) ↔ digit.toInt.natAbs = i.val + 1 := by
    have hlt : i.val + 1 < 2 ^ 16 := by omega
    rw [← hsize, ← UInt16.toNat_inj, UInt16.toNat_ofNat_of_lt' hlt]
  simp only [selectFrom, hplace, hsign]
  rw [foldl_place digit.toInt.natAbs fun i => entries[i]]
  rfl

end FixedBaseTable

namespace Coordinate.Simulation

variable {F G : Type} [Coordinate F] [Coordinate G] {R : ℕ → F → G → Prop} (hR : Simulation R)
include hR

section fixedBase

theorem row {p : Extended F} {q : Extended G} (h : p.Related R q) :
    Related (Precomputed.Related R) (FixedBaseTable.row p) (FixedBaseTable.row q) :=
  (related_orbitVector (R := Extended.Related R)
    (fun h' => hR.completed_toExtended (hR.extended_add h' (hR.extended_toCached h))) 8 h).map
    hR.extended_toPrecomputed

theorem nextRow {p : Extended F} {q : Extended G} (h : p.Related R q) :
    (FixedBaseTable.nextRow p).Related R (FixedBaseTable.nextRow q) :=
  Related.foldl_list (R := Extended.Related R) (List.range 8)
    (fun _ _ _ _ h' => hR.extended_plus h' h') h

theorem fixedBaseTable {p : Extended F} {q : Extended G} (h : p.Related R q) :
    Related (Related (Precomputed.Related R)) (FixedBaseTable.ofPoint p)
      (FixedBaseTable.ofPoint q) :=
  (related_orbitVector hR.nextRow 32 h).map hR.row

theorem selectFrom {t : Vector (Precomputed F) 8} {u : Vector (Precomputed G) 8}
    (h : Related (Precomputed.Related R) t u) (digit : Int8) :
    (FixedBaseTable.selectFrom t digit).Related R (FixedBaseTable.selectFrom u digit) := by
  rw [FixedBaseTable.selectFrom_eq, FixedBaseTable.selectFrom_eq]
  dsimp only
  have hentry : Precomputed.Related R
      (if h : 1 ≤ digit.toInt.natAbs ∧ digit.toInt.natAbs ≤ 8 then
        t.get ⟨digit.toInt.natAbs - 1, by omega⟩ else .neutral)
      (if h : 1 ≤ digit.toInt.natAbs ∧ digit.toInt.natAbs ≤ 8 then
        u.get ⟨digit.toInt.natAbs - 1, by omega⟩ else .neutral) := by
    split
    · exact h.fin _
    · exact hR.precomputed_neutral
  split
  · exact hR.precomputed_negate hentry
  · exact hentry

theorem multiply {t : FixedBaseTable F} {u : FixedBaseTable G}
    (h : Related (Related (Precomputed.Related R)) t u) (s : Encoded) :
    (t.multiply s).Related R (u.multiply s) := by
  have hdigit (digit : Fin 32 → Int8) (i : Fin 32) {p : Extended F} {q : Extended G}
      (hp : p.Related R q) :
      Extended.Related R (p.addPrecomputed (FixedBaseTable.selectFrom t[i] (digit i))).toExtended
        (q.addPrecomputed (FixedBaseTable.selectFrom u[i] (digit i))).toExtended :=
    hR.completed_toExtended (hR.extended_addPrecomputed hp (hR.selectFrom (h.fin i) (digit i)))
  have hodd := Related.foldl_fin (R := Extended.Related R)
    (hdigit fun i => (Scalar.radix16 s.toRecodable)[2 * i.val + 1]) hR.extended_neutral
  have hdouble {p : Projective F} {q : Projective G} (hp : p.Related R q) :=
    hR.completed_toProjective (hR.projective_double hp)
  have hfour := hR.completed_toExtended (hR.projective_double (hdouble (hdouble
    (hR.completed_toProjective (hR.extended_double hodd)))))
  exact Related.foldl_fin (R := Extended.Related R)
    (hdigit fun i => (Scalar.radix16 s.toRecodable)[2 * i.val]) hfour

end fixedBase

section oddMultiples

theorem oddMultiples {p : Extended F} {q : Extended G} (h : p.Related R q) :
    Related (Precomputed.Related R) (OddMultiples.ofPoint p) (OddMultiples.ofPoint q) := by
  have hdouble := hR.extended_toCached (hR.completed_toExtended (hR.extended_double h))
  exact (related_orbitVector (R := Extended.Related R)
    (fun h' => hR.completed_toExtended (hR.extended_add h' hdouble)) 8 h).map
    hR.extended_toPrecomputed

variable {t t' : OddMultiples F} {u u' : OddMultiples G}

theorem entry (h : Related (Precomputed.Related R) t u) (digit : ℤ) :
    (t.entry digit).Related R (u.entry digit) := by
  unfold OddMultiples.entry
  split
  · exact h _ _
  · exact hR.precomputed_neutral

theorem addDigit (h : Related (Precomputed.Related R) t u) (digit : ℤ) {p : Completed F}
    {q : Completed G} (hp : p.Related R q) :
    (t.addDigit digit p).Related R (u.addDigit digit q) := by
  unfold OddMultiples.addDigit
  split
  · exact hR.extended_addPrecomputed (hR.completed_toExtended hp) (hR.entry h digit)
  · split
    · exact hR.extended_subtractPrecomputed (hR.completed_toExtended hp) (hR.entry h digit)
    · exact hp

theorem step (h : Related (Precomputed.Related R) t u) (h' : Related (Precomputed.Related R) t' u')
    (digits : ℤ × ℤ) {p : Projective F} {q : Projective G} (hp : p.Related R q) :
    (OddMultiples.step t t' p digits).Related R (OddMultiples.step u u' q digits) :=
  hR.completed_toProjective (hR.addDigit h' digits.2 (hR.addDigit h (-digits.1)
    (hR.projective_double hp)))

theorem combine (h : Related (Precomputed.Related R) t u)
    (h' : Related (Precomputed.Related R) t' u') (a b : Bytes 32) :
    (OddMultiples.combine t t' a b).Related R (OddMultiples.combine u u' a b) :=
  Related.foldl_list (R := Projective.Related R) _
    (fun digits _ _ _ hp => hR.step h' h digits hp) hR.projective_neutral

end oddMultiples

end Coordinate.Simulation
end Edwards25519
