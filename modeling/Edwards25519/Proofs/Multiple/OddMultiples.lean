import Edwards25519.Proofs.Multiple.Simulation
import Edwards25519.Proofs.Point.Denotes
import Edwards25519.Proofs.Scalar.Slide
import Mathlib.Algebra.Module.NatInt

/-! The odd multiples serve digits that are zero or odd, and running through two scalars from the
highest digits down gives the difference of the two multiples. -/
namespace Edwards25519
namespace OddMultiples

/-- Digits between -15 and 15 have their place in the table. -/
lemma entry_eq {F : Type} [Coordinate F] (t : OddMultiples F) {digit : ℤ}
    (hbounds : -15 ≤ digit ∧ digit ≤ 15) :
    ∃ h : digit.natAbs / 2 < 8, t.entry digit = t.get ⟨digit.natAbs / 2, h⟩ := by
  have hindex : digit.natAbs / 2 < 8 := by omega
  exact ⟨hindex, dif_pos hindex⟩

/-- A table holds the odd multiples from 1 to 15. -/
def TableOf (t : OddMultiples Residue) (P : CurvePoint) : Prop :=
  ∀ j, (t.get j).Denotes ((2 * j.val + 1) • P)

variable {P : CurvePoint}

theorem tableOf_ofPoint {p : Extended Residue} (h : p.Denotes P) : TableOf (ofPoint p) P := by
  intro j
  have horbit : ∀ k, ((fun r => (Extended.add r p.double.toExtended.toCached).toExtended)^[k] p).Denotes
      ((2 * k + 1) • P) := by
    intro k
    induction k with
    | zero => simpa using h
    | succ k ih =>
      have hadd : (2 * (k + 1) + 1) • P = (2 * k + 1) • P + (P + P) := by
        rw [mul_add, add_right_comm, add_nsmul, mul_one, two_nsmul]
      rw [Function.iterate_succ_apply', hadd]
      exact (ih.add h.double.toExtended.toCached).toExtended
  simp only [ofPoint, get_eq_getElem, Vector.getElem_map, getElem_orbitVector]
  exact (horbit j.val).toPrecomputed

variable {t : OddMultiples Residue}

/-- The entry for an odd digit is the multiple by its size. -/
lemma denotes_entry (ht : TableOf t P) {digit : ℤ} (hodd : Odd digit)
    (hbounds : -15 ≤ digit ∧ digit ≤ 15) : (t.entry digit).Denotes (digit.natAbs • P) := by
  have hodd' := Int.natAbs_odd.mpr hodd
  obtain ⟨hindex, hentry⟩ := entry_eq t hbounds
  have hrow := ht ⟨digit.natAbs / 2, hindex⟩
  rw [hentry]
  rwa [Nat.two_mul_div_two_add_one_of_odd hodd'] at hrow

theorem denotes_addDigit (ht : TableOf t P) {digit : ℤ} (hdigit : Scalar.WindowDigit digit)
    {p : Completed Residue} {Q : CurvePoint} (hp : p.Denotes Q) :
    (t.addDigit digit p).Denotes (Q + digit • P) := by
  unfold addDigit
  rcases hdigit with rfl | ⟨hodd, hbounds⟩
  · simpa using hp
  have hentry := denotes_entry ht hodd hbounds
  split_ifs with hpos hneg
  · have habs : digit • P = digit.natAbs • P := by
      rw [← natCast_zsmul, Int.natAbs_of_nonneg hpos.le]
    rw [habs]
    exact hp.toExtended.addPrecomputed hentry
  · have habs : digit • P = -(digit.natAbs • P) := by
      rw [← natCast_zsmul, Int.ofNat_natAbs_of_nonpos hneg.le, neg_zsmul, neg_neg]
    rw [habs, ← sub_eq_add_neg]
    exact hp.toExtended.subtractPrecomputed hentry
  · obtain rfl : digit = 0 := by omega
    rwa [zero_zsmul, add_zero]

/-- The point after one more pair of digits: twice the point before and the difference of the digits'
multiples. -/
def shiftIn (A B Q : CurvePoint) (digits : ℤ × ℤ) : CurvePoint :=
  2 • Q + (digits.2 • B - digits.1 • A)

def WindowPair (digits : ℤ × ℤ) : Prop :=
  Scalar.WindowDigit digits.1 ∧ Scalar.WindowDigit digits.2

variable {other own : OddMultiples Residue} {A B : CurvePoint}

theorem denotes_step (hown : TableOf own B) (hother : TableOf other A) {digits : ℤ × ℤ}
    (hdigits : WindowPair digits) {p : Projective Residue} {Q : CurvePoint} (hp : p.Denotes Q) :
    (step other own p digits).Denotes (shiftIn A B Q digits) := by
  have hstep := (denotes_addDigit hown hdigits.2
    (denotes_addDigit hother hdigits.1.neg hp.double)).toProjective
  have hpoint : shiftIn A B Q digits = Q + Q + -digits.1 • A + digits.2 • B := by
    rw [shiftIn, two_nsmul, neg_zsmul]
    abel
  rw [hpoint]
  exact hstep

lemma denotes_steps (hown : TableOf own B) (hother : TableOf other A) {l : List (ℤ × ℤ)}
    (hl : ∀ digits ∈ l, WindowPair digits) {p : Projective Residue} {Q : CurvePoint}
    (hp : p.Denotes Q) : (l.foldl (step other own) p).Denotes (l.foldl (shiftIn A B) Q) := by
  induction l generalizing p Q with
  | nil => exact hp
  | cons digits l ih =>
    obtain ⟨hdigits, hl⟩ := List.forall_mem_cons.mp hl
    exact ih hl (denotes_step hown hother hdigits hp)

/-- Leading pairs of zeros leave the neutral point as it is. -/
lemma foldl_dropWhile (A B : CurvePoint) (l : List (ℤ × ℤ)) :
    (l.dropWhile (· = (0, 0))).foldl (shiftIn A B) 0 = l.foldl (shiftIn A B) 0 := by
  induction l with
  | nil => rfl
  | cons digits l ih =>
    rw [List.dropWhile_cons]
    split_ifs with hzero
    · obtain rfl := of_decide_eq_true hzero
      rw [ih, List.foldl_cons]
      simp [shiftIn]
    · rfl

/-- The digits are shifted in from the highest one down. -/
lemma foldl_reverse (A B : CurvePoint) (l : List (ℤ × ℤ)) :
    l.reverse.foldl (shiftIn A B) 0 =
      Scalar.digitSum 2 (l.map Prod.snd) • B - Scalar.digitSum 2 (l.map Prod.fst) • A := by
  induction l with
  | nil => simp
  | cons digits l ih =>
    rw [List.reverse_cons, List.foldl_append, ih, List.foldl_cons, List.foldl_nil, shiftIn,
      List.map_cons, List.map_cons, Scalar.digitSum_cons, Scalar.digitSum_cons, add_zsmul,
      add_zsmul, mul_zsmul, mul_zsmul]
    abel

theorem denotes_combine (hown : TableOf own B) (hother : TableOf other A) {a b : Bytes 32}
    (ha : a.toNat ≤ 2 ^ 255) (hb : b.toNat ≤ 2 ^ 255) :
    (combine own other a b).Denotes (b.toNat • B - a.toNat • A) := by
  let l := (Scalar.slide a).toList.zip (Scalar.slide b).toList
  have hpairs : ∀ digits ∈ l.reverse.dropWhile (· = (0, 0)), WindowPair digits := by
    intro digits hmem
    have hzip := List.mem_reverse.mp ((List.dropWhile_sublist _).mem hmem)
    exact ⟨Scalar.windowDigit_slide a _ (List.of_mem_zip hzip).1,
      Scalar.windowDigit_slide b _ (List.of_mem_zip hzip).2⟩
  have hfst : l.map Prod.fst = (Scalar.slide a).toList := List.map_fst_zip (by simp)
  have hsnd : l.map Prod.snd = (Scalar.slide b).toList := List.map_snd_zip (by simp)
  have hsteps := denotes_steps hown hother hpairs Projective.denotes_neutral
  rw [foldl_dropWhile, foldl_reverse, hfst, hsnd, Scalar.digitSum_slide ha,
    Scalar.digitSum_slide hb, natCast_zsmul, natCast_zsmul] at hsteps
  exact hsteps

end OddMultiples
end Edwards25519
