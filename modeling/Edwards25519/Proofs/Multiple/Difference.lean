import Edwards25519.Proofs.Multiple.Caching
import Edwards25519.Proofs.Multiple.Exactness

/-! The difference of two multiples is exact for points of any order, whatever tables they have, and all
entries that a run through the two scalars asks for are in the tables. -/
namespace Edwards25519

namespace Encoded

/-- The scalar has 64 bytes, or it has 32 bytes and bit 255 is clear. -/
def TopClear : Encoded → Prop
  | short b => b.topBit = false
  | wide _ => True

variable {s : Encoded}

lemma TopClear.topBit_toScalar (h : s.TopClear) : s.toScalar.topBit = false := by
  cases s with
  | short b => exact h
  | wide b => exact Scalar.topBit_reduce b

/-- The scalar is recoded as it is. -/
lemma TopClear.toNat_toScalar (h : s.TopClear) :
    s.toScalar.toNat = s.multiplier ∧ s.toScalar.toNat < 2 ^ 255 := by
  have htop : s.toScalar.topBit ≠ true := Bool.eq_false_iff.mp h.topBit_toScalar
  have hsame : s.toRecodable = s.toScalar := if_neg htop
  rw [ne_eq, Bytes.topBit_iff, not_le] at htop
  exact ⟨hsame ▸ s.toNat_toRecodable, htop⟩

end Encoded

/-- Both signs of a digit have the same place in the table. -/
lemma OddMultiples.entry_slide (s : Bytes 32) {d : ℤ} (hd : d ∈ (Scalar.slide s).toList) :
    ∃ h : d.natAbs / 2 < 8, ∀ t : OddMultiples FieldElement,
      t.entry d = t.get ⟨d.natAbs / 2, h⟩ ∧ t.entry (-d) = t.get ⟨d.natAbs / 2, h⟩ := by
  have hbounds : -15 ≤ d ∧ d ≤ 15 := by
    rcases Scalar.windowDigit_slide s d hd with rfl | ⟨-, hbounds⟩
    · decide
    · exact hbounds
  have hindex : d.natAbs / 2 < 8 := by omega
  refine ⟨hindex, fun t => ⟨(entry_eq t hbounds).2, ?_⟩⟩
  obtain ⟨hneg, hentry⟩ := entry_eq t (show -15 ≤ -d ∧ -d ≤ 15 by omega)
  rw [hentry]
  congr 2
  exact congrArg (· / 2) d.natAbs_neg

namespace Workspace

/-- The multiple of one point by a scalar less that of another one, which may be the same, is valid and is
the difference of the multiples by the numbers of the scalars. Whatever the scalars, every digit of them
has its place in a table of eight entries. -/
theorem combine_exact {w : Workspace FieldElement} (hw : w.Coherent) {i j : ℕ}
    {p q : TabledPoint FieldElement} (hp : w[i]? = some p) (hq : w[j]? = some q)
    (hP : p.point.Valid) (hQ : q.point.Valid) (a b : Encoded) :
    (∃ r, (combine w i j a b).value.1 = .projective r ∧
      (a.TopClear → b.TopClear →
        ∃ h : r.Valid, h.point = b.multiplier • hP.point - a.multiplier • hQ.point)) ∧
    ∀ (s : Bytes 32), ∀ d ∈ (Scalar.slide s).toList, ∃ h : d.natAbs / 2 < 8,
      ∀ t : OddMultiples FieldElement,
        t.entry d = t.get ⟨d.natAbs / 2, h⟩ ∧ t.entry (-d) = t.get ⟨d.natAbs / 2, h⟩ := by
  refine ⟨⟨_, by rw [value_combine hw hp hq], fun ha hb => ?_⟩,
    fun s _ hd => OddMultiples.entry_slide s hd⟩
  obtain ⟨hanum, halt⟩ := ha.toNat_toScalar
  obtain ⟨hbnum, hblt⟩ := hb.toNat_toScalar
  have hcombine := OddMultiples.represents_combine hP.represents hQ.represents halt.le hblt.le
  rw [hanum, hbnum] at hcombine
  exact hcombine.valid

open TabledPoint in
/-- The base point with its tables and a point of order 4 without any. Equal multiples of one point give the
neutral point, and 64 bytes with the group order take nothing of the first point. -/
theorem combine_exact_ofOrderFour :
    let largest : Encoded := .short (Bytes.ofNat 32 (2 ^ 255 - 1))
    let order : Encoded := .wide (Bytes.ofNat 64 groupOrder)
    ∃ p : Extended FieldElement, (∃ h : p.Valid, h.point = CurvePoint.ofOrderFour) ∧
      (∃ r, (combine [basePoint, ofPoint p] 0 0 largest largest).value.1 = .projective r ∧
        ∃ h : r.Valid, h.point = 0) ∧
      ∃ r, (combine [basePoint, ofPoint p] 0 1 largest order).value.1 = .projective r ∧
        ∃ h : r.Valid, h.point = -((2 ^ 255 - 1) • CurvePoint.ofOrderFour) := by
  intro largest order
  have hclear : (Bytes.ofNat 32 (2 ^ 255 - 1)).topBit = false := by decide
  have hlargest : largest.TopClear ∧ largest.multiplier = 2 ^ 255 - 1 :=
    ⟨hclear, Encoded.multiplier_short (by decide)⟩
  have horder : order.TopClear ∧ order.multiplier = 0 := ⟨trivial, Encoded.multiplier_groupOrder⟩
  obtain ⟨p, -, hrepresents⟩ := Extended.decode_of_decodes CurvePoint.decodes_ofOrderFour
  obtain ⟨hvalid, hpoint⟩ := Extended.represents_iff.mp hrepresents
  obtain ⟨hbase, -⟩ := Extended.represents_iff.mp Extended.represents_base
  let w : Workspace FieldElement := [basePoint, ofPoint p]
  have hcoherent : w.Coherent := List.forall_mem_cons.mpr
    ⟨coherent_basePoint, List.forall_mem_singleton.mpr (coherent_ofPoint p)⟩
  have hfirst : w[0]? = some basePoint := rfl
  have hsecond : w[1]? = some (ofPoint p) := rfl
  obtain ⟨⟨r, hr, hequal⟩, -⟩ :=
    combine_exact hcoherent hfirst hfirst hbase hbase largest largest
  obtain ⟨⟨r', hr', hother⟩, -⟩ :=
    combine_exact hcoherent hfirst hsecond hbase hvalid largest order
  refine ⟨p, ⟨hvalid, hpoint⟩, ⟨r, hr, ?_⟩, r', hr', ?_⟩
  · rw [← sub_self (largest.multiplier • hbase.point)]
    exact hequal hlargest.1 hlargest.1
  · have hdiff := hother hlargest.1 horder.1
    rw [horder.2, hlargest.2, zero_nsmul, zero_sub] at hdiff
    rw [← hpoint]
    exact hdiff

end Workspace
end Edwards25519
