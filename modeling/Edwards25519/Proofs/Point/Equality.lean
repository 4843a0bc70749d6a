import Edwards25519.Proofs.Point.Compression

/-! When the program takes two points for equal. It compares affine coordinates, encodings, products with
the denominators or values one by one, whichever suits the two systems. Each decides whether the points
are the same, but the right one is only converted to the system of the left one, and prepared points
are compared as they stand. -/
namespace Edwards25519

open FieldElement

namespace CoordinateSystem

/-- The points of the system have affine coordinates to compare. -/
def HasAffine (s : CoordinateSystem) : Prop := s ≠ .precomputed ∧ s ≠ .cached

/-- An element in the left system can be equal to one in the right system. -/
def Comparable (s t : CoordinateSystem) : Prop :=
  (s = .affine ∨ t = .affine) ∧ s.HasAffine ∧ t.HasAffine ∨ s = t ∨
    (s, t) ∈ [(.projective, .extended), (.projective, .completed), (.extended, .completed),
      (.cached, .extended)]

variable {s t : CoordinateSystem}

instance : Decidable s.HasAffine := inferInstanceAs (Decidable (_ ∧ _))

instance : Decidable (s.Comparable t) := inferInstanceAs (Decidable (_ ∨ _))

lemma comparable_iff_of_affine (h : s = .affine ∨ t = .affine) :
    s.Comparable t ↔ s.HasAffine ∧ t.HasAffine := by
  revert h
  cases s <;> cases t <;> decide

end CoordinateSystem

namespace Element

/-- The values of an element are valid in its system, and are those of the point. Values that are only
ever compared may have any limbs. -/
inductive Represents : Element FieldElement → CurvePoint → Prop
  | affine {p : Affine FieldElement} {P : CurvePoint} (h : p.residues.Denotes P) :
      Represents (.affine p) P
  | projective {p : Projective FieldElement} (h : p.Valid) : Represents (.projective p) h.point
  | extended {p : Extended FieldElement} (h : p.toProjective.Valid) (ht : p.t.IsOperand)
      (hproduct : p.x.residue * p.y.residue = p.z.residue * p.t.residue) :
      Represents (.extended p) h.point
  | completed {c : Completed FieldElement} (h : c.Valid) : Represents (.completed c) h.point
  | precomputed {p : Precomputed FieldElement} {P : CurvePoint} (h : p.residues.Denotes P) :
      Represents (.precomputed p) P
  | cached {c : Cached FieldElement} {P : CurvePoint} (h : c.residues.Denotes P) :
      Represents (.cached c) P

/-- The values of a cached element are congruent to those of the other one, or of its cached form. -/
def SlotsAgree : Element FieldElement → Element FieldElement → Prop
  | cached c, cached c' => c.residues = c'.residues
  | cached c, extended q => c.residues = q.toCached.residues
  | _, _ => True

end Element

variable {P Q : CurvePoint}

section residues

/-- A point is determined by the sum and the difference of its coordinates. -/
lemma CurvePoint.eq_of_sum_of_difference (hsum : P.y + P.x = Q.y + Q.x)
    (hdifference : P.y - P.x = Q.y - Q.x) : P = Q := by
  apply EdwardsCurve.Point.ext
  · apply mul_left_cancel₀ Residue.two_ne_zero
    linear_combination hsum - hdifference
  · apply mul_left_cancel₀ Residue.two_ne_zero
    linear_combination hsum + hdifference

lemma Precomputed.Denotes.eq_iff {p q : Precomputed Residue} (hp : p.Denotes P) (hq : q.Denotes Q) :
    p = q ↔ P = Q := by
  constructor
  · rintro rfl
    exact CurvePoint.eq_of_sum_of_difference (hp.yPlusX.symm.trans hq.yPlusX)
      (hp.yMinusX.symm.trans hq.yMinusX)
  · rintro rfl
    obtain ⟨a, b, c⟩ := p
    rw [Precomputed.mk.injEq]
    exact ⟨hp.yPlusX.trans hq.yPlusX.symm, hp.yMinusX.trans hq.yMinusX.symm,
      hp.xy2d.trans hq.xy2d.symm⟩

/-- Only one point has the given values, whatever the denominator is. -/
lemma Cached.Denotes.unique {c : Cached Residue} (hP : c.Denotes P) (hQ : c.Denotes Q) : P = Q :=
  CurvePoint.eq_of_sum_of_difference
    (mul_right_cancel₀ hP.z_ne_zero (hP.yPlusX.symm.trans hQ.yPlusX))
    (mul_right_cancel₀ hP.z_ne_zero (hP.yMinusX.symm.trans hQ.yMinusX))

end residues

section conversions

lemma Affine.Related.residues_eq {p : Affine FieldElement} {q : Affine Residue}
    (h : p.Related FieldElement.Represents q) : p.residues = q := by
  rw [residues, h.x.residue_eq, h.y.residue_eq]

lemma Projective.Valid.toAffine {p : Projective FieldElement} (h : p.Valid) :
    p.toAffine.residues.Denotes h.point := by
  rw [h.related_toAffine.residues_eq]
  exact h.denotes.toAffine

lemma Extended.denotes_residues {p : Extended FieldElement} (h : p.toProjective.Valid)
    (hproduct : p.x.residue * p.y.residue = p.z.residue * p.t.residue) :
    p.residues.Denotes h.point :=
  denotes_of_product h.denotes hproduct

lemma Extended.residues_toCached {p : Extended FieldElement} (h : p.toProjective.Valid)
    (ht : p.t.IsOperand) : p.toCached.residues = p.residues.toCached := by
  obtain ⟨hcarried, hresidue⟩ := represents_one_iff.mp simulation_represents.twoD
  have hx : p.x.IsOperand := h.x
  have hy : p.y.IsOperand := h.y
  rw [Cached.residues, toCached, hy.residue_add hx, hy.residue_sub hx,
    ht.residue_mul hcarried.isOperand, hresidue]
  rfl

lemma Extended.Represents.element {p : Extended FieldElement} (h : p.Represents P) :
    Element.Represents (.extended p) P := by
  obtain ⟨hprojective, hpoint⟩ := h.toProjective.valid
  obtain ⟨hvalid, -⟩ := Extended.represents_iff.mp h
  rw [← hpoint]
  exact .extended hprojective hvalid.t.isOperand hvalid.product

end conversions

section comparisons

open Coordinate

lemma Affine.congruent_iff {p q : Affine FieldElement} (hP : p.residues.Denotes P)
    (hQ : q.residues.Denotes Q) : (congruent p.x q.x && congruent p.y q.y) = true ↔ P = Q := by
  have hx : p.x.residue = q.x.residue ↔ P.x = Q.x := hP.x ▸ hQ.x ▸ Iff.rfl
  have hy : p.y.residue = q.y.residue ↔ P.y = Q.y := hP.y ▸ hQ.y ▸ Iff.rfl
  rw [Bool.and_eq_true, FieldElement.congruent_iff, FieldElement.congruent_iff, hx, hy,
    EdwardsCurve.Point.ext_iff]

/-- The factors of the cross products are operands, so that the products are those of the residues. -/
lemma Extended.agrees_eq_residues {p q : Extended FieldElement} (hp : p.toProjective.Valid)
    (hq : q.toProjective.Valid) : p.agrees q = p.residues.agrees q.residues := by
  obtain ⟨hx, hy, hz⟩ : p.x.IsOperand ∧ p.y.IsOperand ∧ p.z.IsOperand := ⟨hp.x, hp.y, hp.z⟩
  obtain ⟨hx', hy', hz'⟩ : q.x.IsOperand ∧ q.y.IsOperand ∧ q.z.IsOperand := ⟨hq.x, hq.y, hq.z⟩
  apply Bool.eq_iff_iff.mpr
  rw [agrees, agrees, Bool.and_eq_true, Bool.and_eq_true, congruent_iff, congruent_iff,
    Residue.congruent_iff, Residue.congruent_iff, hx.residue_mul hz', hx'.residue_mul hz,
    hy.residue_mul hz', hy'.residue_mul hz]
  rfl

namespace Element

lemma agreesWithin_precomputed {p q : Precomputed FieldElement} :
    agreesWithin (precomputed p) (precomputed q) = true ↔ p.residues = q.residues := by
  simp only [agreesWithin, Bool.and_eq_true, FieldElement.congruent_iff, Precomputed.residues,
    Precomputed.mk.injEq, and_assoc]

lemma agreesWithin_cached {c c' : Cached FieldElement} :
    agreesWithin (cached c) (cached c') = true ↔ c.residues = c'.residues := by
  simp only [agreesWithin, Bool.and_eq_true, FieldElement.congruent_iff, Cached.residues,
    Cached.mk.injEq, and_assoc]

end Element

end comparisons

namespace Element

variable {e f g : Element FieldElement} {s : CoordinateSystem}

lemma slotsAgree_of_hasAffine (hs : e.system.HasAffine) : e.SlotsAgree f := by
  cases e with
  | cached => exact absurd rfl hs.2
  | _ => trivial

section affine

lemma exists_toAffine? (he : e.Represents P) (hs : e.system.HasAffine) :
    ∃ p, e.toAffine? = some p ∧ p.residues.Denotes P := by
  cases he with
  | affine h => exact ⟨_, rfl, h⟩
  | projective h => exact ⟨_, rfl, h.toAffine⟩
  | extended h => exact ⟨_, rfl, h.toAffine⟩
  | completed h =>
    obtain ⟨hvalid, hpoint⟩ := h.represents_toProjective.valid
    exact ⟨_, rfl, hpoint ▸ hvalid.toAffine⟩
  | precomputed => exact absurd rfl hs.1
  | cached => exact absurd rfl hs.2

lemma toAffine?_eq_none (hs : ¬ e.system.HasAffine) : e.toAffine? = none := by
  cases e with
  | precomputed => rfl
  | cached => rfl
  | _ => exact absurd ⟨nofun, nofun⟩ hs

/-- Affine coordinates are compared if both elements have them. -/
lemma agrees_iff_of_affine (he : e.Represents P) (hf : f.Represents Q)
    (haffine : e.system = .affine ∨ f.system = .affine) :
    e.agrees f = true ↔ P = Q ∧ e.system.HasAffine ∧ f.system.HasAffine := by
  rw [agrees, if_pos haffine]
  by_cases hse : e.system.HasAffine
  · obtain ⟨p, hp, hP⟩ := exists_toAffine? he hse
    rw [hp]
    by_cases hsf : f.system.HasAffine
    · obtain ⟨q, hq, hQ⟩ := exists_toAffine? hf hsf
      rw [hq, and_iff_left ⟨hse, hsf⟩]
      exact Affine.congruent_iff hP hQ
    · rw [toAffine?_eq_none hsf]
      exact iff_of_false Bool.false_ne_true fun h => hsf h.2.2
  · rw [toAffine?_eq_none hse]
    exact iff_of_false Bool.false_ne_true fun h => hse h.2.1

end affine

/-- A conversion keeps the point. -/
lemma Represents.convert (he : e.Represents P) (h : e.convert s = .ok g) :
    g.Represents P ∧ g.system = s := by
  cases he with
  | affine => cases s <;> cases h
  | projective hp =>
    cases s with
    | projective => cases h; exact ⟨.projective hp, rfl⟩
    | _ => cases h
  | @extended p hp ht hproduct =>
    cases s with
    | projective => cases h; exact ⟨.projective hp, rfl⟩
    | extended => cases h; exact ⟨.extended hp ht hproduct, rfl⟩
    | cached =>
      cases h
      have hdenotes := (Extended.denotes_residues hp hproduct).toCached
      rw [← Extended.residues_toCached hp ht] at hdenotes
      exact ⟨.cached hdenotes, rfl⟩
    | _ => cases h
  | completed hc =>
    cases s with
    | projective =>
      cases h
      obtain ⟨hvalid, hpoint⟩ := hc.represents_toProjective.valid
      exact ⟨hpoint ▸ .projective hvalid, rfl⟩
    | extended => cases h; exact ⟨hc.represents_toExtended.element, rfl⟩
    | completed => cases h; exact ⟨.completed hc, rfl⟩
    | _ => cases h
  | precomputed hp =>
    cases s with
    | precomputed => cases h; exact ⟨.precomputed hp, rfl⟩
    | _ => cases h
  | cached hc =>
    cases s with
    | cached => cases h; exact ⟨.cached hc, rfl⟩
    | _ => cases h

/-- Within one system points are compared, and the values of cached ones as well. -/
lemma agreesWithin_iff (he : e.Represents P) (hf : f.Represents Q) (hsystem : e.system = f.system)
    (hs : e.system ≠ .affine) : e.agreesWithin f = true ↔ P = Q ∧ e.SlotsAgree f := by
  cases he with
  | affine => exact absurd rfl hs
  | projective hp =>
    cases hf with
    | projective hq =>
      rw [agreesWithin, beq_iff_eq, hp.encode, hq.encode, CurvePoint.encode_inj]
      exact iff_self_and.mpr fun _ => trivial
    | _ => cases hsystem
  | extended hp ht hproduct =>
    cases hf with
    | extended hq ht' hproduct' =>
      rw [agreesWithin, Extended.agrees_eq_residues hp hq,
        (Extended.denotes_residues hp hproduct).agrees_iff (Extended.denotes_residues hq hproduct')]
      exact iff_self_and.mpr fun _ => trivial
    | _ => cases hsystem
  | completed hp =>
    cases hf with
    | completed hq =>
      rw [agreesWithin, beq_iff_eq, hp.encode, hq.encode, CurvePoint.encode_inj]
      exact iff_self_and.mpr fun _ => trivial
    | _ => cases hsystem
  | precomputed hp =>
    cases hf with
    | precomputed hq =>
      rw [agreesWithin_precomputed, hp.eq_iff hq]
      exact iff_self_and.mpr fun _ => trivial
    | _ => cases hsystem
  | cached hp =>
    cases hf with
    | cached hq =>
      rw [agreesWithin_cached]
      -- equal values are values of one point only, but a point has values for every denominator
      refine ⟨fun h => ⟨?_, h⟩, fun h => h.2⟩
      rw [h] at hp
      exact hp.unique hq
    | _ => cases hsystem

/-- Apart from affine elements, the right one has to be in the system of the left one, or to be converted
to it. -/
lemma comparable_iff (he : e.system ≠ .affine) (hf : f.system ≠ .affine) :
    e.system.Comparable f.system ↔ e.system = f.system ∨ ∃ g, f.convert e.system = .ok g := by
  cases e <;> cases f <;>
    simp [CoordinateSystem.Comparable, system, convert] at he hf ⊢

/-- The cached form of the right element is what its values are compared with. -/
lemma slotsAgree_convert (h : f.convert e.system = .ok g) : e.SlotsAgree g ↔ e.SlotsAgree f := by
  cases e with
  | cached c =>
    cases f with
    | extended q => cases h; rfl
    | cached c' => cases h; rfl
    | _ => cases h
  | _ => exact iff_of_true trivial trivial

lemma agrees_iff_of_not_affine (he : e.Represents P) (hf : f.Represents Q)
    (hse : e.system ≠ .affine) (hsf : f.system ≠ .affine) :
    e.agrees f = true ↔ P = Q ∧ e.system.Comparable f.system ∧ e.SlotsAgree f := by
  have hcomparable := comparable_iff hse hsf
  rw [agrees, if_neg (not_or.mpr ⟨hse, hsf⟩)]
  split_ifs with hsystem
  · rw [agreesWithin_iff he hf hsystem hse, and_iff_right (hcomparable.mpr (.inl hsystem))]
  · cases hconvert : f.convert e.system with
    | error =>
      refine iff_of_false Bool.false_ne_true fun h => ?_
      obtain ⟨g, hg⟩ := (hcomparable.mp h.2.1).resolve_left hsystem
      rw [hconvert] at hg
      cases hg
    | ok g =>
      obtain ⟨hg, hsg⟩ := hf.convert hconvert
      rw [agreesWithin_iff he hg hsg.symm hse, slotsAgree_convert hconvert,
        and_iff_right (hcomparable.mpr (.inr ⟨g, hconvert⟩))]

/-- Two elements are equal for the program exactly if they are the same point and their systems can be
compared, and for a cached element on the left if its values are also those of the right one. -/
theorem agrees_iff_point (he : e.Represents P) (hf : f.Represents Q) :
    e.agrees f = true ↔ P = Q ∧ e.system.Comparable f.system ∧ e.SlotsAgree f := by
  by_cases haffine : e.system = .affine ∨ f.system = .affine
  · have hslots : e.system.HasAffine ∧ f.system.HasAffine → e.SlotsAgree f :=
      fun h => slotsAgree_of_hasAffine h.1
    rw [agrees_iff_of_affine he hf haffine, CoordinateSystem.comparable_iff_of_affine haffine,
      and_iff_left_of_imp hslots]
  · obtain ⟨hse, hsf⟩ := not_or.mp haffine
    exact agrees_iff_of_not_affine he hf hse hsf

/-- The base point against itself in other systems, in both orders, and with another denominator, where
its cached forms differ, and against its double. -/
theorem agrees_iff_point_base :
    let p : Extended FieldElement := .base
    let q : Extended FieldElement := .plus .neutral p
    (projective p.toProjective).agrees (extended p) = true ∧
    (extended p).agrees (projective p.toProjective) = false ∧
    (cached p.toCached).agrees (extended p) = true ∧
    (extended p).agrees (cached p.toCached) = false ∧
    (extended p).agrees (extended q) = true ∧
    (cached p.toCached).agrees (extended q) = false ∧
    (extended p).agrees (completed p.double) = false := by
  intro p q
  have hextended : (extended p).Represents CurvePoint.base := Extended.represents_base.element
  have hq : q.Represents CurvePoint.base :=
    zero_add CurvePoint.base ▸ Extended.represents_neutral.plus Extended.represents_base
  obtain ⟨hprojective, -⟩ := hextended.convert (s := .projective) rfl
  obtain ⟨hcached, -⟩ := hextended.convert (s := .cached) rfl
  obtain ⟨hvalid, hpoint⟩ := Extended.represents_base.double.valid
  have hdouble := Represents.completed hvalid
  refine ⟨?_, ?_, ?_, ?_, ?_, ?_, ?_⟩
  · exact (agrees_iff_point hprojective hextended).mpr ⟨rfl, by decide, trivial⟩
  · rw [Bool.eq_false_iff, ne_eq, agrees_iff_point hextended hprojective]
    exact fun h => absurd h.2.1 (by decide)
  · exact (agrees_iff_point hcached hextended).mpr ⟨rfl, by decide, rfl⟩
  · rw [Bool.eq_false_iff, ne_eq, agrees_iff_point hextended hcached]
    exact fun h => absurd h.2.1 (by decide)
  · exact (agrees_iff_point hextended hq.element).mpr ⟨rfl, by decide, trivial⟩
  · rw [Bool.eq_false_iff, ne_eq, agrees_iff_point hcached hq.element]
    have hz : p.toCached.z.residue ≠ q.toCached.z.residue := by decide +kernel
    exact fun h => hz (congrArg Cached.z h.2.2)
  · rw [Bool.eq_false_iff, ne_eq, agrees_iff_point hextended hdouble, hpoint]
    exact fun h => CurvePoint.base_ne_zero (left_eq_add.mp h.1)

end Element
end Edwards25519
