import Edwards25519.Point.Addition
import Edwards25519.Point.Base
import Edwards25519.Proofs.Field.Simulation
import Edwards25519.Proofs.Point.Decoding
import Mathlib.Data.Option.Basic

/-! Related coordinates stay related through all formulas on points. The grades are those that the
formulas leave: coordinates are products, and three of them are added before the next product. -/
namespace Edwards25519

variable {F G : Type} [Coordinate F] [Coordinate G]

structure Affine.Related (R : ℕ → F → G → Prop) (p : Affine F) (q : Affine G) : Prop where
  x : R 1 p.x q.x
  y : R 1 p.y q.y

structure Projective.Related (R : ℕ → F → G → Prop) (p : Projective F) (q : Projective G) :
    Prop where
  x : R 1 p.x q.x
  y : R 1 p.y q.y
  z : R 1 p.z q.z

structure Extended.Related (R : ℕ → F → G → Prop) (p : Extended F) (q : Extended G) : Prop where
  x : R 1 p.x q.x
  y : R 1 p.y q.y
  z : R 1 p.z q.z
  t : R 1 p.t q.t

omit [Coordinate F] [Coordinate G] in
theorem Extended.Related.toProjective {R : ℕ → F → G → Prop} {p : Extended F} {q : Extended G}
    (h : p.Related R q) : p.toProjective.Related R q.toProjective :=
  ⟨h.x, h.y, h.z⟩

structure Completed.Related (R : ℕ → F → G → Prop) (p : Completed F) (q : Completed G) :
    Prop where
  x : R 3 p.x q.x
  y : R 3 p.y q.y
  z : R 3 p.z q.z
  t : R 3 p.t q.t

structure Precomputed.Related (R : ℕ → F → G → Prop) (p : Precomputed F) (q : Precomputed G) :
    Prop where
  yPlusX : R 2 p.yPlusX q.yPlusX
  yMinusX : R 2 p.yMinusX q.yMinusX
  xy2d : R 1 p.xy2d q.xy2d

structure Cached.Related (R : ℕ → F → G → Prop) (p : Cached F) (q : Cached G) : Prop where
  yPlusX : R 2 p.yPlusX q.yPlusX
  yMinusX : R 2 p.yMinusX q.yMinusX
  z : R 1 p.z q.z
  t2d : R 1 p.t2d q.t2d

namespace Coordinate.Factors

variable {R : ℕ → F → G → Prop} {Q : F → G → Prop} (hQ : Factors R Q)
include hQ

theorem projective_toAffine {p : Projective F} {q : Projective G} (hx : Q p.x q.x)
    (hy : Q p.y q.y) (hz : Q p.z q.z) : p.toAffine.Related R q.toAffine := by
  have hr := hQ.of_one (hQ.invert hz)
  exact ⟨hQ.mul hx hr, hQ.mul hy hr⟩

theorem completed_toExtended {p : Completed F} {q : Completed G} (hx : Q p.x q.x)
    (hy : Q p.y q.y) (hz : Q p.z q.z) (ht : Q p.t q.t) : p.toExtended.Related R q.toExtended :=
  ⟨hQ.mul hx ht, hQ.mul hy hz, hQ.mul hz ht, hQ.mul hx hy⟩

end Coordinate.Factors

namespace Coordinate.Simulation

variable {R : ℕ → F → G → Prop} (hR : Simulation R)
include hR

/-- A sum may be given a higher grade than that of its terms. -/
lemma add' {j k l : ℕ} {a b : F} {x y : G} (ha : R j a x) (hb : R k b y)
    (hl : Nat.ble (j + k) l = true) (hl' : Nat.ble l 32 = true) : R l (a + b) (x + y) :=
  hR.raise (hR.add ha hb (Nat.le_trans (Nat.le_of_ble_eq_true hl) (Nat.le_of_ble_eq_true hl'))) hl

lemma sub' {j k l : ℕ} {a b : F} {x y : G} (ha : R j a x) (hb : R k b y)
    (hl : Nat.ble (j + k) l = true) (hl' : Nat.ble l 32 = true) : R l (a - b) (x - y) :=
  hR.raise (hR.sub ha hb (Nat.le_trans (Nat.le_of_ble_eq_true hl) (Nat.le_of_ble_eq_true hl'))) hl

theorem projective_neutral : Projective.Related R .neutral .neutral :=
  ⟨hR.zero, hR.one, hR.one⟩

theorem extended_neutral : Extended.Related R .neutral .neutral :=
  ⟨hR.zero, hR.one, hR.one, hR.zero⟩

theorem precomputed_neutral : Precomputed.Related R .neutral .neutral :=
  ⟨hR.raise hR.one rfl, hR.raise hR.one rfl, hR.zero⟩

section conversions

theorem projective_toAffine {p : Projective F} {q : Projective G} (h : p.Related R q) :
    p.toAffine.Related R q.toAffine :=
  hR.factors.projective_toAffine (hR.raise h.x rfl) (hR.raise h.y rfl) (hR.raise h.z rfl)

theorem extended_toAffine {p : Extended F} {q : Extended G} (h : p.Related R q) :
    p.toAffine.Related R q.toAffine :=
  hR.projective_toAffine h.toProjective

theorem extended_toCached {p : Extended F} {q : Extended G} (h : p.Related R q) :
    p.toCached.Related R q.toCached :=
  ⟨hR.add' h.y h.x rfl rfl, hR.sub' h.y h.x rfl rfl, h.z, hR.mul h.t hR.twoD rfl rfl⟩

theorem extended_toPrecomputed {p : Extended F} {q : Extended G} (h : p.Related R q) :
    p.toPrecomputed.Related R q.toPrecomputed := by
  have hr := hR.invert h.z rfl
  have hx := hR.mul h.x hr rfl rfl
  have hy := hR.mul h.y hr rfl rfl
  have hxy := hR.mul hx hy rfl rfl
  exact ⟨hR.add' hy hx rfl rfl, hR.sub' hy hx rfl rfl, hR.mul hxy hR.twoD rfl rfl⟩

theorem completed_toExtended {p : Completed F} {q : Completed G} (h : p.Related R q) :
    p.toExtended.Related R q.toExtended :=
  hR.factors.completed_toExtended h.x h.y h.z h.t

theorem completed_toProjective {p : Completed F} {q : Completed G} (h : p.Related R q) :
    p.toProjective.Related R q.toProjective :=
  (hR.completed_toExtended h).toProjective

theorem precomputed_negate {p : Precomputed F} {q : Precomputed G} (h : p.Related R q) :
    p.negate.Related R q.negate :=
  ⟨h.yMinusX, h.yPlusX, hR.neg h.xy2d (by decide)⟩

end conversions

section addition

theorem projective_double {p : Projective F} {q : Projective G} (h : p.Related R q) :
    p.double.Related R q.double := by
  have hxx := hR.square h.x rfl
  have hyy := hR.square h.y rfl
  have hzz := hR.squareDouble h.z rfl
  have haa := hR.square (hR.add h.x h.y (by decide)) rfl
  have hsum := hR.add hyy hxx (by decide)
  have hdiff := hR.sub hyy hxx (by decide)
  exact ⟨hR.sub' haa hsum rfl rfl, hR.raise hsum rfl, hR.raise hdiff rfl,
    hR.sub' hzz hdiff rfl rfl⟩

variable {p : Extended F} {q : Extended G}

theorem extended_double (h : p.Related R q) : p.double.Related R q.double :=
  hR.projective_double h.toProjective

theorem extended_negate (h : p.Related R q) : p.negate.Related R q.negate :=
  ⟨hR.neg h.x (by decide), h.y, h.z, hR.neg h.t (by decide)⟩

/-- What the four additions and subtractions return, up to the order of the denominators. -/
lemma completed_sums {a b c d : F} {a' b' c' d' : G} (ha : R 1 a a') (hb : R 1 b b')
    (hc : R 1 c c') (hd : R 2 d d') : Completed.Related R ⟨a - b, a + b, d + c, d - c⟩
      ⟨a' - b', a' + b', d' + c', d' - c'⟩ :=
  ⟨hR.sub' ha hb rfl rfl, hR.add' ha hb rfl rfl, hR.add' hd hc rfl rfl, hR.sub' hd hc rfl rfl⟩

theorem extended_add (h : p.Related R q) {p' : Cached F} {q' : Cached G} (h' : p'.Related R q') :
    (p.add p').Related R (q.add q') := by
  have ha := hR.mul (hR.add h.y h.x (by decide)) h'.yPlusX rfl rfl
  have hb := hR.mul (hR.sub h.y h.x (by decide)) h'.yMinusX rfl rfl
  have hc := hR.mul h'.t2d h.t rfl rfl
  have hzz := hR.mul h.z h'.z rfl rfl
  have hd := hR.add hzz hzz (by decide)
  exact hR.completed_sums ha hb hc hd

theorem extended_subtract (h : p.Related R q) {p' : Cached F} {q' : Cached G}
    (h' : p'.Related R q') : (p.subtract p').Related R (q.subtract q') := by
  have ha := hR.mul (hR.add h.y h.x (by decide)) h'.yMinusX rfl rfl
  have hb := hR.mul (hR.sub h.y h.x (by decide)) h'.yPlusX rfl rfl
  have hc := hR.mul h'.t2d h.t rfl rfl
  have hzz := hR.mul h.z h'.z rfl rfl
  have hd := hR.add hzz hzz (by decide)
  obtain ⟨hx, hy, hz, ht⟩ := hR.completed_sums ha hb hc hd
  exact ⟨hx, hy, ht, hz⟩

theorem extended_addPrecomputed (h : p.Related R q) {p' : Precomputed F} {q' : Precomputed G}
    (h' : p'.Related R q') : (p.addPrecomputed p').Related R (q.addPrecomputed q') := by
  have ha := hR.mul (hR.add h.y h.x (by decide)) h'.yPlusX rfl rfl
  have hb := hR.mul (hR.sub h.y h.x (by decide)) h'.yMinusX rfl rfl
  have hc := hR.mul h'.xy2d h.t rfl rfl
  have hd := hR.add h.z h.z (by decide)
  exact hR.completed_sums ha hb hc hd

theorem extended_subtractPrecomputed (h : p.Related R q) {p' : Precomputed F}
    {q' : Precomputed G} (h' : p'.Related R q') :
    (p.subtractPrecomputed p').Related R (q.subtractPrecomputed q') := by
  have ha := hR.mul (hR.add h.y h.x (by decide)) h'.yMinusX rfl rfl
  have hb := hR.mul (hR.sub h.y h.x (by decide)) h'.yPlusX rfl rfl
  have hc := hR.mul h'.xy2d h.t rfl rfl
  have hd := hR.add h.z h.z (by decide)
  obtain ⟨hx, hy, hz, ht⟩ := hR.completed_sums ha hb hc hd
  exact ⟨hx, hy, ht, hz⟩

theorem extended_plus (h : p.Related R q) {p' : Extended F} {q' : Extended G}
    (h' : p'.Related R q') : (p.plus p').Related R (q.plus q') :=
  hR.completed_toExtended (hR.extended_add h (hR.extended_toCached h'))

end addition

theorem extended_agrees {p p' : Extended F} {q q' : Extended G} (h : p.Related R q)
    (h' : p'.Related R q') : p.agrees p' = q.agrees q' := by
  have hx := hR.congruent (hR.mul h.x h'.z rfl rfl) (hR.mul h'.x h.z rfl rfl) rfl rfl
  have hy := hR.congruent (hR.mul h.y h'.z rfl rfl) (hR.mul h'.y h.z rfl rfl) rfl rfl
  rw [Extended.agrees, Extended.agrees, hx, hy]

section compression

theorem affine_encode {p : Affine F} {q : Affine G} (h : p.Related R q) : p.encode = q.encode := by
  rw [Affine.encode, Affine.encode, hR.toBytes h.y rfl, hR.isNegative h.x rfl]

theorem projective_encode {p : Projective F} {q : Projective G} (h : p.Related R q) :
    p.encode = q.encode :=
  hR.affine_encode (hR.projective_toAffine h)

theorem affine_onCurve {p : Affine F} {q : Affine G} (h : p.Related R q) :
    p.onCurve = q.onCurve := by
  have hxx := hR.square h.x rfl
  have hyy := hR.square h.y rfl
  have hdxy := hR.mul (hR.mul hR.d hxx rfl rfl) hyy rfl rfl
  exact hR.congruent (hR.sub hyy hxx (by decide)) (hR.add hR.one hdxy (by decide)) rfl rfl

theorem projective_onCurve {p : Projective F} {q : Projective G} (h : p.Related R q) :
    p.onCurve = q.onCurve :=
  hR.affine_onCurve (hR.projective_toAffine h)

theorem extended_numerator (b : Bytes 32) :
    R 2 (Extended.numerator b) (Extended.numerator b) :=
  hR.sub (hR.square (hR.ofBytes b) rfl) hR.one (by decide)

theorem extended_denominator (b : Bytes 32) :
    R 2 (Extended.denominator b) (Extended.denominator b) :=
  hR.add (hR.mul (hR.square (hR.ofBytes b) rfl) hR.d rfl rfl) hR.one (by decide)

theorem extended_candidate (b : Bytes 32) :
    R 1 (Extended.candidate b) (Extended.candidate b) :=
  hR.sqrtRatio (hR.extended_numerator b) (hR.extended_denominator b) rfl rfl

theorem extended_defect (b : Bytes 32) : R 3 (Extended.defect b) (Extended.defect b) :=
  hR.sub (hR.mul (hR.square (hR.extended_candidate b) rfl) (hR.extended_denominator b) rfl rfl)
    (hR.extended_numerator b) (by decide)

theorem extended_negatedDefect (b : Bytes 32) :
    R 3 (Extended.negatedDefect b) (Extended.negatedDefect b) :=
  hR.add (hR.mul (hR.square (hR.extended_candidate b) rfl) (hR.extended_denominator b) rfl rfl)
    (hR.extended_numerator b) (by decide)

theorem extended_ofRoot (b : Bytes 32) {x : F} {y : G} (h : R 1 x y) :
    (Extended.ofRoot b x).Related R (Extended.ofRoot b y) := by
  have hsign : R 1 (if Coordinate.isNegative x != b.topBit then -x else x)
      (if Coordinate.isNegative y != b.topBit then -y else y) := by
    rw [hR.isNegative h rfl]
    split
    · exact hR.neg h (by decide)
    · exact h
  exact ⟨hsign, hR.ofBytes b, hR.one, hR.mul hsign (hR.ofBytes b) rfl rfl⟩

/-- Both fields decode the same encodings, to related points. -/
theorem extended_decode (b : Bytes 32) :
    Option.Rel (Extended.Related R) (Extended.decode? b) (Extended.decode? b) := by
  rw [Extended.decode?_eq, Extended.decode?_eq, hR.isNonZero (hR.extended_defect b) rfl,
    hR.isNonZero (hR.extended_negatedDefect b) rfl]
  split
  · split
    · exact .none
    · exact .some (hR.extended_ofRoot b (hR.mul (hR.extended_candidate b) hR.sqrtNegOne rfl rfl))
  · exact .some (hR.extended_ofRoot b (hR.extended_candidate b))

end compression

theorem extended_base : Extended.Related R .base .base := by
  have hx := hR.ofBytes basePointX
  have hy := hR.ofBytes basePointEncoded
  exact ⟨hx, hy, hR.one, hR.mul hx hy rfl rfl⟩

end Coordinate.Simulation
end Edwards25519
