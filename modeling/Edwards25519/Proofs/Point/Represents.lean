import Edwards25519.Proofs.Point.Base
import Edwards25519.Proofs.Point.Codec
import Edwards25519.Proofs.Point.Simulation

/-! Points whose coordinates are held in limbs stand for points of the curve. Decoding, adding and
encoding them is what the names say. -/
namespace Edwards25519

open FieldElement CurvePoint

/-- The residues of the coordinates are coordinates of the point. -/
def Projective.Represents (p : Projective FieldElement) (P : CurvePoint) : Prop :=
  ∃ q, p.Related FieldElement.Represents q ∧ q.Denotes P

@[inherit_doc Projective.Represents]
def Extended.Represents (p : Extended FieldElement) (P : CurvePoint) : Prop :=
  ∃ q, p.Related FieldElement.Represents q ∧ q.Denotes P

@[inherit_doc Projective.Represents]
def Completed.Represents (c : Completed FieldElement) (P : CurvePoint) : Prop :=
  ∃ q, c.Related FieldElement.Represents q ∧ q.Denotes P

theorem Projective.Represents.encode {p : Projective FieldElement} {P : CurvePoint}
    (h : p.Represents P) : p.encode = P.encode := by
  obtain ⟨q, hq, hP⟩ := h
  exact (simulation_represents.projective_encode hq).trans hP.encode

/-- What stands for a point of the curve passes the program's check. -/
theorem Projective.Represents.onCurve {p : Projective FieldElement} {P : CurvePoint}
    (h : p.Represents P) : p.onCurve = true := by
  obtain ⟨q, hq, hP⟩ := h
  exact (simulation_represents.projective_onCurve hq).trans hP.onCurve

section extended

variable {p : Extended FieldElement} {P : CurvePoint}

lemma Extended.Represents.toProjective (h : p.Represents P) : p.toProjective.Represents P := by
  obtain ⟨q, hq, hP⟩ := h
  exact ⟨_, hq.toProjective, hP.toProjective⟩

theorem Extended.Represents.encode (h : p.Represents P) : p.encode = P.encode :=
  h.toProjective.encode

theorem Extended.represents_neutral : (neutral : Extended FieldElement).Represents 0 :=
  ⟨neutral, simulation_represents.extended_neutral, denotes_neutral⟩

theorem Extended.represents_base : base.Represents CurvePoint.base :=
  ⟨base, simulation_represents.extended_base, denotes_base⟩

/-- What is decoded is a point that the encoding is read as. -/
theorem Extended.represents_of_decode {b : Bytes 32} (h : decode? b = some p) :
    ∃ P, Decodes b P ∧ p.Represents P := by
  have hrel := simulation_represents.extended_decode b
  rw [h] at hrel
  generalize hq : (decode? b : Option (Extended Residue)) = q? at hrel
  cases hrel with
  | some hrel =>
    obtain ⟨P, hb, hP⟩ := decode_sound hq
    exact ⟨P, hb, _, hrel, hP⟩

/-- Every encoding of a point is decoded. -/
theorem Extended.decode_of_decodes {b : Bytes 32} (h : Decodes b P) :
    ∃ p : Extended FieldElement, decode? b = some p ∧ p.Represents P := by
  have hrel := simulation_represents.extended_decode b
  obtain ⟨q, hq⟩ := decode_complete h
  obtain ⟨Q, hb, hQ⟩ := decode_sound hq
  obtain rfl := decodes_unique h hb
  rw [hq] at hrel
  generalize (decode? b : Option (Extended FieldElement)) = p? at hrel
  cases hrel with
  | some hrel => exact ⟨_, rfl, q, hrel, hQ⟩

end extended

section completed

variable {c : Completed FieldElement} {P : CurvePoint}

theorem Completed.Represents.toProjective (h : c.Represents P) : c.toProjective.Represents P := by
  obtain ⟨q, hq, hP⟩ := h
  exact ⟨_, simulation_represents.completed_toProjective hq, hP.toProjective⟩

theorem Completed.Represents.toExtended (h : c.Represents P) : c.toExtended.Represents P := by
  obtain ⟨q, hq, hP⟩ := h
  exact ⟨_, simulation_represents.completed_toExtended hq, hP.toExtended⟩

end completed

namespace Extended.Represents

variable {p q : Extended FieldElement} {P Q : CurvePoint}

theorem add (hp : p.Represents P) (hq : q.Represents Q) :
    (p.add q.toCached).Represents (P + Q) := by
  obtain ⟨r, hr, hP⟩ := hp
  obtain ⟨r', hr', hQ⟩ := hq
  exact ⟨_, simulation_represents.extended_add hr (simulation_represents.extended_toCached hr'),
    hP.add hQ.toCached⟩

theorem subtract (hp : p.Represents P) (hq : q.Represents Q) :
    (p.subtract q.toCached).Represents (P - Q) := by
  obtain ⟨r, hr, hP⟩ := hp
  obtain ⟨r', hr', hQ⟩ := hq
  exact ⟨_, simulation_represents.extended_subtract hr
    (simulation_represents.extended_toCached hr'), hP.subtract hQ.toCached⟩

theorem addPrecomputed (hp : p.Represents P) (hq : q.Represents Q) :
    (p.addPrecomputed q.toPrecomputed).Represents (P + Q) := by
  obtain ⟨r, hr, hP⟩ := hp
  obtain ⟨r', hr', hQ⟩ := hq
  exact ⟨_, simulation_represents.extended_addPrecomputed hr
    (simulation_represents.extended_toPrecomputed hr'), hP.addPrecomputed hQ.toPrecomputed⟩

theorem subtractPrecomputed (hp : p.Represents P) (hq : q.Represents Q) :
    (p.subtractPrecomputed q.toPrecomputed).Represents (P - Q) := by
  obtain ⟨r, hr, hP⟩ := hp
  obtain ⟨r', hr', hQ⟩ := hq
  exact ⟨_, simulation_represents.extended_subtractPrecomputed hr
    (simulation_represents.extended_toPrecomputed hr'), hP.subtractPrecomputed hQ.toPrecomputed⟩

theorem double (hp : p.Represents P) : p.double.Represents (P + P) := by
  obtain ⟨r, hr, hP⟩ := hp
  exact ⟨_, simulation_represents.extended_double hr, hP.double⟩

theorem negate (hp : p.Represents P) : p.negate.Represents (-P) := by
  obtain ⟨r, hr, hP⟩ := hp
  exact ⟨_, simulation_represents.extended_negate hr, hP.negate⟩

theorem agrees_iff (hp : p.Represents P) (hq : q.Represents Q) : p.agrees q = true ↔ P = Q := by
  obtain ⟨r, hr, hP⟩ := hp
  obtain ⟨r', hr', hQ⟩ := hq
  rw [simulation_represents.extended_agrees hr hr', hP.agrees_iff hQ]

theorem plus (hp : p.Represents P) (hq : q.Represents Q) : (p.plus q).Represents (P + Q) :=
  (hp.add hq).toExtended

end Extended.Represents

end Edwards25519
