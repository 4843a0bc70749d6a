import Edwards25519.Multiple.TabledPoint
import Edwards25519.Proofs.Multiple.FixedBase
import Edwards25519.Proofs.Multiple.OddMultiples
import Edwards25519.Proofs.Point.Represents

/-! Multiples by tables whose entries are held in limbs. -/
namespace Edwards25519

open FieldElement

section extended

variable {p : Extended FieldElement} {P : CurvePoint}

theorem FixedBaseTable.represents_multiply (h : p.Represents P) (s : Encoded) :
    ((ofPoint p).multiply s).Represents (s.toRecodable.toNat • P) := by
  obtain ⟨q, hq, hP⟩ := h
  exact ⟨_, simulation_represents.multiply (simulation_represents.fixedBaseTable hq) s,
    denotes_multiply (tableOf_ofPoint hP) s⟩

/-- A scalar below `2 ^ 255` is not reduced. -/
theorem FixedBaseTable.represents_multiply_short (h : p.Represents P) {b : Bytes 32}
    (hb : b.toNat < 2 ^ 255) : ((ofPoint p).multiply (.short b)).Represents (b.toNat • P) := by
  have hmultiply := represents_multiply h (.short b)
  rwa [Encoded.toRecodable_short hb] at hmultiply

/-- The multiples of the base point. -/
theorem FixedBaseTable.represents_baseTable {b : Bytes 32} (hb : b.toNat < 2 ^ 255) :
    (baseTable.multiply (.short b)).Represents (b.toNat • CurvePoint.base) :=
  represents_multiply_short Extended.represents_base hb

/-- The multiple of one point less the multiple of another one. -/
theorem OddMultiples.represents_combine {q : Extended FieldElement} {Q : CurvePoint}
    (hp : p.Represents P) (hq : q.Represents Q) {a b : Bytes 32} (ha : a.toNat ≤ 2 ^ 255)
    (hb : b.toNat ≤ 2 ^ 255) :
    (combine (ofPoint p) (ofPoint q) a b).Represents (b.toNat • P - a.toNat • Q) := by
  obtain ⟨r, hr, hP⟩ := hp
  obtain ⟨r', hr', hQ⟩ := hq
  exact ⟨_, simulation_represents.combine (simulation_represents.oddMultiples hr)
    (simulation_represents.oddMultiples hr') a b,
    denotes_combine (tableOf_ofPoint hP) (tableOf_ofPoint hQ) ha hb⟩

end extended

namespace TabledPoint

variable {F : Type} [Coordinate F] (p : Extended F)

/-- The table is built as it is needed. -/
@[simp] lemma multiply_ofPoint (s : Encoded) :
    ((ofPoint p).multiply s).value.1 = (FixedBaseTable.ofPoint p).multiply s := rfl

end TabledPoint

end Edwards25519
