import Edwards25519.Proofs.Multiple.Exactness

/-! What stands in the tables of a point, place by place: prepared multiples, for points of any order.
A digit picks a multiple of a row out of them, and picks the neutral point if it is out of range. -/
namespace Edwards25519

lemma Precomputed.Related.residues_eq {p : Precomputed FieldElement} {q : Precomputed Residue}
    (h : p.Related FieldElement.Represents q) : p.residues = q := by
  rw [residues, h.yPlusX.residue_eq, h.yMinusX.residue_eq, h.xy2d.residue_eq]

/-- Digits out of range take no entry of the row, and the negative of the neutral point is neutral. -/
lemma FixedBaseTable.denotes_selectFrom_of_not {entries : Vector (Precomputed Residue) 8}
    {digit : Int8} (h : ¬ (-8 ≤ digit.toInt ∧ digit.toInt ≤ 8)) :
    (selectFrom entries digit).Denotes 0 := by
  have hplace : ¬ (1 ≤ digit.toInt.natAbs ∧ digit.toInt.natAbs ≤ 8) := by omega
  rw [selectFrom_eq]
  dsimp only
  rw [dif_neg hplace]
  split_ifs
  · exact neg_zero (G := CurvePoint) ▸ Precomputed.denotes_neutral.negate
  · exact Precomputed.denotes_neutral

section represents

variable {p : Extended FieldElement} {P : CurvePoint}

namespace FixedBaseTable

lemma represents_entry (h : p.Represents P) (i : Fin 32) (j : Fin 8) :
    (((ofPoint p).get i).get j).residues.Denotes (((j.val + 1) * 256 ^ i.val) • P) := by
  obtain ⟨q, hq, hP⟩ := h
  have hrow := (FieldElement.simulation_represents.fixedBaseTable hq).fin i
  rw [(hrow.fin j).residues_eq, mul_nsmul']
  exact tableOf_ofPoint hP i j

lemma represents_selectFrom (h : p.Represents P) (i : Fin 32) (digit : Int8) :
    (selectFrom ((ofPoint p).get i) digit).residues.Denotes
      (if -8 ≤ digit.toInt ∧ digit.toInt ≤ 8 then (digit.toInt * 256 ^ i.val) • P else 0) := by
  obtain ⟨q, hq, hP⟩ := h
  have hrow := (FieldElement.simulation_represents.fixedBaseTable hq).fin i
  rw [(FieldElement.simulation_represents.selectFrom hrow digit).residues_eq]
  split_ifs with hbounds
  · rw [digit_zsmul]
    exact denotes_selectFrom (tableOf_ofPoint hP i) hbounds
  · exact denotes_selectFrom_of_not hbounds

end FixedBaseTable

lemma OddMultiples.represents_entry (h : p.Represents P) (j : Fin 8) :
    ((ofPoint p).get j).residues.Denotes ((2 * j.val + 1) • P) := by
  obtain ⟨q, hq, hP⟩ := h
  rw [((FieldElement.simulation_represents.oddMultiples hq).fin j).residues_eq]
  exact tableOf_ofPoint hP j

end represents

namespace TabledPoint

/-- The tables hold the multiples that they are meant to hold, and a digit between -8 and 8 selects the
multiple by it. Other digits select the neutral point. -/
theorem entries_exact {p : TabledPoint FieldElement} (hp : p.Coherent) (h : p.point.Valid) :
    (∀ (i : Fin 32) (j : Fin 8), ((p.fixedBase.value.1.get i).get j).residues.Denotes
      (((j.val + 1) * 256 ^ i.val) • h.point)) ∧
    (∀ j : Fin 8, (p.oddMultiples.value.1.get j).residues.Denotes ((2 * j.val + 1) • h.point)) ∧
    ∀ (i : Fin 32) (digit : Int8),
      (FixedBaseTable.selectFrom (p.fixedBase.value.1.get i) digit).residues.Denotes
        (if -8 ≤ digit.toInt ∧ digit.toInt ≤ 8 then (digit.toInt * 256 ^ i.val) • h.point else 0) := by
  rw [hp.value_fixedBase, hp.value_oddMultiples]
  exact ⟨FixedBaseTable.represents_entry h.represents, OddMultiples.represents_entry h.represents,
    FixedBaseTable.represents_selectFrom h.represents⟩

/-- The base point with its tables, and a point of order 4: all entries of its rows but the first are
neutral. -/
theorem entries_exact_ofOrderFour :
    (FixedBaseTable.selectFrom (basePoint.fixedBase.value.1.get 31) (-8)).residues.Denotes
      ((-8 * 256 ^ 31 : ℤ) • CurvePoint.base) ∧
    (FixedBaseTable.selectFrom (basePoint.fixedBase.value.1.get 31) (-9)).residues.Denotes 0 ∧
    ∃ p : Extended FieldElement, (∃ h : p.Valid, h.point = CurvePoint.ofOrderFour) ∧
      (∀ (i : Fin 32) (j : Fin 8), i ≠ 0 →
        (((ofPoint p).fixedBase.value.1.get i).get j).residues.Denotes 0) ∧
      (((ofPoint p).oddMultiples.value.1.get 1).residues.Denotes (3 • CurvePoint.ofOrderFour)) := by
  have hrepresents : basePoint.point.Represents CurvePoint.base := Extended.represents_base
  obtain ⟨hbase, hpoint⟩ := Extended.represents_iff.mp hrepresents
  obtain ⟨-, -, hselect⟩ := entries_exact coherent_basePoint hbase
  obtain ⟨p, -, hrepresents⟩ := Extended.decode_of_decodes CurvePoint.decodes_ofOrderFour
  obtain ⟨hvalid, hfour⟩ := Extended.represents_iff.mp hrepresents
  obtain ⟨hentry, hodd, -⟩ := entries_exact (coherent_ofPoint p) hvalid
  rw [hpoint] at hselect
  refine ⟨hselect 31 (-8), hselect 31 (-9), p, ⟨hvalid, hfour⟩, fun i j hi => ?_, hfour ▸ hodd 1⟩
  have hzero : ((j.val + 1) * 256 ^ i.val) • CurvePoint.ofOrderFour = 0 := by
    obtain ⟨k, hk⟩ : 8 ∣ (j.val + 1) * 256 ^ i.val :=
      ((by decide : 8 ∣ 256).trans (dvd_pow_self 256 (Fin.val_ne_zero_iff.mpr hi))).mul_left _
    rw [hk, mul_nsmul, CurvePoint.eight_nsmul_ofOrderFour, nsmul_zero]
  rw [← hzero, ← hfour]
  exact hentry i j

end TabledPoint
end Edwards25519
