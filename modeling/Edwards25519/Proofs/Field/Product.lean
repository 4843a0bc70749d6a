import Edwards25519.Proofs.Field.Operand
import Edwards25519.Proofs.Field.TracedOperands

/-! The product of two operands is exact: its columns and all the carries after them fit in 64 bits, and its
limbs come back to 32 bits as they are. -/
namespace Edwards25519

namespace Limbs

open LimbArithmetic

/-- A carry chain is exact if the limbs that it ends with are within their bounds. -/
lemma exactRun_carryAll {chain : List (Fin 10)} {c : Limbs (Checked 64)} {v : Limbs Int64}
    {bound : Fin 10 → ℤ} (hcv : Related Stands c v) (hwithin : Within bound (carryAll chain c)) :
    ExactRun carry carry chain c v :=
  exactRun_of_allFit allFit_of_move (fun i _ _ h => carry_related simulation_int64 h i) hcv
    ⟨fun i => (hwithin i).1⟩

end Limbs

namespace FieldElement

open Limbs

variable {f g : FieldElement}

/-- A term of a column fits with the factors 2 and 19, in whichever order they are multiplied to it, and
with one more factor 2 in a square. -/
lemma IsOperand.inWord_mul_of_le (hf : f.IsOperand) (hg : g.IsOperand) (i j : Fin 10) {m : ℕ}
    (hm : m ≤ 76) : InWord 64 ((f.limbs.get i).toInt * (g.limbs.get j).toInt * m) := by
  have hbound : ∀ i j : Fin 10, 0 ≤ operandBound i ∧ 0 ≤ operandBound j ∧
      operandBound i * operandBound j * 76 < 2 ^ 63 := by decide
  obtain ⟨hpos, hposj, hlt⟩ := hbound i j
  have hfactor : |(m : ℤ)| ≤ 76 := by
    rw [abs_of_nonneg (Int.natCast_nonneg _)]
    exact_mod_cast hm
  have hterm : |(f.limbs.get i).toInt * (g.limbs.get j).toInt * m| ≤
      operandBound i * operandBound j * 76 := by
    rw [abs_mul, abs_mul]
    have hfactors := mul_le_mul (hf.le_operandBound i) (hg.le_operandBound j) (abs_nonneg _) hpos
    exact mul_le_mul hfactors hfactor (abs_nonneg _) (mul_nonneg hpos hposj)
  obtain ⟨hl, hu⟩ := abs_lt.mp (hterm.trans_lt hlt)
  exact ⟨hl.le, hu⟩

lemma IsOperand.inWord_mul (hf : f.IsOperand) (hg : g.IsOperand) (i j : Fin 10) (m : Fin 39) :
    InWord 64 ((f.limbs.get i).toInt * (g.limbs.get j).toInt * m) :=
  hf.inWord_mul_of_le hg i j (by omega)

/-- Limbs within the bound of a product come back to 32 bits as they are. -/
lemma toInt_narrow {c : Limbs (Checked 64)} {v : Limbs Int64} (hc : Within productBound c)
    (hcv : Related Stands c v) (i : Fin 10) : ((narrow v).limbs.get i).toInt = (v.get i).toInt := by
  have hlimb := (Traced.follows_narrow hc hcv).2 i
  rw [Traced.get_narrow] at hlimb
  exact hlimb.trans (hcv.fin i (hc i).1).symm

/-- The limbs of a product before they come back to 32 bits, in words and in checked integers. -/
lemma IsOperand.related_product (hf : f.IsOperand) (hg : g.IsOperand) :
    Within productBound (carryAll productChain
      (product (Traced.ofElement f).factor (Traced.ofElement g).factor)) ∧
    Related Stands (product (Traced.ofElement f).factor (Traced.ofElement g).factor)
      (product f.wide g.wide) :=
  ⟨within_product hf.followsFactor.1 hg.followsFactor.1,
    product_related LimbArithmetic.simulation_int64
      (Traced.stands_factor hf.followsFactor) (Traced.stands_factor hg.followsFactor)⟩

/-- The product of two operands stands for the product of the residues, and its limbs are carried. Nothing
on the way to it overflows, and nothing is cut off when the limbs come back to 32 bits. -/
theorem mul_exact (hf : f.IsOperand) (hg : g.IsOperand) :
    (f * g).residue = f.residue * g.residue ∧ (f * g).Carried ∧
    (∀ (i j : Fin 10) (m : Fin 39),
      InWord 64 ((f.limbs.get i).toInt * (g.limbs.get j).toInt * m)) ∧
    ExactRun carry carry productChain
      (product (Traced.ofElement f).factor (Traced.ofElement g).factor) (product f.wide g.wide) ∧
    ∀ i, ((f * g).limbs.get i).toInt =
      ((carryAll productChain (product f.wide g.wide)).get i).toInt := by
  have hproduct := factors_represents.mul hf.representsFactor hg.representsFactor
  obtain ⟨hcarried, hresidue⟩ := represents_one_iff.mp hproduct
  obtain ⟨hwithin, hstands⟩ := hf.related_product hg
  have hcarries := carryAll_related LimbArithmetic.simulation_int64 hstands productChain
  exact ⟨hresidue, hcarried, hf.inWord_mul hg, exactRun_carryAll hstands hwithin,
    toInt_narrow hwithin hcarries⟩

/-- All limbs may be as large as the bounds of an operand are. -/
theorem mul_exact_largest :
    let f := ofLimbs 110729625 55364812 110729625 55364812 110729625
      55364812 110729625 55364812 110729625 55364812
    f.IsOperand ∧ (f * f).residue = f.residue * f.residue ∧ (f * f).Carried := by
  intro f
  have hf : f.IsOperand := by
    have hlimb : ∀ i, 100 * |(f.limbs.get i).toInt| ≤ 165 * 2 ^ bits i := by decide
    exact hlimb
  obtain ⟨hresidue, hcarried, -⟩ := mul_exact hf hf
  exact ⟨hf, hresidue, hcarried⟩

end FieldElement
end Edwards25519
