import Edwards25519.Proofs.Field.Product

/-! Squares beside products. A square takes each pair of different limbs once and doubles it, and its columns
are those of the product of the element with itself. Twice a square is carried after the doubling, which
takes the columns as near to the end of a word as they come. -/
namespace Edwards25519.FieldElement

open Limbs LimbArithmetic

variable {f : FieldElement}

/-- What a carry chain brings into bounds fitted before it. -/
lemma allFit_of_within {chain : List (Fin 10)} {c : Limbs (Checked 64)} {bound : Fin 10 → ℤ}
    (hwithin : Within bound (carryAll chain c)) : AllFit c := by
  have hchain : AllFit (carryAll chain c) := ⟨fun i => (hwithin i).1⟩
  exact allFit_of_carryAll hchain

/-- The limbs of a square before they come back to 32 bits, in words and in checked integers. -/
lemma IsOperand.related_square (hf : f.IsOperand) :
    Within productBound (carryAll productChain (Limbs.square (Traced.ofElement f).factor)) ∧
    Related Stands (Limbs.square (Traced.ofElement f).factor) (Limbs.square f.wide) :=
  ⟨within_square hf.followsFactor.1,
    square_related simulation_int64 (Traced.stands_factor hf.followsFactor)⟩

/-- The limbs of twice a square before they come back to 32 bits, in words and in checked integers. -/
lemma IsOperand.related_squareDouble (hf : f.IsOperand) :
    Within productBound (carryAll productChain (double (Limbs.square (Traced.ofElement f).factor))) ∧
    Related Stands (double (Limbs.square (Traced.ofElement f).factor))
      (double (Limbs.square f.wide)) :=
  ⟨within_squareDouble hf.followsFactor.1, double_related simulation_int64 hf.related_square.2⟩

/-- The columns of a square and of a product are the same integers, and so the same words. -/
lemma IsOperand.square_wide (hf : f.IsOperand) : Limbs.square f.wide = product f.wide f.wide := by
  obtain ⟨hsquareWithin, hsquare⟩ := hf.related_square
  obtain ⟨hproductWithin, hproduct⟩ := hf.related_product hf
  have hvalues : Traced.values (Limbs.square (Traced.ofElement f).factor) =
      Traced.values (product (Traced.ofElement f).factor (Traced.ofElement f).factor) := by
    rw [Traced.values_square, Traced.values_product, square_eq_product]
  have hints : (Limbs.square f.wide).map Int64.toInt = (product f.wide f.wide).map Int64.toInt := by
    rw [((allFit_of_within hsquareWithin).exact hsquare).map_toInt,
      ((allFit_of_within hproductWithin).exact hproduct).map_toInt]
    exact hvalues
  exact (Vector.map_inj_right fun _ _ => Int64.toInt_inj.mp).mp hints

/-- The square of an operand has the limbs of its product with itself. Twice the square stands for twice the
square of the residue, and its limbs are carried. Nothing on the way to either overflows. -/
theorem square_agrees (hf : f.IsOperand) :
    Coordinate.square f = f * f ∧
    (Coordinate.squareDouble f).residue = 2 * f.residue ^ 2 ∧ (Coordinate.squareDouble f).Carried ∧
    (∀ (i j : Fin 10) (m : Fin 77),
      InWord 64 ((f.limbs.get i).toInt * (f.limbs.get j).toInt * m)) ∧
    ExactRun carry carry productChain (Limbs.square (Traced.ofElement f).factor)
      (Limbs.square f.wide) ∧
    ExactRun carry carry productChain (double (Limbs.square (Traced.ofElement f).factor))
      (double (Limbs.square f.wide)) ∧
    ∀ i, ((Coordinate.squareDouble f).limbs.get i).toInt =
      ((carryAll productChain (double (Limbs.square f.wide))).get i).toInt := by
  have hdouble := factors_represents.squareDouble hf.representsFactor
  obtain ⟨hcarried, hresidue⟩ := represents_one_iff.mp hdouble
  obtain ⟨hwithin, hstands⟩ := hf.related_squareDouble
  have hcarries := carryAll_related simulation_int64 hstands productChain
  have hsquare : Coordinate.square f = f * f :=
    congrArg (fun h => narrow (carryAll productChain h)) hf.square_wide
  have hpow : (Coordinate.squareDouble f).residue = 2 * f.residue ^ 2 := by
    rw [hresidue, pow_two]
    rfl
  exact ⟨hsquare, hpow, hcarried, fun i j m => hf.inWord_mul_of_le hf i j (by omega),
    exactRun_carryAll hf.related_square.2 hf.related_square.1, exactRun_carryAll hstands hwithin,
    toInt_narrow hwithin hcarries⟩

/-- The largest limbs of an operand, of both signs. -/
theorem square_agrees_largest :
    let f := ofLimbs 110729625 (-55364812) 110729625 (-55364812) 110729625
      (-55364812) 110729625 (-55364812) 110729625 (-55364812)
    f.IsOperand ∧ Coordinate.square f = f * f ∧
    (Coordinate.squareDouble f).residue = 2 * f.residue ^ 2 ∧
    (Coordinate.squareDouble f).Carried := by
  intro f
  have hf : f.IsOperand := by
    have hlimb : ∀ i, 100 * |(f.limbs.get i).toInt| ≤ 165 * 2 ^ bits i := by decide
    exact hlimb
  obtain ⟨hsquare, hresidue, hcarried, -⟩ := square_agrees hf
  exact ⟨hf, hsquare, hresidue, hcarried⟩

end Edwards25519.FieldElement
