import Edwards25519.Proofs.Field.Traced
import Edwards25519.Proofs.Word.Exact

/-! A trace forgets nothing. Where all limbs of a product fit, the limbs of its factors fit too and were
within the bound of an operand, and where those of a sum fit, the limbs of its terms do. -/
namespace Edwards25519

/-- A loop whose every round remembers whether the one before fits. -/
lemma Checked.fits_of_foldl {w n : ℕ} {f : Checked w → Fin n → Checked w}
    (hf : ∀ c i, (f c i).fits → c.fits) {c : Checked w} (h : (Fin.foldl n f c).fits) :
    c.fits ∧ ∀ i, ∃ c', (f c' i).fits := by
  induction n generalizing c with
  | zero => exact ⟨h, fun i => i.elim0⟩
  | succ n ih =>
    rw [Fin.foldl_succ] at h
    obtain ⟨hfirst, hrest⟩ := ih (fun c i => hf c i.succ) h
    exact ⟨hf c 0 hfirst, Fin.cases ⟨c, hfirst⟩ hrest⟩

namespace Limbs

open LimbArithmetic

variable {w : ℕ} {f g h : Limbs (Checked w)}

structure AllFit (h : Limbs (Checked w)) : Prop where
  limb : ∀ i, (h.get i).fits

lemma AllFit.exact {c : Limbs (Checked 64)} {v : Limbs Int64} (h : AllFit c)
    (hcv : Related Stands c v) : Related Exact c v := hcv.exact h.limb

lemma allFit_of_place {i : Fin 10} {c : Checked w} (hc : c.fits → (h.get i).fits)
    (hplace : AllFit (place h i c)) : AllFit h :=
  ⟨fits_of_place hc hplace.limb⟩

lemma allFit_of_move {i : Fin 10} {c : Checked w} (hmove : AllFit (move h i c)) : AllFit h :=
  allFit_of_place And.left (allFit_of_place And.left hmove)

lemma allFit_of_carryAll {chain : List (Fin 10)} (hchain : AllFit (carryAll chain h)) :
    AllFit h := by
  induction chain generalizing h with
  | nil => exact hchain
  | cons i chain ih => exact allFit_of_move (ih hchain)

/-- A run of carries is exact if all limbs fit at its end. -/
lemma exactRun_of_allFit {step : Limbs (Checked 64) → Fin 10 → Limbs (Checked 64)}
    {step' : Limbs Int64 → Fin 10 → Limbs Int64} (hback : ∀ {c i}, AllFit (step c i) → AllFit c)
    (hstep : ∀ i {c v}, Related Stands c v → Related Stands (step c i) (step' v i))
    {chain : List (Fin 10)} {c : Limbs (Checked 64)} {v : Limbs Int64} (hcv : Related Stands c v)
    (h : AllFit (chain.foldl step c)) : ExactRun step step' chain c v :=
  exactRun_of_fits (fun _ _ h => (hback ⟨h⟩).limb) hstep hcv h.limb

/-- The first column has every limb of both factors in it. -/
lemma allFit_of_product (hproduct : AllFit (product f g)) : AllFit f ∧ AllFit g := by
  have hcolumn : (productColumn f g 0).fits := by
    have h0 := hproduct.limb 0
    rwa [product, get_eq_getElem, Vector.getElem_ofFn] at h0
  have hterm : ∀ i, (f.get i).fits ∧ (g.get (0 - i)).fits := by
    intro i
    obtain ⟨c, -, ⟨⟨hf, hg, -⟩, -⟩, -⟩ := (Checked.fits_of_foldl (fun _ _ => And.left) hcolumn).2 i
    exact ⟨hf, hg⟩
  have hindex : ∀ i : Fin 10, 0 - (0 - i) = i := by decide
  refine ⟨⟨fun i => (hterm i).1⟩, ⟨fun i => ?_⟩⟩
  obtain ⟨j, rfl⟩ : ∃ j, 0 - j = i := ⟨0 - i, hindex i⟩
  exact (hterm j).2

/-- The square of a limb is in the column of twice its place. -/
lemma allFit_of_square (hsquare : AllFit (square f)) : AllFit f := by
  refine ⟨fun i => ?_⟩
  have hcolumn : (squareColumn f (i + i)).fits := by
    have hi := hsquare.limb (i + i)
    rwa [square, get_eq_getElem, Vector.getElem_ofFn] at hi
  have hround : ∀ (c : Checked w) (j : Fin 10), (if j ≤ i + i - j then
      c + f.get j * f.get (i + i - j) *
        (((if j = i + i - j then 1 else 2) * weight j (i + i - j) : ℤ) : _)
      else c).fits → c.fits := by
    intro c j
    split
    · exact And.left
    · exact id
  have hindex : ∀ i : Fin 10, i ≤ i + i - i := by decide
  obtain ⟨c, hc⟩ := (Checked.fits_of_foldl hround hcolumn).2 i
  rw [if_pos (hindex i)] at hc
  exact hc.2.1.1.1

lemma allFit_of_double (hdouble : AllFit (double h)) : AllFit h := by
  refine ⟨fun i => ?_⟩
  have hi := hdouble.limb i
  rw [double, get_eq_getElem, Vector.getElem_map] at hi
  exact hi.1

end Limbs

namespace Traced

variable {f g : Traced}

/-- All that led to the element fits. -/
def Fits (f : Traced) : Prop := Limbs.AllFit f.limbs

/-- The limbs fit and are within 1.65 times their width. -/
def IsOperand (f : Traced) : Prop :=
  ∀ i, (f.limbs.get i).fits ∧ 100 * |(f.limbs.get i).value| ≤ 165 * 2 ^ Limbs.bits i

lemma isOperand_of_factor (h : Limbs.AllFit f.factor) : f.IsOperand := by
  intro i
  have hi := h.limb i
  rw [get_factor] at hi
  obtain ⟨hfits, hle⟩ := hi
  unfold Limbs.operandBound at hle
  exact ⟨hfits, by omega⟩

lemma allFit_of_narrow {h : Limbs (Checked 64)} (hnarrow : (narrow h).Fits) : Limbs.AllFit h := by
  refine ⟨fun i => ?_⟩
  have hi := hnarrow.limb i
  rw [narrow, get_eq_getElem, Vector.getElem_map] at hi
  exact hi.1

theorem isOperand_of_mul (h : (f * g).Fits) : f.IsOperand ∧ g.IsOperand := by
  have hchain : Limbs.AllFit (Limbs.carryAll Limbs.productChain (Limbs.product f.factor g.factor)) :=
    allFit_of_narrow h
  obtain ⟨hf, hg⟩ := Limbs.allFit_of_product (Limbs.allFit_of_carryAll hchain)
  exact ⟨isOperand_of_factor hf, isOperand_of_factor hg⟩

theorem isOperand_of_square (h : (Coordinate.square f).Fits) : f.IsOperand := by
  have hchain : Limbs.AllFit (Limbs.carryAll Limbs.productChain (Limbs.square f.factor)) :=
    allFit_of_narrow h
  exact isOperand_of_factor (Limbs.allFit_of_square (Limbs.allFit_of_carryAll hchain))

theorem isOperand_of_squareDouble (h : (Coordinate.squareDouble f).Fits) : f.IsOperand := by
  have hchain : Limbs.AllFit
      (Limbs.carryAll Limbs.productChain (Limbs.double (Limbs.square f.factor))) :=
    allFit_of_narrow h
  exact isOperand_of_factor
    (Limbs.allFit_of_square (Limbs.allFit_of_double (Limbs.allFit_of_carryAll hchain)))

end Traced
end Edwards25519
