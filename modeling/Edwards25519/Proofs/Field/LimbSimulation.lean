import Edwards25519.Field.Limbs
import Edwards25519.Proofs.Word.Related

/-! A relation between two carriers that the operations keep is kept by every algorithm on limbs. -/
namespace Edwards25519

open LimbArithmetic

variable {α β : Type} [LimbArithmetic α] [LimbArithmetic β] {R : α → β → Prop}

namespace Limbs

variable {h : Limbs α} {h' : Limbs β} {f g : Limbs α} {f' g' : Limbs β}

theorem move_related (hR : Simulation R) (hh : Related R h h') (i : Fin 10) {c : α} {c' : β}
    (hc : R c c') : Related R (move h i c) (move h' i c') := by
  have hi := hh.set i.isLt (hR.sub (hh.fin i) (hR.shiftLeft (bits i) hc))
  refine hi.set (i + 1).isLt (hR.add (hi.fin (i + 1)) ?_)
  split
  · exact hR.mul hc (hR.intCast 19)
  · exact hc

theorem carry_related (hR : Simulation R) (hh : Related R h h') (i : Fin 10) :
    Related R (carry h i) (carry h' i) :=
  move_related hR hh i (hR.shiftRightRounded (bits i) (hh.fin i))

theorem carryAll_related (hR : Simulation R) (hh : Related R h h') (chain : List (Fin 10)) :
    Related R (carryAll chain h) (carryAll chain h') :=
  Related.foldl_list (R := Related R) chain (fun i _ _ _ hab => carry_related hR hab i) hh

theorem product_related (hR : Simulation R) (hf : Related R f f') (hg : Related R g g') :
    Related R (product f g) (product f' g') :=
  Related.ofFn fun k => Related.foldl_fin
    (fun i _ _ hs =>
      hR.add hs (hR.mul (hR.mul (hf.fin i) (hg.fin (k - i))) (hR.intCast (weight i (k - i)))))
    (hR.intCast 0)

theorem square_related (hR : Simulation R) (hf : Related R f f') :
    Related R (square f) (square f') := by
  refine Related.ofFn fun k => Related.foldl_fin (fun i a b hs => ?_) (hR.intCast 0)
  dsimp only
  split
  · exact hR.add hs (hR.mul (hR.mul (hf.fin i) (hf.fin (k - i))) (hR.intCast _))
  · exact hs

theorem double_related (hR : Simulation R) (hh : Related R h h') :
    Related R (double h) (double h') :=
  hh.map (hR.shiftLeft 1)

theorem quotient_related (hR : Simulation R) (hh : Related R h h') : R (quotient h) (quotient h') :=
  Related.foldl_fin (fun i _ _ hq => hR.shiftRight (bits i) (hR.add (hh.fin i) hq))
    (hR.shiftRightRounded 25 (hR.mul (hR.intCast 19) (hh.fin 9)))

theorem carryFloor_related (hR : Simulation R) (hh : Related R h h') (i : Fin 10) :
    Related R (carryFloor h i) (carryFloor h' i) :=
  move_related hR hh i (hR.shiftRight (bits i) (hh.fin i))

theorem canonicalBy_related (hR : Simulation R) {carry : Limbs α → Fin 10 → Limbs α}
    {carry' : Limbs β → Fin 10 → Limbs β}
    (hcarry : ∀ {a b}, Related R a b → ∀ i, Related R (carry a i) (carry' b i))
    {drop : α → α} {drop' : β → β} (hdrop : ∀ {x y}, R x y → R (drop x) (drop' y))
    (hh : Related R h h') : Related R (canonicalBy carry drop h) (canonicalBy carry' drop' h') := by
  have hq := quotient_related hR hh
  have h0 := hh.set (show 0 < 10 by decide) (hR.add (hh.fin 0) (hR.mul (hR.intCast 19) hq))
  have h9 := Related.foldl_list (R := Related R) ([0, 1, 2, 3, 4, 5, 6, 7, 8] : List (Fin 10))
    (fun i _ _ _ hab => hcarry hab i) h0
  exact h9.set (show 9 < 10 by decide) (hdrop (h9.fin 9))

theorem canonical_related (hR : Simulation R) (hh : Related R h h') :
    Related R (canonical h) (canonical h') :=
  canonicalBy_related hR (carryFloor_related hR)
    (fun h9 => hR.sub h9 (hR.shiftLeft 25 (hR.shiftRight 25 h9))) hh

end Limbs
end Edwards25519
