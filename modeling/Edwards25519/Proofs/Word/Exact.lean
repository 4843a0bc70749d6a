import Edwards25519.Proofs.Word.Related
import Mathlib.Data.List.Infix

/-! Runs on words beside runs on checked integers. A step that computes new entries from old ones does not
forget that an old entry did not fit, so a run whose last entries fit was exact all along. -/
namespace Edwards25519

/-- The word stands for the checked integer, and this one and all it was computed from fit. -/
structure Exact (c : Checked 64) (x : Int64) : Prop where
  fits : c.fits
  toInt : x.toInt = c.value

/-- At every point of a run the words are the checked integers, which fit. -/
def ExactRun {n : ℕ} {ι : Type} (f : Vector (Checked 64) n → ι → Vector (Checked 64) n)
    (g : Vector Int64 n → ι → Vector Int64 n) (steps : List ι) (c : Vector (Checked 64) n)
    (v : Vector Int64 n) : Prop :=
  ∀ l, l <+: steps → Related Exact (l.foldl f c) (l.foldl g v)

lemma Related.exact {n : ℕ} {c : Vector (Checked 64) n} {v : Vector Int64 n}
    (h : Related Stands c v) (hfits : ∀ i, (c.get i).fits) : Related Exact c v :=
  fun i hi => ⟨hfits ⟨i, hi⟩, h i hi (hfits ⟨i, hi⟩)⟩

lemma Related.map_toInt {n : ℕ} {c : Vector (Checked 64) n} {v : Vector Int64 n}
    (h : Related Exact c v) : v.map Int64.toInt = c.map Checked.value :=
  Related.map_eq_map fun i => (h.fin i).toInt

/-- What every step remembers of the state before it holds before a whole run. -/
lemma of_foldl {σ ι : Type} {P : σ → Prop} {f : σ → ι → σ} (hback : ∀ s i, P (f s i) → P s)
    (l : List ι) {s : σ} (h : P (l.foldl f s)) : P s := by
  induction l generalizing s with
  | nil => exact h
  | cons i l ih => exact hback s i (ih h)

section fits

variable {w n : ℕ} {v : Vector (Checked w) n}

/-- An entry may be replaced by one that was computed from it. -/
lemma fits_of_place {i : Fin n} {c : Checked w} (hc : c.fits → (v.get i).fits)
    (h : ∀ j, ((place v i c).get j).fits) (j : Fin n) : (v.get j).fits := by
  have hj := h j
  rw [get_place] at hj
  split_ifs at hj with hij
  · exact hij ▸ hc hj
  · exact hj

/-- A loop that adds to one entry in each round remembers this entry and all that was added to it. -/
lemma fits_of_adds {m : ℕ} {slot : Fin m → Fin n} {t : Fin m → Checked w} {j : Fin n}
    (h : ((Fin.foldl m (fun v k => place v (slot k) (v.get (slot k) + t k)) v).get j).fits) :
    (v.get j).fits ∧ ∀ k, slot k = j → (t k).fits := by
  induction m with
  | zero => exact ⟨by simpa using h, fun k => k.elim0⟩
  | succ m ih =>
    rw [Fin.foldl_succ_last, get_place] at h
    split_ifs at h with hj
    · subst hj
      obtain ⟨hfits, hrest⟩ := ih h.1
      exact ⟨hfits, Fin.lastCases (fun _ => h.2.1) hrest⟩
    · obtain ⟨hfits, hrest⟩ := ih h
      exact ⟨hfits, Fin.lastCases (fun hlast => absurd hlast hj) hrest⟩

end fits

section run

variable {n : ℕ} {ι : Type} {f : Vector (Checked 64) n → ι → Vector (Checked 64) n}
variable {g : Vector Int64 n → ι → Vector Int64 n}

/-- A run is exact if its last entries fit, no step forgets, and words stand for what fits. -/
theorem exactRun_of_fits (hback : ∀ c i, (∀ k, ((f c i).get k).fits) → ∀ k, (c.get k).fits)
    (hstep : ∀ i {c v}, Related Stands c v → Related Stands (f c i) (g v i)) {steps : List ι}
    {c : Vector (Checked 64) n} {v : Vector Int64 n} (hcv : Related Stands c v)
    (hfits : ∀ k, ((steps.foldl f c).get k).fits) : ExactRun f g steps c v := by
  rintro l ⟨rest, rfl⟩
  rw [List.foldl_append] at hfits
  have hl : ∀ k, ((l.foldl f c).get k).fits :=
    of_foldl (P := fun c : Vector (Checked 64) n => ∀ k, (c.get k).fits) hback rest hfits
  have hstands := Related.foldl_list l (fun i _ _ _ h => hstep i h) hcv
  exact hstands.exact hl

end run

end Edwards25519
