import Edwards25519.Proofs.Word.Checked
import Mathlib.Algebra.BigOperators.Fin

/-! Relations between two runs of one program, lifted to vectors and carried through loops. -/
namespace Edwards25519

lemma foldl_add_eq_sum {n : ℕ} (t : Fin n → ℤ) (s : ℤ) :
    Fin.foldl n (fun s i => s + t i) s = s + ∑ i, t i := by
  induction n generalizing s with
  | zero => simp
  | succ n ih => rw [Fin.foldl_succ, ih (fun i => t i.succ), Fin.sum_univ_succ, add_assoc]

lemma get_eq_getElem {α : Type} {n : ℕ} (v : Vector α n) (i : Fin n) : v.get i = v[i.val] := rfl

/-- The vector with another entry at a place. -/
def place {α : Type} {n : ℕ} (v : Vector α n) (i : Fin n) (a : α) : Vector α n := v.set i a

lemma get_place {α : Type} {n : ℕ} (v : Vector α n) (i j : Fin n) (a : α) :
    (place v i a).get j = if i = j then a else v.get j := by
  refine (Vector.getElem_set i.isLt j.isLt).trans ?_
  simp only [Fin.val_inj]
  rfl

/-- The entries of two vectors are related place by place. -/
def Related {α β : Type} {n : ℕ} (R : α → β → Prop) (v : Vector α n) (w : Vector β n) : Prop :=
  ∀ i (h : i < n), R v[i] w[i]

namespace Related

variable {α β γ : Type} {n : ℕ} {R : α → β → Prop}

lemma fin {v : Vector α n} {w : Vector β n} (h : Related R v w) (i : Fin n) :
    R (v.get i) (w.get i) :=
  h i i.isLt

lemma ofFn {f : Fin n → α} {g : Fin n → β} (h : ∀ i, R (f i) (g i)) :
    Related R (Vector.ofFn f) (Vector.ofFn g) := by
  intro i hi
  rw [Vector.getElem_ofFn, Vector.getElem_ofFn]
  exact h _

lemma set {v : Vector α n} {w : Vector β n} (h : Related R v w) {i : ℕ} (hi : i < n) {a : α}
    {b : β} (hab : R a b) : Related R (v.set i a) (w.set i b) := by
  intro j hj
  rw [Vector.getElem_set, Vector.getElem_set]
  split
  · exact hab
  · exact h j hj

/-- An entry may be replaced by one that the entry of the other vector is related to as well. -/
lemma place {v : Vector α n} {w : Vector β n} (h : Related R v w) {i : Fin n} {b : β}
    (hb : R (v.get i) b) : Related R v (place w i b) := by
  intro j hj
  change R (v.get ⟨j, hj⟩) ((Edwards25519.place w i b).get ⟨j, hj⟩)
  rw [get_place]
  split
  case isTrue hij => exact hij ▸ hb
  case isFalse => exact h j hj

lemma map {α' β' : Type} {R' : α' → β' → Prop} {v : Vector α n} {w : Vector β n}
    (h : Related R v w) {f : α → α'} {g : β → β'} (hfg : ∀ {a b}, R a b → R' (f a) (g b)) :
    Related R' (v.map f) (w.map g) := by
  intro i hi
  rw [Vector.getElem_map, Vector.getElem_map]
  exact hfg (h i hi)

/-- Vectors that are related by a function are images of each other. -/
lemma eq_map {f : α → β} {v : Vector α n} {w : Vector β n}
    (h : Related (fun a b => f a = b) v w) : v.map f = w := by
  ext i hi
  rw [Vector.getElem_map]
  exact h i hi

lemma of_map (f : α → β) (v : Vector α n) : Related (fun a b => f a = b) v (v.map f) :=
  fun _ _ => (Vector.getElem_map _ _).symm

lemma map_eq_map {f : α → γ} {g : β → γ} {v : Vector α n} {w : Vector β n}
    (h : ∀ i, f (v.get i) = g (w.get i)) : v.map f = w.map g := by
  ext i hi
  rw [Vector.getElem_map, Vector.getElem_map]
  exact h ⟨i, hi⟩

/-- A relation between the states of two loops that every round keeps holds at the end. -/
lemma foldl_fin {f : α → Fin n → α} {g : β → Fin n → β}
    (hstep : ∀ i {a b}, R a b → R (f a i) (g b i)) {a : α} {b : β} (h : R a b) :
    R (Fin.foldl n f a) (Fin.foldl n g b) := by
  induction n generalizing a b with
  | zero => simpa using h
  | succ n ih =>
    rw [Fin.foldl_succ, Fin.foldl_succ]
    exact ih (fun i => hstep i.succ) (hstep 0 h)

lemma foldl_list {f : α → γ → α} {g : β → γ → β} (l : List γ)
    (hstep : ∀ c ∈ l, ∀ {a b}, R a b → R (f a c) (g b c)) {a : α} {b : β} (h : R a b) :
    R (l.foldl f a) (l.foldl g b) := by
  induction l generalizing a b with
  | nil => exact h
  | cons c l ih =>
    exact ih (fun d hd => hstep d (.tail c hd)) (hstep c (.head l) h)

end Related
end Edwards25519
