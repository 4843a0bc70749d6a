import Edwards25519.Multiple.Workspace
import Mathlib.Data.List.Basic

/-! Points whose tables are their own: a table that is present is the one of the point's own coordinates.
Building another table keeps it so, and keeps the tables that are there. -/
namespace Edwards25519

variable {F : Type}

namespace TabledPoint

/-- The same point with at least the same tables. -/
structure Extends (q p : TabledPoint F) : Prop where
  point : q.point = p.point
  fixedBase : ∀ t, p.fixedBase? = some t → q.fixedBase? = some t
  oddMultiples : ∀ t, p.oddMultiples? = some t → q.oddMultiples? = some t

lemma Extends.refl (p : TabledPoint F) : p.Extends p := ⟨rfl, fun _ => id, fun _ => id⟩

lemma Extends.trans {p q r : TabledPoint F} (hr : r.Extends q) (hq : q.Extends p) : r.Extends p :=
  ⟨hr.point.trans hq.point, fun t ht => hr.fixedBase t (hq.fixedBase t ht),
    fun t ht => hr.oddMultiples t (hq.oddMultiples t ht)⟩

variable [Coordinate F]

/-- The tables that are present are those of the point's own coordinates. -/
structure Coherent (p : TabledPoint F) : Prop where
  fixedBase : ∀ t, p.fixedBase? = some t → t = FixedBaseTable.ofPoint p.point
  oddMultiples : ∀ t, p.oddMultiples? = some t → t = OddMultiples.ofPoint p.point

/-- The point with its fixed-base table. -/
def withFixedBase (p : TabledPoint F) : TabledPoint F :=
  { p with fixedBase? := some (FixedBaseTable.ofPoint p.point) }

/-- The point with its odd multiples. -/
def withOddMultiples (p : TabledPoint F) : TabledPoint F :=
  { p with oddMultiples? := some (OddMultiples.ofPoint p.point) }

variable {p : TabledPoint F}

theorem coherent_ofPoint (p : Extended F) : (ofPoint p).Coherent := ⟨nofun, nofun⟩

namespace Coherent

lemma withFixedBase (h : p.Coherent) : p.withFixedBase.Coherent :=
  ⟨fun _ ht => (Option.some.inj ht).symm, h.oddMultiples⟩

lemma withOddMultiples (h : p.Coherent) : p.withOddMultiples.Coherent :=
  ⟨h.fixedBase, fun _ ht => (Option.some.inj ht).symm⟩

lemma extends_withFixedBase (h : p.Coherent) : p.withFixedBase.Extends p :=
  ⟨rfl, fun t ht => congrArg some (h.fixedBase t ht).symm, fun _ => id⟩

lemma extends_withOddMultiples (h : p.Coherent) : p.withOddMultiples.Extends p :=
  ⟨rfl, fun _ => id, fun t ht => congrArg some (h.oddMultiples t ht).symm⟩

/-- A table that is found is the one that would be built. -/
theorem value_fixedBase (h : p.Coherent) :
    p.fixedBase.value = (FixedBaseTable.ofPoint p.point, p.withFixedBase) := by
  obtain ⟨point, _ | t, odd?⟩ := p
  · rfl
  · obtain rfl : t = FixedBaseTable.ofPoint point := h.fixedBase t rfl
    rfl

@[inherit_doc value_fixedBase]
theorem value_oddMultiples (h : p.Coherent) :
    p.oddMultiples.value = (OddMultiples.ofPoint p.point, p.withOddMultiples) := by
  obtain ⟨point, fixed?, _ | t⟩ := p
  · rfl
  · obtain rfl : t = OddMultiples.ofPoint point := h.oddMultiples t rfl
    rfl

end Coherent
end TabledPoint

namespace Workspace

lemma modify_of_getElem? {w : Workspace F} {i : ℕ} {p : TabledPoint F} (h : w[i]? = some p)
    (f : TabledPoint F → TabledPoint F) : w.modify i f = w.set i (f p) := by
  rw [List.modify_eq_set_getElem?, h]
  rfl

/-- The same points without any tables. -/
def fresh (w : Workspace F) : Workspace F := w.map fun p => .ofPoint p.point

lemma getElem?_fresh (w : Workspace F) (i : ℕ) :
    w.fresh[i]? = w[i]?.map fun p => .ofPoint p.point := List.getElem?_map

lemma fresh_append (w v : Workspace F) : fresh (w ++ v) = w.fresh ++ v.fresh := List.map_append

lemma fresh_modify {f : TabledPoint F → TabledPoint F} (hf : ∀ p, (f p).point = p.point)
    (w : Workspace F) (i : ℕ) : fresh (w.modify i f) = fresh w := by
  apply List.ext_getElem?
  intro j
  rw [getElem?_fresh, getElem?_fresh, List.getElem?_modify, Option.map_eq_map, Option.map_map]
  congr 1
  funext p
  rw [Function.comp_apply]
  split_ifs
  · rw [hf]
  · rfl

/-- All points are still there, with at least the tables that they had. -/
def Extends (v w : Workspace F) : Prop :=
  ∀ (i : ℕ) (p : TabledPoint F), w[i]? = some p → ∃ q : TabledPoint F, v[i]? = some q ∧ q.Extends p

lemma Extends.refl (w : Workspace F) : w.Extends w := fun _ p h => ⟨p, h, .refl p⟩

lemma Extends.trans {u v w : Workspace F} (hu : u.Extends v) (hv : v.Extends w) : u.Extends w := by
  intro i p hp
  obtain ⟨q, hq, hqp⟩ := hv i p hp
  obtain ⟨r, hr, hrq⟩ := hu i q hq
  exact ⟨r, hr, hrq.trans hqp⟩

lemma extends_append (w v : Workspace F) : Extends (w ++ v) w := by
  intro i p hp
  obtain ⟨hi, -⟩ := List.getElem?_eq_some_iff.mp hp
  exact ⟨p, (List.getElem?_append_left hi).trans hp, .refl p⟩

lemma extends_modify {f : TabledPoint F → TabledPoint F} {w : Workspace F}
    (hf : ∀ p ∈ w, (f p).Extends p) (i : ℕ) : Extends (w.modify i f) w := by
  intro j p hp
  refine ⟨if i = j then f p else p, ?_, ?_⟩
  · rw [List.getElem?_modify, hp]
    rfl
  · split_ifs
    · exact hf p (List.mem_of_getElem? hp)
    · exact .refl p

variable [Coordinate F]

/-- The tables of all points are their own. -/
def Coherent (w : Workspace F) : Prop := ∀ p ∈ w, p.Coherent

variable {w : Workspace F} {p : TabledPoint F} {i : ℕ}

lemma coherent_fresh (w : Workspace F) : w.fresh.Coherent := by
  intro p hp
  obtain ⟨q, -, rfl⟩ := List.mem_map.mp hp
  exact TabledPoint.coherent_ofPoint q.point

lemma Coherent.getElem? (hw : w.Coherent) (h : w[i]? = some p) : p.Coherent :=
  hw p (List.mem_of_getElem? h)

lemma Coherent.append {v : Workspace F} (hw : w.Coherent) (hv : v.Coherent) : Coherent (w ++ v) :=
  fun _ hp => (List.mem_append.mp hp).elim (hw _) (hv _)

lemma Coherent.modify (hw : w.Coherent) {f : TabledPoint F → TabledPoint F}
    (hf : ∀ {p}, p.Coherent → (f p).Coherent) (i : ℕ) : Coherent (w.modify i f) := by
  intro q hq
  obtain ⟨j, hj⟩ := List.mem_iff_getElem?.mp hq
  rw [List.getElem?_modify] at hj
  obtain ⟨p, hp, rfl⟩ := Option.map_eq_some_iff.mp hj
  split_ifs
  · exact hf (hw.getElem? hp)
  · exact hw.getElem? hp

end Workspace
end Edwards25519
