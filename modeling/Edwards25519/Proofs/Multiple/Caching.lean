import Edwards25519.Proofs.Multiple.Coherence

/-! Requests to points that keep their tables. No answer depends on which tables are there. A request
builds the tables that it needs for the points that it names and leaves all others alone. -/
namespace Edwards25519

variable {F : Type}

open TabledPoint

/-- The places of the points that a request is about. -/
def TableRequest.points : TableRequest F → List ℕ
  | .insert _ => []
  | .copy p | .point p | .buildFixedBase p | .buildOddMultiples p | .fixedBaseEntry p _ _
  | .oddMultiple p _ | .select p _ _ | .multiply p _ => [p]
  | .combine p q _ _ => [p, q]

namespace Workspace

variable [Coordinate F]

/-- What a request leaves behind. -/
def after (w : Workspace F) : TableRequest F → Workspace F
  | .insert p => w ++ [.ofPoint p]
  | .copy p => w ++ w[p]?.toList
  | .point _ => w
  | .buildFixedBase p | .fixedBaseEntry p _ _ | .select p _ _ | .multiply p _ =>
    w.modify p withFixedBase
  | .buildOddMultiples p | .oddMultiple p _ => w.modify p withOddMultiples
  | .combine p q _ _ =>
    match w[p]?, w[q]? with
    | some _, some _ => (w.modify q withOddMultiples).modify p withOddMultiples
    | _, _ => w

/-- The answers to requests that are made one after the other. -/
def run (w : Workspace F) : List (TableRequest F) → Logged (List (TableAnswer F) × Workspace F)
  | [] => pure ([], w)
  | request :: requests => do
    let (a, w) ← answer w request
    let (as, w) ← run w requests
    return (a :: as, w)

/-- The answers if all tables are dropped before each request. -/
def runFresh (w : Workspace F) : List (TableRequest F) → Logged (List (TableAnswer F) × Workspace F)
  | [] => pure ([], w)
  | request :: requests => do
    let (a, w) ← answer w.fresh request
    let (as, w) ← runFresh w requests
    return (a :: as, w)

section step

variable {w : Workspace F} {p : TabledPoint F} {i : ℕ}

omit [Coordinate F] in
/-- A point that is there finds or builds a table, and is kept with it. -/
lemma value_withTable_of_getElem? {T : Type} {build : TabledPoint F → Logged (T × TabledPoint F)}
    {t : T} {kept : TabledPoint F} (h : w[i]? = some p) (hbuild : (build p).value = (t, kept))
    (f : T → TableAnswer F) : (withTable build w i f).value = (f t, w.set i kept) := by
  unfold withTable
  rw [h]
  dsimp only
  rw [Logged.value_bind, hbuild]
  rfl

/-- Where a point finds or builds a table, the answer is made from the table of its coordinates. -/
lemma value_withTable {T : Type} {build : TabledPoint F → Logged (T × TabledPoint F)}
    {table : Extended F → T} {keep : TabledPoint F → TabledPoint F}
    (hbuild : ∀ {p}, p.Coherent → (build p).value = (table p.point, keep p)) (hw : w.Coherent)
    (i : ℕ) (answer : T → TableAnswer F) :
    (withTable build w i answer).value =
      ((withTable build w.fresh i answer).value.1, w.modify i keep) := by
  have hfresh := getElem?_fresh w i
  cases h : w[i]? with
  | none =>
    rw [h, Option.map_none] at hfresh
    rw [List.modify_eq_self (List.getElem?_eq_none_iff.mp h), withTable, withTable, h, hfresh]
    rfl
  | some p =>
    rw [h, Option.map_some] at hfresh
    rw [value_withTable_of_getElem? h (hbuild (hw.getElem? h)),
      value_withTable_of_getElem? hfresh (hbuild (coherent_ofPoint p.point)), modify_of_getElem? h]
    rfl

/-- The table of one point is there before the other one finds or builds its own; that the two may be the
same point makes no difference. -/
lemma value_combine {p q : ℕ} {own other : TabledPoint F} (hw : w.Coherent) (hp : w[p]? = some own)
    (hq : w[q]? = some other) (a b : Encoded) :
    (combine w p q a b).value =
      (.projective (OddMultiples.combine (OddMultiples.ofPoint own.point)
        (OddMultiples.ofPoint other.point) a.toScalar b.toScalar),
        (w.modify q withOddMultiples).modify p withOddMultiples) := by
  have hpoint : ∃ own' : TabledPoint F, (w.modify q withOddMultiples)[p]? = some own' ∧
      own'.point = own.point := by
    refine ⟨if q = p then own.withOddMultiples else own, ?_, ?_⟩
    · rw [List.getElem?_modify, hp]
      rfl
    · split_ifs <;> rfl
  obtain ⟨own', hown, hsame⟩ := hpoint
  unfold combine
  simp only [hp, hq]
  rw [Logged.value_bind, (hw.getElem? hq).value_oddMultiples]
  dsimp only
  have hodd := (hw.modify Coherent.withOddMultiples q).getElem? hown
  rw [← modify_of_getElem? hq, value_withTable_of_getElem? hown hodd.value_oddMultiples, hsame,
    modify_of_getElem? hown]

/-- Both points get their odd multiples, also if they are the same. -/
lemma modify_modify_of_getElem? {q : TabledPoint F} {j : ℕ} (hp : w[i]? = some p) (hq : w[j]? = some q) :
    (w.modify j withOddMultiples).modify i withOddMultiples =
      (w.set j q.withOddMultiples).set i p.withOddMultiples := by
  have hsecond : (w.modify j withOddMultiples)[i]? =
      some (if j = i then p.withOddMultiples else p) := by
    rw [List.getElem?_modify, hp]
    rfl
  rw [modify_of_getElem? hsecond, modify_of_getElem? hq]
  split_ifs <;> rfl

lemma combine_of_getElem?_eq_none {p q : ℕ} (h : w[p]? = none ∨ w[q]? = none) (a b : Encoded) :
    combine w p q a b = pure (.noSuchPoint, w) := by
  unfold combine
  rcases h with h | h
  · rw [h]
    cases w[q]? <;> rfl
  · rw [h]

/-- A request is answered as if no table were there, and builds the tables that it needs. -/
theorem value_answer (hw : w.Coherent) (request : TableRequest F) :
    (answer w request).value = ((answer w.fresh request).value.1, w.after request) := by
  have hfixed := fun (p : ℕ) (f : FixedBaseTable F → TableAnswer F) =>
    value_withTable Coherent.value_fixedBase hw p f
  have hodd := fun (p : ℕ) (f : OddMultiples F → TableAnswer F) =>
    value_withTable Coherent.value_oddMultiples hw p f
  cases request with
  | insert p => rfl
  | copy p =>
    simp only [answer, after, getElem?_fresh]
    cases w[p]? with
    | none => simp
    | some point => simp
  | point p =>
    simp only [answer, after, getElem?_fresh]
    cases w[p]? with
    | none => rfl
    | some point => rfl
  | buildFixedBase p => exact hfixed p _
  | buildOddMultiples p => exact hodd p _
  | fixedBaseEntry p row column => exact hfixed p _
  | oddMultiple p i => exact hodd p _
  | select p row digit => exact hfixed p _
  | multiply p scalar => exact hfixed p _
  | combine p q a b =>
    change (combine w p q a b).value = ((combine w.fresh p q a b).value.1, w.after (.combine p q a b))
    have hnone : ∀ {i : ℕ}, w[i]? = none → w.fresh[i]? = none := fun h => by
      rw [getElem?_fresh, h, Option.map_none]
    have hsome : ∀ {i : ℕ} {p : TabledPoint F}, w[i]? = some p → w.fresh[i]? = some (.ofPoint p.point) :=
      fun h => by rw [getElem?_fresh, h, Option.map_some]
    cases hp : w[p]? with
    | none =>
      rw [combine_of_getElem?_eq_none (.inl hp), combine_of_getElem?_eq_none (.inl (hnone hp)), after, hp]
      rfl
    | some own =>
      cases hq : w[q]? with
      | none =>
        rw [combine_of_getElem?_eq_none (.inr hq), combine_of_getElem?_eq_none (.inr (hnone hq)), after,
          hp, hq]
        rfl
      | some other =>
        rw [value_combine hw hp hq, value_combine (coherent_fresh w) (hsome hp) (hsome hq), after, hp, hq]
        rfl

theorem Coherent.after (hw : w.Coherent) (request : TableRequest F) : (w.after request).Coherent := by
  cases request with
  | insert p => exact hw.append (List.forall_mem_singleton.mpr (coherent_ofPoint p))
  | copy p => exact hw.append fun q hq => hw.getElem? (Option.mem_toList.mp hq)
  | point p => exact hw
  | buildFixedBase p | fixedBaseEntry p _ _ | select p _ _ | multiply p _ =>
    exact hw.modify Coherent.withFixedBase p
  | buildOddMultiples p | oddMultiple p _ => exact hw.modify Coherent.withOddMultiples p
  | combine p q _ _ =>
    simp only [Workspace.after]
    split
    · exact (hw.modify Coherent.withOddMultiples q).modify Coherent.withOddMultiples p
    · exact hw

theorem Coherent.extends_after (hw : w.Coherent) (request : TableRequest F) :
    (w.after request).Extends w := by
  cases request with
  | insert p => exact extends_append w _
  | copy p => exact extends_append w _
  | point p => exact .refl w
  | buildFixedBase p | fixedBaseEntry p _ _ | select p _ _ | multiply p _ =>
    exact extends_modify (fun q hq => (hw q hq).extends_withFixedBase) p
  | buildOddMultiples p | oddMultiple p _ =>
    exact extends_modify (fun q hq => (hw q hq).extends_withOddMultiples) p
  | combine p q _ _ =>
    have hodd := hw.modify Coherent.withOddMultiples q
    simp only [Workspace.after]
    split
    · exact (extends_modify (fun r hr => (hodd r hr).extends_withOddMultiples) p).trans
        (extends_modify (fun r hr => (hw r hr).extends_withOddMultiples) q)
    · exact .refl w

/-- Which points there are does not depend on the tables. -/
lemma fresh_after (w : Workspace F) (request : TableRequest F) :
    (w.after request).fresh = (w.fresh.after request).fresh := by
  have hidem : w.fresh.fresh = w.fresh := List.map_map
  have hfixed := fresh_modify (F := F) (f := withFixedBase) fun _ => rfl
  have hodd := fresh_modify (F := F) (f := withOddMultiples) fun _ => rfl
  cases request with
  | insert p => simp only [Workspace.after, fresh_append, hidem]
  | copy p =>
    simp only [Workspace.after, fresh_append, hidem, getElem?_fresh]
    cases w[p]? <;> rfl
  | point p => exact hidem.symm
  | buildFixedBase p | fixedBaseEntry p _ _ | select p _ _ | multiply p _ =>
    simp only [Workspace.after, hfixed, hidem]
  | buildOddMultiples p | oddMultiple p _ => simp only [Workspace.after, hodd, hidem]
  | combine p q _ _ =>
    simp only [Workspace.after, getElem?_fresh]
    cases w[p]? <;> cases w[q]? <;> simp only [Option.map_none, Option.map_some, hodd, hidem]

/-- A point that a request is not about stays as it is. -/
lemma getElem?_after {request : TableRequest F} (hi : i ∉ request.points) (h : w[i]? = some p) :
    (w.after request)[i]? = some p := by
  obtain ⟨hlt, -⟩ := List.getElem?_eq_some_iff.mp h
  cases request with
  | insert _ | copy _ => exact (List.getElem?_append_left hlt).trans h
  | point _ => exact h
  | buildFixedBase q | fixedBaseEntry q _ _ | select q _ _ | multiply q _
  | buildOddMultiples q | oddMultiple q _ =>
    exact (List.getElem?_modify_ne _ _ (List.ne_of_not_mem_cons hi).symm).trans h
  | combine q r _ _ =>
    have hq := List.ne_of_not_mem_cons hi
    have hr := List.ne_of_not_mem_cons (List.not_mem_of_not_mem_cons hi)
    simp only [Workspace.after]
    split
    · rw [List.getElem?_modify_ne _ _ hq.symm, List.getElem?_modify_ne _ _ hr.symm, h]
    · exact h

end step

section run

variable {w v : Workspace F}

theorem Coherent.run (hw : w.Coherent) (requests : List (TableRequest F)) :
    (run w requests).value.2.Coherent := by
  induction requests generalizing w with
  | nil => exact hw
  | cons request requests ih =>
    change (Workspace.run (answer w request).value.2 requests).value.2.Coherent
    rw [value_answer hw]
    exact ih (hw.after request)

theorem Coherent.extends_run (hw : w.Coherent) (requests : List (TableRequest F)) :
    (Workspace.run w requests).value.2.Extends w := by
  induction requests generalizing w with
  | nil => exact .refl w
  | cons request requests ih =>
    change (Workspace.run (answer w request).value.2 requests).value.2.Extends w
    rw [value_answer hw]
    exact (ih (hw.after request)).trans (hw.extends_after request)

theorem Coherent.getElem?_run (hw : w.Coherent) {requests : List (TableRequest F)} {i : ℕ}
    {p : TabledPoint F} (hi : ∀ request ∈ requests, i ∉ request.points) (h : w[i]? = some p) :
    (Workspace.run w requests).value.2[i]? = some p := by
  induction requests generalizing w with
  | nil => exact h
  | cons request requests ih =>
    obtain ⟨hrequest, hrequests⟩ := List.forall_mem_cons.mp hi
    change (Workspace.run (answer w request).value.2 requests).value.2[i]? = some p
    rw [value_answer hw]
    exact ih (hw.after request) hrequests (getElem?_after hrequest h)

/-- Both runs go through the same points, and the one without tables builds what it needs anew. -/
theorem Coherent.run_eq_runFresh (hw : w.Coherent) (h : w.fresh = v.fresh)
    (requests : List (TableRequest F)) :
    (Workspace.run w requests).value.1 = (runFresh v requests).value.1 := by
  induction requests generalizing w v with
  | nil => rfl
  | cons request requests ih =>
    change (answer w request).value.1 :: (Workspace.run (answer w request).value.2 requests).value.1 =
      (answer v.fresh request).value.1 :: (runFresh (answer v.fresh request).value.2 requests).value.1
    have hfresh : (answer w.fresh request).value.2 = w.fresh.after request := by
      rw [value_answer (coherent_fresh w)]
    rw [← h, value_answer hw, hfresh]
    exact congrArg _ (ih (hw.after request) (fresh_after w request))

end run

/-- Over a whole run, keeping the tables shows in no answer, and a request builds for the points that it
names what it needs and no more. Whatever the tables are that a point has kept, a request is answered from
those of the coordinates. -/
theorem run_transparent (requests later : List (TableRequest F)) :
    let w := (run [] requests).value.2
    let last := (run w later).value.2
    (run [] requests).value.1 = (runFresh [] requests).value.1 ∧ w.Coherent ∧ last.Extends w ∧
    (∀ q, (answer w (.insert q)).value = (.done, w ++ [ofPoint q])) ∧
    ∀ i p, w[i]? = some p →
      let fixed := FixedBaseTable.ofPoint p.point
      let odd := OddMultiples.ofPoint p.point
      ((∀ request ∈ later, i ∉ request.points) → last[i]? = some p) ∧
      (answer w (.copy i)).value = (.done, w ++ [p]) ∧
      (answer w (.point i)).value = (.extended p.point, w) ∧
      (answer w (.buildFixedBase i)).value = (.done, w.set i p.withFixedBase) ∧
      (answer w (.buildOddMultiples i)).value = (.done, w.set i p.withOddMultiples) ∧
      (∀ row column, (answer w (.fixedBaseEntry i row column)).value =
        (entryAnswer (fixed[row]?.bind (·[column]?)), w.set i p.withFixedBase)) ∧
      (∀ k, (answer w (.oddMultiple i k)).value = (entryAnswer odd[k]?, w.set i p.withOddMultiples)) ∧
      (∀ row digit, (answer w (.select i row digit)).value =
        (entryAnswer (fixed[row]?.map (FixedBaseTable.selectFrom · digit)), w.set i p.withFixedBase)) ∧
      (∀ scalar, (answer w (.multiply i scalar)).value =
        (.extended (fixed.multiply scalar), w.set i p.withFixedBase)) ∧
      ∀ j q a b, w[j]? = some q → (answer w (.combine i j a b)).value =
        (.projective (odd.combine (OddMultiples.ofPoint q.point) a.toScalar b.toScalar),
          (w.set j q.withOddMultiples).set i p.withOddMultiples) := by
  intro w last
  have hempty : Coherent ([] : Workspace F) := nofun
  have hw : w.Coherent := hempty.run requests
  refine ⟨hempty.run_eq_runFresh rfl requests, hw, hw.extends_run later, fun q => rfl, fun i p hp => ?_⟩
  have hfixed := value_withTable_of_getElem? hp (hw.getElem? hp).value_fixedBase
  have hodd := value_withTable_of_getElem? hp (hw.getElem? hp).value_oddMultiples
  refine ⟨fun hi => hw.getElem?_run hi hp, ?_, ?_, hfixed _, hodd _, fun row column => hfixed _,
    fun k => hodd _, fun row digit => hfixed _, fun scalar => hfixed _, fun j q a b hq => ?_⟩
  · rw [answer, hp]
    rfl
  · rw [answer, hp]
    rfl
  · rw [answer, value_combine hw hp hq, modify_modify_of_getElem? hp hq]

/-- A point whose table was built for a row that it does not have, and its copy. -/
theorem run_transparent_copy :
    let zero : Encoded := .short (Bytes.zero 32)
    let p : TabledPoint FieldElement := (ofPoint .base).withFixedBase
    let requests : List (TableRequest FieldElement) := [.insert .base, .select 0 40 3, .copy 0]
    let made := (run [] requests).value
    made.1 = [.done, .noSuchEntry, .done] ∧ made.2 = [p, p] ∧
    (run made.2 [.combine 0 0 zero zero]).value.2[1]? = some p ∧
    (answer made.2 (.copy 1)).value.2 = [p, p, p] ∧
    (answer made.2 (.oddMultiple 1 8)).value = (.noSuchEntry, [p, p.withOddMultiples]) ∧
    (answer made.2 (.combine 0 1 zero zero)).value.2 =
      [p.withOddMultiples, p.withOddMultiples] := by
  intro zero p requests made
  have hmade : made.2 = [p, p] := rfl
  obtain ⟨-, -, -, -, hnamed⟩ := run_transparent requests [.combine 0 0 zero zero]
  obtain ⟨-, -, -, -, -, -, -, -, -, hcombine⟩ := hnamed 0 p rfl
  obtain ⟨hsame, hcopy, -, -, -, -, hodd, -⟩ := hnamed 1 p rfl
  exact ⟨rfl, hmade, hsame (by simp [TableRequest.points]), congrArg Prod.snd hcopy, hodd 8,
    congrArg Prod.snd (hcombine 1 p zero zero rfl)⟩

end Workspace
end Edwards25519
