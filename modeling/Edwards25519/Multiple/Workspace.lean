import Edwards25519.Multiple.TabledPoint

/-! A growing list of points with their tables, and the requests that can be made of it. A request
answers with a value and may leave more tables behind than it found. -/
namespace Edwards25519

/-- Points are named by their place in the list. -/
abbrev Workspace (F : Type) := List (TabledPoint F)

inductive TableRequest (F : Type) where
  | insert (p : Extended F)
  /-- Copies a point with the tables it has at the moment. -/
  | copy (p : Nat)
  | point (p : Nat)
  | buildFixedBase (p : Nat)
  | buildOddMultiples (p : Nat)
  | fixedBaseEntry (p row column : Nat)
  | oddMultiple (p i : Nat)
  | select (p row : Nat) (digit : Int8)
  | multiply (p : Nat) (scalar : Encoded)
  /-- The multiple of `p` by `b` less that of `q` by `a`. -/
  | combine (p q : Nat) (a b : Encoded)

inductive TableAnswer (F : Type) where
  | done
  | extended (p : Extended F)
  | projective (p : Projective F)
  | precomputed (p : Precomputed F)
  /-- The table has been built, and has no entry at the place asked for. -/
  | noSuchEntry
  | noSuchPoint

namespace Workspace

variable {F : Type} [Coordinate F]

/-- Lets a point find or build a table and keeps the point. -/
def withTable {T : Type} (build : TabledPoint F → Logged (T × TabledPoint F)) (w : Workspace F)
    (p : Nat) (answer : T → TableAnswer F) : Logged (TableAnswer F × Workspace F) :=
  match w[p]? with
  | none => pure (.noSuchPoint, w)
  | some point => do
    let (t, point) ← build point
    return (answer t, w.set p point)

def entryAnswer (e? : Option (Precomputed F)) : TableAnswer F :=
  match e? with
  | some e => .precomputed e
  | none => .noSuchEntry

/-- Both points find or build their odd multiples, `q` first. They may be the same. -/
def combine (w : Workspace F) (p q : Nat) (a b : Encoded) :
    Logged (TableAnswer F × Workspace F) :=
  match w[q]?, w[p]? with
  | some other, some _ => do
    let (otherTable, other) ← other.oddMultiples
    withTable TabledPoint.oddMultiples (w.set q other) p fun ownTable =>
      .projective (OddMultiples.combine ownTable otherTable a.toScalar b.toScalar)
  | _, _ => pure (.noSuchPoint, w)

def answer (w : Workspace F) : TableRequest F → Logged (TableAnswer F × Workspace F)
  | .insert p => pure (.done, w ++ [.ofPoint p])
  | .copy p =>
    match w[p]? with
    | none => pure (.noSuchPoint, w)
    | some point => pure (.done, w ++ [point])
  | .point p =>
    match w[p]? with
    | none => pure (.noSuchPoint, w)
    | some point => pure (.extended point.point, w)
  | .buildFixedBase p => withTable TabledPoint.fixedBase w p fun _ => .done
  | .buildOddMultiples p => withTable TabledPoint.oddMultiples w p fun _ => .done
  | .fixedBaseEntry p row column =>
    withTable TabledPoint.fixedBase w p fun t => entryAnswer do (← t[row]?)[column]?
  | .oddMultiple p i => withTable TabledPoint.oddMultiples w p fun t => entryAnswer t[i]?
  | .select p row digit =>
    withTable TabledPoint.fixedBase w p fun t =>
      entryAnswer (t[row]?.map (FixedBaseTable.selectFrom · digit))
  | .multiply p scalar =>
    withTable TabledPoint.fixedBase w p fun t => .extended (t.multiply scalar)
  | .combine p q a b => combine w p q a b

end Workspace
end Edwards25519
