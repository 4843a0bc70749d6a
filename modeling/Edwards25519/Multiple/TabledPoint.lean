import Edwards25519.Log
import Edwards25519.Multiple.Table
import Edwards25519.Point.Base

/-! A point with the tables that have been built for it so far. A table is built when it is first
needed, which is logged, and kept from then on. -/
namespace Edwards25519

structure TabledPoint (F : Type) where
  point : Extended F
  fixedBase? : Option (FixedBaseTable F)
  oddMultiples? : Option (OddMultiples F)

namespace TabledPoint

variable {F : Type} [Coordinate F]

omit [Coordinate F] in
def ofPoint (p : Extended F) : TabledPoint F := ⟨p, none, none⟩

/-- The fixed-base table, and the point that now has it. -/
def fixedBase (p : TabledPoint F) : Logged (FixedBaseTable F × TabledPoint F) :=
  match p.fixedBase? with
  | some t => pure (t, p)
  | none => do
    Logged.note .buildingFixedBaseTable
    let t := FixedBaseTable.ofPoint p.point
    return (t, { p with fixedBase? := some t })

/-- The odd multiples, and the point that now has them. -/
def oddMultiples (p : TabledPoint F) : Logged (OddMultiples F × TabledPoint F) :=
  match p.oddMultiples? with
  | some t => pure (t, p)
  | none => do
    Logged.note .buildingOddMultiples
    let t := OddMultiples.ofPoint p.point
    return (t, { p with oddMultiples? := some t })

def multiply (p : TabledPoint F) (s : Encoded) : Logged (Extended F × TabledPoint F) := do
  let (t, p) ← p.fixedBase
  return (t.multiply s, p)

end TabledPoint

/-- The fixed-base table of the base point. -/
def baseTable : FixedBaseTable FieldElement := FixedBaseTable.ofPoint Extended.base

/-- The odd multiples of the base point. -/
def baseOddMultiples : OddMultiples FieldElement := OddMultiples.ofPoint Extended.base

/-- The base point with both tables. -/
def basePoint : TabledPoint FieldElement :=
  ⟨Extended.base, some baseTable, some baseOddMultiples⟩

end Edwards25519
