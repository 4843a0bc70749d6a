import Edwards25519.Log

/-! Drawing random bytes. A source hands its bytes out in order, each of them once. Asked for more
than are left it fails and hands out none. -/
namespace Edwards25519

structure Source where
  bytes : ByteString

/-- A computation that draws from a source, leaves a log and may fail. What was drawn before a
failure stays drawn. -/
abbrev Randomized (α : Type) := ExceptT Error (StateT Source Logged) α

namespace Source

/-- The next `n` bytes and the source after them. -/
def take? (n : Nat) (source : Source) : Option (Bytes n × Source) :=
  (Bytes.ofList? n (source.bytes.take n)).map fun b => (b, ⟨source.bytes.drop n⟩)

end Source

namespace Randomized

variable {α : Type}

def draw (n : Nat) : Randomized (Bytes n) :=
  ExceptT.mk fun source =>
    match source.take? n with
    | some (b, rest) => pure (.ok b, rest)
    | none => do
      Logged.note .randomnessFailed
      return (.error .randomnessExhausted, source)

/-- A computation that draws nothing. -/
def ofLogged (x : Logged (Except Error α)) : Randomized α :=
  ExceptT.mk fun source => do return (← x, source)

def runFrom (source : Source) (x : Randomized α) : Logged (Except Error α × Source) :=
  x.run.run source

/-- A failure ends the computation, and the source stays as it is then. -/
theorem runFrom_bind {β : Type} (source : Source) (x : Randomized α) (f : α → Randomized β) :
    runFrom source (x >>= f) =
      (runFrom source x >>= fun r =>
        match r.1 with
        | .ok a => runFrom r.2 (f a)
        | .error e => pure (.error e, r.2)) := by
  simp only [runFrom, ExceptT.run_bind, StateT.run_bind]
  congr 1
  funext r
  rcases r with ⟨_ | _, _⟩ <;> rfl

@[simp] theorem runFrom_ofLogged (source : Source) (x : Logged (Except Error α)) :
    runFrom source (ofLogged x) = (fun a => (a, source)) <$> x := rfl

theorem runFrom_draw (source : Source) (n : Nat) :
    runFrom source (draw n) =
      match source.take? n with
      | some (b, rest) => pure (.ok b, rest)
      | none => ⟨(.error .randomnessExhausted, source), [.randomnessFailed]⟩ := by
  simp only [runFrom, draw, ExceptT.run_mk, StateT.run]
  cases source.take? n <;> rfl

end Randomized
end Edwards25519
