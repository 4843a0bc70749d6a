import Edwards25519.Proofs.Bytes
import Edwards25519.Randomness

/-! Runs of computations that draw from a source. A draw takes the next bytes away; one that fails takes
nothing, and ends the computation. -/
namespace Edwards25519

/-- A string that is long enough starts with `n` bytes. -/
lemma Bytes.exists_toList_append {n : ℕ} {s : ByteString} (h : n ≤ s.length) :
    ∃ (b : Bytes n) (rest : ByteString), s = b.toList ++ rest :=
  ⟨ofPrefix n s, s.drop n, by rw [toList_ofPrefix h, List.take_append_drop]⟩

namespace Randomized

variable {α β : Type}

/-- A source that starts with enough bytes hands them out. -/
lemma runFrom_draw_bind {n : ℕ} (b : Bytes n) (s : ByteString) (f : Bytes n → Randomized β) :
    runFrom ⟨b.toList ++ s⟩ (draw n >>= f) = runFrom ⟨s⟩ (f b) := by
  have htake : Source.take? n ⟨b.toList ++ s⟩ = some (b, ⟨s⟩) := by
    rw [Source.take?, List.take_left' (by simp), List.drop_left' (by simp), b.ofList?_toList,
      Option.map_some]
  rw [runFrom_bind, runFrom_draw, htake]
  exact pure_bind _ _

/-- A source that has too few bytes keeps them. -/
lemma value_draw_bind_of_lt {n : ℕ} {source : Source} (h : source.bytes.length < n)
    (f : Bytes n → Randomized β) :
    (runFrom source (draw n >>= f)).value = (.error .randomnessExhausted, source) := by
  have htake : source.take? n = none := by
    rw [Source.take?, List.take_of_length_le h.le, Bytes.ofList?, dif_neg h.ne, Option.map_none]
  rw [runFrom_bind, runFrom_draw, htake]
  rfl

lemma value_ofLogged_bind {x : Logged (Except Error α)} {a : α} (h : x.value = .ok a)
    (source : Source) (f : α → Randomized β) :
    (runFrom source (ofLogged x >>= f)).value = (runFrom source (f a)).value := by
  rw [runFrom_bind, runFrom_ofLogged, Logged.value_bind, Logged.value_map, h]

lemma value_ofLogged_bind_of_error {x : Logged (Except Error α)} {e : Error} (h : x.value = .error e)
    (source : Source) (f : α → Randomized β) :
    (runFrom source (ofLogged x >>= f)).value = (.error e, source) := by
  rw [runFrom_bind, runFrom_ofLogged, Logged.value_bind, Logged.value_map, h]
  rfl

lemma value_runFrom_map (g : α → β) (source : Source) (x : Randomized α) :
    (runFrom source (g <$> x)).value =
      ((runFrom source x).value.1.map g, (runFrom source x).value.2) := by
  rw [map_eq_pure_bind, runFrom_bind, Logged.value_bind]
  rcases (runFrom source x).value with ⟨_ | _, _⟩ <;> rfl

end Randomized
end Edwards25519
