import Mathlib

/-!
# Methods that write in place

A method on `&mut self` is a program in `EStateM`: it returns or fails, and leaves a state behind
either way. `check` is a step that reads the state and may fail, and `run_check_bind` says that a
method which fails there leaves the state as it found it.
-/

namespace Effect.InPlace

/-- A step that only reads, with its error passed on. -/
def check (f : σ → Except ε α) : EStateM ε σ α := do
  match f (← get) with
  | .ok a => pure a
  | .error e => throw e

theorem run_check_bind {k : α → EStateM ε σ β} : (check f >>= k).run s =
      match f s with
      | .ok a => (k a).run s
      | .error e => .error e s := by
  cases hf : f s with
  | error e =>
    simp only [check, EStateM.run_bind, EStateM.run_get, hf]
    rfl
  | ok a => simp [check, EStateM.run_bind, hf]

end Effect.InPlace
