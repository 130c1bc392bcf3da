/-
  Lib.Raises — what a computation that can fail returns and raises.

  `Raises P x` says that whatever `x` raises satisfies `P`: nothing else escapes. It is
  followed through a computation as a postcondition is: what is bound raises what its first
  part raises, and what its second part raises behind a result of the first.

  Proved: `bind_ok`, `map_ok`, `mapError_ok`, and `raises_bind`, `raises_mapError`.
-/

import Mathlib.Logic.Basic

namespace Lib

variable {ε ε' α β : Type*}

/-! ## Results -/

theorem bind_ok {x : Except ε α} {f : α → Except ε β} {b : β} : x.bind f = .ok b ↔ ∃ a, x = .ok a ∧ f a = .ok b := by
  cases x with
  | error e => exact ⟨fun h => (by cases h), fun ⟨_, h, _⟩ => (by cases h)⟩
  | ok a => exact ⟨fun h => ⟨a, rfl, h⟩, fun ⟨_, h, h'⟩ => by cases h; exact h'⟩

theorem map_ok {x : Except ε α} {f : α → β} {b : β} : x.map f = .ok b ↔ ∃ a, x = .ok a ∧ f a = b := by
  cases x with
  | error e => exact ⟨fun h => (by cases h), fun ⟨_, h, _⟩ => (by cases h)⟩
  | ok a => exact ⟨fun h => ⟨a, rfl, Except.ok.inj h⟩, fun ⟨_, h, h'⟩ => by cases h; exact congrArg _ h'⟩

theorem mapError_ok {x : Except ε α} {g : ε → ε'} {a : α} : x.mapError g = .ok a ↔ x = .ok a := by
  cases x with
  | error e => exact ⟨fun h => (by cases h), fun h => (by cases h)⟩
  | ok b => exact ⟨fun h => (by cases h; rfl), fun h => (by cases h; rfl)⟩

/-! ## Exceptions -/

/-- Nothing but what satisfies `P` is raised. -/
def Raises (P : ε → Prop) (x : Except ε α) : Prop := ∀ e, x = .error e → P e

variable {P : ε → Prop}

@[simp] theorem raises_ok (a : α) : Raises P (.ok a : Except ε α) := fun _ h => (by cases h)

@[simp] theorem raises_error {e : ε} : Raises P (.error e : Except ε α) ↔ P e :=
  ⟨fun h => h e rfl, fun h _ he => by cases he; exact h⟩

theorem raises_bind {x : Except ε α} {f : α → Except ε β} :
    Raises P (x.bind f) ↔ Raises P x ∧ ∀ a, x = .ok a → Raises P (f a) := by
  cases x with
  | error e =>
    have hbind : Raises P ((.error e : Except ε α).bind f) ↔ P e := raises_error
    rw [hbind, raises_error]
    exact ⟨fun h => ⟨h, fun _ h' => (by cases h')⟩, fun h => h.1⟩
  | ok a => exact ⟨fun h => ⟨raises_ok a, fun _ h' => by cases h'; exact h⟩, fun h => h.2 a rfl⟩

theorem raises_mapError {P : ε' → Prop} {g : ε → ε'} {x : Except ε α} :
    Raises P (x.mapError g) ↔ Raises (fun e => P (g e)) x := by
  cases x with
  | error e =>
    have hmap : Raises P ((.error e : Except ε α).mapError g) ↔ P (g e) := raises_error
    rw [hmap, raises_error]
  | ok a => exact ⟨fun _ => raises_ok a, fun _ => raises_ok a⟩

end Lib
