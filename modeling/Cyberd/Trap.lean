import Mathlib.Tactic.Common

/-!
# Executions that stop

A function of the daemon either returns or stops the process. An access outside
of the memory it was given is recorded as such, whatever the hardware would
have answered.
-/

namespace Cyberd

/-- Why a function did not return. -/
inductive Trap
  /-- An explicit call to `abort(3)`. -/
  | abort
  /-- A failed `assert(3)`. -/
  | assertion
  /-- A dereferenced null or freed pointer. -/
  | badPointer
  /-- A read or a write outside of the buffer. -/
  | outOfBounds
  deriving DecidableEq, Repr

variable {ε α β : Type}

@[simp] theorem except_bind_ok (x : α) (f : α → Except ε β) :
    (Except.ok x >>= f) = f x := rfl

@[simp] theorem except_bind_error (t : ε) (f : α → Except ε β) :
    ((Except.error t : Except ε α) >>= f) = Except.error t := rfl

@[simp] theorem except_pure (x : α) : (pure x : Except ε α) = .ok x := rfl

@[simp] theorem except_map_ok (f : α → β) (x : α) :
    f <$> (Except.ok x : Except ε α) = .ok (f x) := rfl

/-- A sequence returns when both of its parts do. -/
theorem except_bind_eq_ok {x : Except ε α} {f : α → Except ε β} {b : β} :
    (x >>= f) = .ok b ↔ ∃ a, x = .ok a ∧ f a = .ok b := by
  cases x with
  | ok a => simp
  | error t => simp

end Cyberd
