import Mathlib.Logic.Basic

/-!
# Computations that succeed

What a value that was returned says of the parts of a computation.
-/

namespace QuicTls

variable {ε α β : Type} {x : Except ε α} {a : α}

theorem bind_eq_ok {f : α → Except ε β} {b : β} :
    x >>= f = .ok b ↔ ∃ a, x = .ok a ∧ f a = .ok b := by
  cases x <;> simp [bind, Except.bind]

/-- A check in front of the rest was passed. -/
theorem ok_of_check {c : Prop} [Decidable c] {e : ε} (h : (if c then .error e else x) = .ok a) :
    ¬ c ∧ x = .ok a := by
  split at h
  · cases h
  · exact ⟨‹_›, h⟩

end QuicTls
