import Mathlib.Algebra.Order.Ring.Int

/-!
# Procedures on machine words

A procedure ends with a result or a failure, or does not end with the fuel it has. A flag tells
whether everything so far was exact: no operation on words has wrapped around, no divisor was zero,
no index was outside its array. What a procedure yields without a fault composes.
-/

namespace QuicTls

/-- From the flag to the outcome, `none` for no end, and the flag. -/
def Proc (α : Type) : Type := Bool → Option (Option α × Bool)

namespace Proc

variable {α β : Type}

instance : Monad Proc where
  pure a := fun c => some (some a, c)
  bind x f := fun c =>
    match x c with
    | none => none
    | some (none, c) => some (none, c)
    | some (some a, c) => f a c

/-- The fuel is used up. -/
def running : Proc α := fun _ => none

/-- A return with a failure. -/
def fail : Proc α := fun c => some (none, c)

/-- A fault if the condition does not hold. -/
def check (b : Bool) : Proc Unit := fun c => some (some (), c && b)

/-- A value that is stored in a word of `w` bits. -/
def exact (w v : Nat) : Proc Nat := do
  check (v < 2 ^ w)
  pure (v % 2 ^ w)

/-- A difference of words of `w` bits. -/
def sub (w a b : Nat) : Proc Nat := do
  check (b ≤ a)
  pure ((a + 2 ^ w - b) % 2 ^ w)

def div (a b : Nat) : Proc Nat := do
  check (b ≠ 0)
  pure (a / b)

/-- Started without a fault, the procedure ends with this outcome and without a fault. -/
def Yields (x : Proc α) (r : Option α) : Prop := x true = some (r, true)

variable {x : Proc α} {f : α → Proc β} {a : α} {r : Option β}

theorem yields_pure (a : α) : Yields (pure a) (some a) := rfl

theorem yields_fail : Yields (fail : Proc α) none := rfl

theorem yields_check {b : Bool} (h : b = true) : Yields (check b) (some ()) := by
  rw [h]
  rfl

theorem bind_apply (x : Proc α) (f : α → Proc β) (c : Bool) :
    (x >>= f) c =
      match x c with
      | none => none
      | some (none, c) => some (none, c)
      | some (some a, c) => f a c := rfl

theorem Yields.bind (hx : Yields x (some a)) (hf : Yields (f a) r) : Yields (x >>= f) r := by
  rw [Yields, bind_apply, hx]
  exact hf

theorem Yields.bind_none (hx : Yields x none) : Yields (x >>= f) none := by
  rw [Yields, bind_apply, hx]

/-- The procedure fails, or ends with a value that stands for the outcome. -/
def Meets {γ : Type} (x : Proc α) (R : α → γ → Prop) : Option γ → Prop
  | none => Yields x none
  | some b => ∃ a, Yields x (some a) ∧ R a b

theorem Meets.bind {γ : Type} {R : β → γ → Prop} {o : Option γ} (hx : Yields x (some a))
    (hf : Meets (f a) R o) : Meets (x >>= f) R o := by
  cases o with
  | none => exact Yields.bind hx hf
  | some c =>
    obtain ⟨b, hb, hR⟩ := hf
    exact ⟨b, hx.bind hb, hR⟩

theorem bind_running {c : Bool} (hx : x c = none) : (x >>= f) c = none := by
  rw [bind_apply, hx]

theorem yields_exact {w v : Nat} (h : v < 2 ^ w) : Yields (exact w v) (some v) := by
  apply (yields_check (decide_eq_true h)).bind
  rw [Nat.mod_eq_of_lt h]
  exact yields_pure v

theorem yields_sub {w a b : Nat} (hb : b ≤ a) (ha : a < 2 ^ w) :
    Yields (sub w a b) (some (a - b)) := by
  apply (yields_check (decide_eq_true hb)).bind
  have hsub : (a + 2 ^ w - b) % 2 ^ w = a - b := by
    rw [Nat.sub_add_comm hb, Nat.add_mod_right, Nat.mod_eq_of_lt (by omega)]
  rw [hsub]
  exact yields_pure _

theorem yields_div {a b : Nat} (hb : b ≠ 0) : Yields (div a b) (some (a / b)) :=
  (yields_check (decide_eq_true hb)).bind (yields_pure _)

end Proc
end QuicTls
