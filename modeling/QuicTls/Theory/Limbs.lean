import Mathlib.Data.List.Basic
import Mathlib.Tactic.Linarith
import Mathlib.Tactic.LinearCombination
import Mathlib.Tactic.Ring

/-!
# Numbers as lists of words, least significant word first

`val` is the number; the lemmas are about its bounds and about appended words.
-/

namespace QuicTls.Limbs

open List

variable {w : Nat} {xs : List (BitVec w)} {n : Nat}

/-- Induction on two lists of one length. -/
theorem induction₂ {α β : Type}
    {motive : ∀ (as : List α) (bs : List β), as.length = bs.length → Prop}
    (nil : motive [] [] rfl)
    (cons : ∀ a as b bs h, motive as bs h → motive (a :: as) (b :: bs) (congrArg (· + 1) h))
    (as : List α) (bs : List β) (hlen : as.length = bs.length) : motive as bs hlen := by
  induction as generalizing bs with
  | nil =>
    obtain rfl := eq_nil_of_length_eq_zero hlen.symm
    exact nil
  | cons a as ih =>
    cases bs with
    | nil => cases hlen
    | cons b bs => exact cons a as b bs (Nat.succ.inj hlen) (ih bs (Nat.succ.inj hlen))

/-- The number that a list of words stands for. -/
def val : List (BitVec w) → Nat
  | [] => 0
  | x :: xs => x.toNat + 2 ^ w * val xs

@[simp] theorem val_nil : val ([] : List (BitVec w)) = 0 := rfl

@[simp] theorem val_cons (x : BitVec w) (xs : List (BitVec w)) :
    val (x :: xs) = x.toNat + 2 ^ w * val xs := rfl

theorem val_singleton (x : BitVec w) : val [x] = x.toNat := by simp

theorem val_append (xs ys : List (BitVec w)) :
    val (xs ++ ys) = val xs + (2 ^ w) ^ xs.length * val ys := by
  induction xs with
  | nil => simp
  | cons x xs ih =>
    rw [cons_append, val_cons, ih, val_cons, length_cons, Nat.pow_succ]
    ring

theorem val_concat (xs : List (BitVec w)) (x : BitVec w) :
    val (xs ++ [x]) = val xs + (2 ^ w) ^ xs.length * x.toNat := by
  rw [val_append, val_singleton]

theorem val_lt (xs : List (BitVec w)) : val xs < (2 ^ w) ^ xs.length := by
  induction xs with
  | nil => exact Nat.one_pos
  | cons x xs ih =>
    have hmul : 2 ^ w * (val xs + 1) ≤ 2 ^ w * (2 ^ w) ^ xs.length := Nat.mul_le_mul_left _ ih
    rw [val_cons, length_cons, Nat.pow_succ, Nat.mul_comm _ (2 ^ w)]
    rw [Nat.mul_add, Nat.mul_one] at hmul
    omega

@[simp] theorem val_replicate_zero (n : Nat) : val (List.replicate n 0#w) = 0 := by
  induction n with
  | zero => rfl
  | succ n ih => simp [replicate_succ, ih]

theorem val_take_add_drop (n : Nat) (xs : List (BitVec w)) :
    val xs = val (xs.take n) + (2 ^ w) ^ (xs.take n).length * val (xs.drop n) := by
  rw [← val_append, take_append_drop]

/-- Equal numbers of equal length have equal words. -/
theorem val_inj {ys : List (BitVec w)} (hlen : xs.length = ys.length) (h : val xs = val ys) :
    xs = ys := by
  induction xs, ys, hlen using induction₂ with
  | nil => rfl
  | cons x xs y ys _ ih =>
    rw [val_cons, val_cons] at h
    have hmod := congrArg (· % 2 ^ w) h
    simp only [Nat.add_mul_mod_self_left, Nat.mod_eq_of_lt x.isLt, Nat.mod_eq_of_lt y.isLt]
      at hmod
    have hxs : val xs = val ys := by
      apply Nat.eq_of_mul_eq_mul_left (Nat.two_pow_pos w)
      omega
    rw [BitVec.eq_of_toNat_eq hmod, ih hxs]

theorem val_eq_zero_iff : val xs = 0 ↔ ∀ x ∈ xs, x = 0#w := by
  induction xs with
  | nil => simp
  | cons x xs ih =>
    have hpos := Nat.two_pow_pos w
    rw [val_cons, forall_mem_cons, ← ih, Nat.add_eq_zero_iff, Nat.mul_eq_zero]
    constructor
    · rintro ⟨hx, hxs⟩
      exact ⟨BitVec.eq_of_toNat_eq (by simpa using hx), hxs.resolve_left hpos.ne'⟩
    · rintro ⟨rfl, hxs⟩
      exact ⟨by simp, .inr hxs⟩

/-- A number that fits in the lowest words has nothing above them. -/
theorem val_take_of_lt (h : val xs < (2 ^ w) ^ n) : val (xs.take n) = val xs := by
  by_cases hn : n ≤ xs.length
  · have hsplit := val_take_add_drop n xs
    rw [length_take_of_le hn] at hsplit
    have hzero : val (xs.drop n) = 0 := by
      by_contra hne
      have hmul : (2 ^ w) ^ n * 1 ≤ (2 ^ w) ^ n * val (xs.drop n) :=
        Nat.mul_le_mul_left _ (Nat.one_le_iff_ne_zero.2 hne)
      omega
    rw [hzero] at hsplit
    omega
  · rw [take_of_length_le (by omega)]

theorem val_drop_eq_div (h : n ≤ xs.length) : val (xs.drop n) = val xs / (2 ^ w) ^ n := by
  have hsplit := val_take_add_drop n xs
  have hlt := val_lt (xs.take n)
  rw [length_take_of_le h] at hsplit hlt
  rw [hsplit, Nat.add_mul_div_left _ _ (by positivity), Nat.div_eq_of_lt hlt, Nat.zero_add]

theorem val_take_eq_mod (h : n ≤ xs.length) : val (xs.take n) = val xs % (2 ^ w) ^ n := by
  have hsplit := val_take_add_drop n xs
  have hlt := val_lt (xs.take n)
  rw [length_take_of_le h] at hsplit hlt
  rw [hsplit, Nat.add_mul_mod_self_left, Nat.mod_eq_of_lt hlt]

theorem val_drop_getD {k : Nat} (hk : k < xs.length) :
    val (xs.drop k) = (xs.getD k 0#w).toNat + 2 ^ w * val (xs.drop (k + 1)) := by
  rw [drop_eq_getElem_cons hk, val_cons, getD_eq_getElem?_getD,
    getElem?_eq_getElem hk, Option.getD_some]

/-- The highest word decides the size of the number. -/
theorem le_val_of_getLast (hne : xs ≠ []) :
    (xs.getLast hne).toNat * (2 ^ w) ^ (xs.length - 1) ≤ val xs := by
  have hsplit := val_concat xs.dropLast (xs.getLast hne)
  rw [dropLast_append_getLast, length_dropLast] at hsplit
  rw [hsplit, Nat.mul_comm]
  exact Nat.le_add_left _ _

theorem val_lt_of_getLast (hne : xs ≠ []) :
    val xs < ((xs.getLast hne).toNat + 1) * (2 ^ w) ^ (xs.length - 1) := by
  have hsplit := val_concat xs.dropLast (xs.getLast hne)
  have hlt := val_lt xs.dropLast
  rw [dropLast_append_getLast] at hsplit
  rw [length_dropLast] at hsplit hlt
  rw [hsplit, Nat.add_mul, Nat.one_mul, Nat.mul_comm (xs.getLast hne).toNat]
  omega

end QuicTls.Limbs
