import Mathlib.Data.List.Basic

/-!
# Overwriting a part of a list

What `memcpy` does to the contents of its destination.
-/

namespace QuicTls

open List

variable {α : Type*} {n i : Nat}

/-- The elements from `off` on are replaced by `src`. -/
def overwrite (l : List α) (off : Nat) (src : List α) : List α :=
  l.take off ++ src ++ l.drop (off + src.length)

variable {l src : List α} {off : Nat}

theorem length_overwrite (h : off + src.length ≤ l.length) :
    (overwrite l off src).length = l.length := by
  simp only [overwrite, length_append, length_take, length_drop]
  omega

theorem getElem?_overwrite (h : off + src.length ≤ l.length) (i : Nat) :
    (overwrite l off src)[i]? =
      if off ≤ i ∧ i < off + src.length then src[i - off]? else l[i]? := by
  have htake : (l.take off).length = off := by
    rw [length_take]
    omega
  rcases Nat.lt_or_ge i off with hi | hi
  · rw [if_neg (by omega), overwrite, append_assoc, getElem?_append_left (by omega),
      getElem?_take_of_lt hi]
  rcases Nat.lt_or_ge i (off + src.length) with hi' | hi'
  · rw [if_pos ⟨hi, hi'⟩, overwrite, append_assoc, getElem?_append_right (by omega), htake,
      getElem?_append_left (by omega)]
  · have hlen : (l.take off ++ src).length = off + src.length := by
      rw [length_append, htake]
    rw [if_neg (by omega), overwrite, getElem?_append_right (by omega), hlen,
      getElem?_drop, Nat.add_sub_cancel' hi']

/-- The `n` elements from `off` on. -/
def slice (l : List α) (off n : Nat) : List α := (l.drop off).take n

theorem length_slice (h : off + n ≤ l.length) : (slice l off n).length = n := by
  rw [slice, length_take, length_drop]
  omega

theorem slice_zero (l : List α) (off : Nat) : slice l off 0 = [] := take_zero

theorem slice_append (l : List α) (off n m : Nat) :
    slice l off n ++ slice l (off + n) m = slice l off (n + m) := by
  rw [slice, slice, slice, take_add, drop_drop]

theorem slice_slice (l : List α) (off : Nat) {k : Nat} (h : i + k ≤ n) :
    slice (slice l off n) i k = slice l (off + i) k := by
  rw [slice, slice, slice, drop_take, take_take, drop_drop, Nat.min_eq_left (by omega)]

/-- A slice in front of the overwritten part or behind it. -/
theorem slice_overwrite (hi : i + n ≤ off ∨ off + src.length ≤ i)
    (h : off + src.length ≤ l.length) : slice (overwrite l off src) i n = slice l i n := by
  apply ext_getElem?
  intro j
  rw [slice, slice]
  rcases Nat.lt_or_ge j n with hj | hj
  · rw [getElem?_take_of_lt hj, getElem?_take_of_lt hj, getElem?_drop,
      getElem?_drop, getElem?_overwrite h, if_neg (by omega)]
  · rw [getElem?_take_eq_none hj, getElem?_take_eq_none hj]

theorem slice_overwrite_self (h : off + src.length ≤ l.length) :
    slice (overwrite l off src) off src.length = src := by
  have htake : (l.take off).length = off := by
    rw [length_take]
    omega
  rw [slice, overwrite, append_assoc, drop_left' htake, take_left]

end QuicTls
