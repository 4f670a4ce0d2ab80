import Mathlib.Data.List.Basic

/-!
# Cutting a stream into frames

A `Cutter` decides from the bytes at hand whether the first frame of a stream can be cut off, and
how long it is. Its decision is never revised when more bytes arrive. `split` cuts off frames for
as long as the cutter allows and returns them with what is left.

The result of this module is `split_append`: splitting a stream gives the same frames as splitting
its first part and then what was left of it followed by the second part. Framing therefore does not
depend on where a stream is cut into chunks.
-/

namespace QuicTls

open List

universe u

structure Cutter (β : Type u) where
  /-- The length of the first frame of the stream, as soon as it may be cut off. -/
  cut : List β → Option Nat
  pos : ∀ {xs n}, cut xs = some n → 0 < n
  le_length : ∀ {xs n}, cut xs = some n → n ≤ xs.length
  mono : ∀ {xs n} ys, cut xs = some n → cut (xs ++ ys) = some n

namespace Cutter

variable {β : Type u} (C : Cutter β)

/-- Cut off at most `fuel` frames. -/
def splitN : Nat → List β → List (List β) × List β
  | 0, xs => ([], xs)
  | fuel + 1, xs =>
    match C.cut xs with
    | none => ([], xs)
    | some n => (xs.take n :: (splitN fuel (xs.drop n)).1, (splitN fuel (xs.drop n)).2)

/-- Cut off frames for as long as possible. -/
def split (xs : List β) : List (List β) × List β := C.splitN xs.length xs

/-- A frame of a stream: what the cutter cuts off when the frame is followed by some bytes. -/
def IsFrame (f : List β) : Prop := ∃ rest, C.cut (f ++ rest) = some f.length

variable {C} {xs ys : List β}

theorem splitN_of_none (h : C.cut xs = none) (fuel : Nat) : C.splitN fuel xs = ([], xs) := by
  cases fuel <;> simp [splitN, h]

theorem splitN_of_some (h : C.cut xs = some n) (fuel : Nat) : C.splitN (fuel + 1) xs =
    (xs.take n :: (C.splitN fuel (xs.drop n)).1, (C.splitN fuel (xs.drop n)).2) := by
  simp only [splitN, h]

/-- As much fuel as there are elements is enough. -/
theorem splitN_eq_split {fuel : Nat} (h : xs.length ≤ fuel) : C.splitN fuel xs = C.split xs := by
  suffices H : ∀ m n (xs : List β), xs.length ≤ m → xs.length ≤ n →
      C.splitN m xs = C.splitN n xs from H _ _ _ h (Nat.le_refl _)
  intro m
  induction m with
  | zero =>
    intro n xs hm _
    cases hc : C.cut xs with
    | none => rw [splitN_of_none hc, splitN_of_none hc]
    | some k =>
      have h1 := C.pos hc
      have h2 := C.le_length hc
      omega
  | succ m ih =>
    intro n xs hm hn
    cases hc : C.cut xs with
    | none => rw [splitN_of_none hc, splitN_of_none hc]
    | some k =>
      have h1 := C.pos hc
      have h2 := C.le_length hc
      cases n with
      | zero => omega
      | succ n =>
        have hlen : (xs.drop k).length ≤ m ∧ (xs.drop k).length ≤ n := by
          rw [length_drop]; omega
        rw [splitN_of_some hc, splitN_of_some hc, ih n _ hlen.1 hlen.2]

theorem split_of_none (h : C.cut xs = none) : C.split xs = ([], xs) := splitN_of_none h _

theorem split_of_some (h : C.cut xs = some n) :
    C.split xs = (xs.take n :: (C.split (xs.drop n)).1, (C.split (xs.drop n)).2) := by
  have h1 := C.pos h
  have h2 := C.le_length h
  obtain ⟨k, hk⟩ : ∃ k, xs.length = k + 1 := ⟨xs.length - 1, by omega⟩
  have hlen : (xs.drop n).length ≤ k := by rw [length_drop]; omega
  rw [split, hk, splitN_of_some h, splitN_eq_split hlen]

/-- Induction along the frames that are cut off. -/
theorem split_induction {motive : List β → Prop} (stop : ∀ xs, C.cut xs = none → motive xs)
    (frame : ∀ xs n, C.cut xs = some n → motive (xs.drop n) → motive xs) (xs : List β) :
    motive xs := by
  induction hl : xs.length using Nat.strongRecOn generalizing xs with
  | _ l ih =>
    cases hc : C.cut xs with
    | none => exact stop xs hc
    | some n =>
      have h1 := C.pos hc
      have h2 := C.le_length hc
      exact frame xs n hc (ih _ (by rw [length_drop]; omega) _ rfl)

/-- Nothing is lost, duplicated or reordered. -/
theorem split_flatten (xs : List β) : (C.split xs).1.flatten ++ (C.split xs).2 = xs := by
  induction xs using split_induction (C := C) with
  | stop xs h => simp [split_of_none h]
  | frame xs n h ih =>
    rw [split_of_some h, flatten_cons, append_assoc, ih, take_append_drop]

theorem split_rest_of_length (h : (C.split xs).2.length = xs.length) : (C.split xs).2 = xs := by
  have hflat := split_flatten (C := C) xs
  have hlen := congrArg List.length hflat
  rw [length_append, h] at hlen
  have hnil := length_eq_zero_iff.mp (Nat.add_eq_right.mp hlen)
  rwa [hnil] at hflat

/-- What is left has no complete frame in front. -/
theorem cut_split_rest (xs : List β) : C.cut (C.split xs).2 = none := by
  induction xs using split_induction with
  | stop xs h => rwa [split_of_none h]
  | frame xs n h ih => rwa [split_of_some h]

theorem isFrame_of_mem_split (h : f ∈ (C.split xs).1) : C.IsFrame f := by
  induction xs using split_induction (C := C) with
  | stop xs hc => simp [split_of_none hc] at h
  | frame xs n hc ih =>
    rw [split_of_some hc, mem_cons] at h
    rcases h with rfl | h
    · refine ⟨xs.drop n, ?_⟩
      rw [take_append_drop, length_take_of_le (C.le_length hc), hc]
    · exact ih h

/-- **Framing does not depend on chunking.** -/
theorem split_append (xs ys : List β) :
    C.split (xs ++ ys) = ((C.split xs).1 ++ (C.split ((C.split xs).2 ++ ys)).1,
        (C.split ((C.split xs).2 ++ ys)).2) := by
  induction xs using split_induction (C := C) with
  | stop xs h => simp [split_of_none h]
  | frame xs n h ih =>
    have hd : (xs ++ ys).drop n = xs.drop n ++ ys :=
      drop_append_of_le_length (C.le_length h)
    have ht : (xs ++ ys).take n = xs.take n :=
      take_append_of_le_length (C.le_length h)
    rw [split_of_some (C.mono ys h), hd, ht, ih, split_of_some h, cons_append]

end Cutter

end QuicTls
