import QuicTls.Theory.CTypes
import Mathlib.Data.List.Basic
import Mathlib.Tactic.Linarith

/-!
# The decoding procedure of Punycode (RFC 3492)

The pseudocode over the natural numbers, which cannot overflow. Beside the result it lists the
values that the variables `i`, `w` and `n` take.
-/

namespace QuicTls.Rfc3492

open List

/-- The digit value of a code point. -/
def digitValue (c : UInt8) : Option Nat :=
  if 0x41 ≤ c.toNat ∧ c.toNat ≤ 0x5a then some (c.toNat - 0x41)
  else if 0x61 ≤ c.toNat ∧ c.toNat ≤ 0x7a then some (c.toNat - 0x61)
  else if 0x30 ≤ c.toNat ∧ c.toNat ≤ 0x39 then some (c.toNat - 0x30 + 26)
  else none

/-- The loop of `adapt`; `delta` gets smaller in each round, so it is enough fuel itself. -/
def adaptLoop : Nat → Nat → Nat → Nat × Nat
  | 0, delta, k => (delta, k)
  | fuel + 1, delta, k =>
    if delta > (36 - 1) * 26 / 2 then adaptLoop fuel (delta / (36 - 1)) (k + 36) else (delta, k)

def adapt (delta numpoints : Nat) (firsttime : Bool) : Nat :=
  let delta := if firsttime then delta / 700 else delta / 2
  let delta := delta + delta / numpoints
  let r := adaptLoop delta delta 0
  r.2 + (36 - 1 + 1) * r.1 / (r.1 + 38)

def threshold (bias k : Nat) : Nat :=
  if k ≤ bias + 1 then 1 else if k ≥ bias + 26 then 26 else k - bias

/-- A generalized variable-length integer: the value of `i`, the values that were seen, and what
follows. -/
structure Integer where
  value : Nat
  seen : List Nat
  rest : Bytes

/-- The loop over the digits. -/
def integer (bias : Nat) : Nat → Nat → Nat → Bytes → Option Integer
  | _, _, _, [] => none
  | k, w, i, c :: cs =>
    match digitValue c with
    | none => none
    | some digit =>
      let i := i + digit * w
      let t := threshold bias k
      if digit < t then some ⟨i, [i], cs⟩
      else
        let w := w * (36 - t)
        (integer bias (k + 36) w i cs).map fun r => { r with seen := i :: w :: r.seen }

/-- The output, and the values that were seen. -/
structure Output where
  points : List Nat
  seen : List Nat

/-- The main loop; every round consumes a code point, so the length of the input is enough fuel. -/
def insertions : Nat → Nat → Nat → Nat → List Nat → Bytes → Option Output
  | _, _, _, _, output, [] => some ⟨output, []⟩
  | 0, _, _, _, _, _ :: _ => none
  | fuel + 1, n, i, bias, output, c :: cs =>
    match integer bias 36 1 i (c :: cs) with
    | none => none
    | some r =>
      let bias := adapt (r.value - i) (output.length + 1) (i == 0)
      let n := n + r.value / (output.length + 1)
      let i := r.value % (output.length + 1)
      if n < 0x80 then none
      else
        (insertions fuel n (i + 1) bias (output.take i ++ n :: output.drop i) r.rest).map fun o =>
          { o with seen := r.seen ++ n :: (i + 1) :: o.seen }

/-- The position of the last delimiter. -/
def lastDelimiter : Bytes → Option Nat
  | [] => none
  | c :: cs =>
    match lastDelimiter cs with
    | some j => some (j + 1)
    | none => if c = 0x2d then some 0 else none

/-- The whole procedure. -/
def decode (input : Bytes) : Option Output :=
  let count := (lastDelimiter input).getD 0
  let basic := input.take count
  if basic.all (·.toNat < 0x80) then
    insertions input.length 0x80 0 72 (basic.map (·.toNat))
      (if 0 < count then input.drop (count + 1) else input)
  else none

theorem threshold_bounds (bias k : Nat) : 1 ≤ threshold bias k ∧ threshold bias k ≤ 26 := by
  rw [threshold]
  split
  · omega
  · split <;> omega

/-- An integer consumes digits and does not lower `i`, and its value was seen. -/
theorem integer_spec {bias k w i : Nat} {cs : Bytes} {r : Integer}
    (h : integer bias k w i cs = some r) :
    i ≤ r.value ∧ r.value ∈ r.seen ∧ r.rest <:+ cs ∧ r.rest.length < cs.length := by
  induction cs generalizing k w i r with
  | nil => cases h
  | cons c cs ih =>
    rw [integer] at h
    split at h
    · cases h
    dsimp only at h
    split at h
    · cases h
      exact ⟨Nat.le_add_right .., mem_singleton.2 rfl, suffix_cons .., Nat.lt_succ_self _⟩
    · obtain ⟨r', hr', rfl⟩ := Option.map_eq_some_iff.1 h
      obtain ⟨hle, hmem, hsuffix, hlen⟩ := ih hr'
      refine ⟨(Nat.le_add_right ..).trans hle, ?_, hsuffix.trans (suffix_cons ..), ?_⟩
      · exact mem_cons_of_mem _ (mem_cons_of_mem _ hmem)
      · exact hlen.trans (Nat.lt_succ_self _)

/-- The output gets longer. -/
theorem length_insertions {fuel n i bias : Nat} {output : List Nat} {cs : Bytes} {o : Output}
    (h : insertions fuel n i bias output cs = some o) : output.length ≤ o.points.length := by
  fun_induction insertions fuel n i bias output cs generalizing o with
  | case1 =>
    cases h
    exact Nat.le_refl _
  | case2 | case3 | case4 => cases h
  | case5 =>
    rename_i ih
    obtain ⟨o', ho', rfl⟩ := Option.map_eq_some_iff.1 h
    have hlen := ih ho'
    rw [length_append, length_cons, length_take, length_drop] at hlen
    dsimp only
    omega

/-- The rounds of `adapt` are few, and more fuel does not matter. -/
theorem adaptLoop_bounds (rounds : Nat) {fuel delta k : Nat} (hfuel : delta ≤ fuel)
    (hdelta : delta < 456 * 35 ^ rounds) :
    (adaptLoop fuel delta k).1 ≤ 455 ∧ (adaptLoop fuel delta k).2 ≤ k + 36 * rounds := by
  fun_induction adaptLoop fuel delta k generalizing rounds with
  | case1 => exact ⟨by dsimp only; omega, Nat.le_add_right ..⟩
  | case2 fuel delta k hlarge ih =>
    obtain _ | rounds := rounds
    · omega
    · have h := ih rounds (by omega) (by omega)
      exact ⟨h.1, h.2.trans (by omega)⟩
  | case3 => exact ⟨by dsimp only; omega, Nat.le_add_right ..⟩

end QuicTls.Rfc3492
