import Mathlib.Tactic.Linarith
import Mathlib.Tactic.LinearCombination
import Mathlib.Tactic.Ring

/-!
# Estimating a digit of a quotient

The digit of `W / D` in base `B` is estimated from the leading digits `n0, n1, n2` of `W` and
`d0, d1` of `D`; `M` is the weight of the digits that are not looked at.
-/

namespace QuicTls.LongDivision

/-- `W` and `D` with their leading digits. -/
structure Leading (B M n0 n1 n2 d0 d1 W D : Nat) : Prop where
  num_le : ((n0 * B + n1) * B + n2) * M ≤ W
  num_lt : W < ((n0 * B + n1) * B + n2 + 1) * M
  div_le : (d0 * B + d1) * M ≤ D
  div_lt : D < (d0 * B + d1 + 1) * M

namespace Leading

variable {B M n0 n1 n2 d0 d1 W D q : Nat}

/-- The first digits when the quotient is a digit. -/
theorem top_le (h : Leading B M n0 n1 n2 d0 d1 W D) (hd1 : d1 < B) (hW : W < B * D) : n0 ≤ d0 := by
  have hlt : n0 * (B * B * M) < (d0 + 1) * (B * B * M) :=
    calc n0 * (B * B * M) = n0 * B * B * M := by ring
      _ ≤ ((n0 * B + n1) * B + n2) * M := by
        apply Nat.mul_le_mul_right
        have hn1 : n0 * B * B ≤ (n0 * B + n1) * B := Nat.mul_le_mul_right _ (Nat.le_add_right _ _)
        omega
      _ ≤ W := h.num_le
      _ < B * D := hW
      _ ≤ B * ((d0 * B + d1 + 1) * M) := Nat.mul_le_mul_left _ h.div_lt.le
      _ ≤ B * ((d0 + 1) * B * M) := by
        apply Nat.mul_le_mul_left
        apply Nat.mul_le_mul_right
        rw [Nat.add_mul]
        omega
      _ = (d0 + 1) * (B * B * M) := by ring
  have := Nat.lt_of_mul_lt_mul_right hlt
  omega

/-- A digit that is too large for the leading digits is too large. -/
theorem lt_mul (h : Leading B M n0 n1 n2 d0 d1 W D)
    (hq : (n0 * B + n1) * B + n2 < q * (d0 * B + d1)) : W < q * D :=
  calc W < ((n0 * B + n1) * B + n2 + 1) * M := h.num_lt
    _ ≤ q * (d0 * B + d1) * M := Nat.mul_le_mul_right _ hq
    _ = q * ((d0 * B + d1) * M) := Nat.mul_assoc _ _ _
    _ ≤ q * D := Nat.mul_le_mul_left _ h.div_le

/-- A digit that fits the leading digits is at most one too large. -/
theorem mul_le (h : Leading B M n0 n1 n2 d0 d1 W D)
    (hq : q * (d0 * B + d1) ≤ (n0 * B + n1) * B + n2) (hB : q ≤ B) (hd : 0 < d0) :
    q * D ≤ W + D := by
  have hD : B * M ≤ D := by
    refine le_trans ?_ h.div_le
    apply Nat.mul_le_mul_right
    have := Nat.le_mul_of_pos_left B hd
    omega
  have hqM : q * M ≤ B * M := Nat.mul_le_mul_right _ hB
  calc q * D ≤ q * ((d0 * B + d1 + 1) * M) := Nat.mul_le_mul_left _ h.div_lt.le
    _ = q * (d0 * B + d1) * M + q * M := by ring
    _ ≤ ((n0 * B + n1) * B + n2) * M + q * M := Nat.add_le_add_right (Nat.mul_le_mul_right _ hq) _
    _ ≤ W + q * M := Nat.add_le_add_right h.num_le _
    _ ≤ W + D := by omega

/-- The largest digit is at most one too large if the leading digits are equal. -/
theorem pred_mul_le (h : Leading B M d0 n1 n2 d0 d1 W D) (hB : B ≤ 2 * d0) (hd1 : d1 < B)
    (hB2 : 2 ≤ B) : (B - 1) * D ≤ W + D := by
  obtain ⟨b, rfl⟩ : ∃ b, B = b + 2 := ⟨B - 2, by omega⟩
  have hdiv := h.div_lt
  have hnum := h.num_le
  have hD : D ≤ (d0 + 1) * (b + 2) * M := by
    refine hdiv.le.trans (Nat.mul_le_mul_right _ ?_)
    rw [Nat.add_mul]
    omega
  have hbd : b * ((d0 + 1) * (b + 2)) ≤ d0 * (b + 2) * (b + 2) := by nlinarith
  have hlow : d0 * (b + 2) * (b + 2) * M ≤ W := by
    refine le_trans (Nat.mul_le_mul_right _ ?_) hnum
    calc d0 * (b + 2) * (b + 2) ≤ (d0 * (b + 2) + n1) * (b + 2) :=
          Nat.mul_le_mul_right _ (Nat.le_add_right _ _)
      _ ≤ (d0 * (b + 2) + n1) * (b + 2) + n2 := Nat.le_add_right _ _
  have hbD : b * D ≤ W :=
    calc b * D ≤ b * ((d0 + 1) * (b + 2) * M) := Nat.mul_le_mul_left _ hD
      _ = b * ((d0 + 1) * (b + 2)) * M := (Nat.mul_assoc _ _ _).symm
      _ ≤ d0 * (b + 2) * (b + 2) * M := Nat.mul_le_mul_right _ hbd
      _ ≤ W := hlow
  have hone : (b + 2 - 1) * D = b * D + D := by
    rw [show b + 2 - 1 = b + 1 by omega, Nat.add_mul, Nat.one_mul]
  omega

end Leading

/-- A digit that is not too small and at most one too large. -/
theorem digit_cases {W D q : Nat} (hlt : W < (q + 1) * D) (hle : q * D ≤ W + D) :
    q * D ≤ W ∧ W / D = q ∨ W < q * D ∧ 0 < q ∧ W / D = q - 1 := by
  by_cases h : q * D ≤ W
  · exact .inl ⟨h, Nat.div_eq_of_lt_le h hlt⟩
  cases q with
  | zero => simp at h
  | succ p =>
    rw [Nat.add_mul] at hle
    exact .inr ⟨not_le.1 h, p.succ_pos, Nat.div_eq_of_lt_le (by simp; omega) (not_le.1 h)⟩

/-- Subtracting the multiple of such a digit borrows exactly when the digit is too large; the
divisor is then added back. -/
theorem digit_borrow {W D q V T b : Nat} (hlt : W < (q + 1) * D) (hle : q * D ≤ W + D)
    (hb : b ≤ 1) (hsub : W + T * b = V + D * q) (hV : V < T) :
    b ≤ q ∧ W / D = q - b ∧ V + D * b = W % D + T * b := by
  have hmod := Nat.div_add_mod W D
  rw [Nat.mul_comm D q] at hsub
  rcases digit_cases hlt hle with ⟨hfits, hdiv⟩ | ⟨hlarge, hq, hdiv⟩
  · obtain rfl : b = 0 := by
      by_contra hne
      obtain rfl : b = 1 := by omega
      omega
    rw [hdiv, Nat.mul_comm] at hmod
    exact ⟨Nat.zero_le _, hdiv, by omega⟩
  · obtain rfl : b = 1 := by
      by_contra hne
      obtain rfl : b = 0 := by omega
      omega
    obtain ⟨p, rfl⟩ : ∃ p, q = p + 1 := ⟨q - 1, by omega⟩
    rw [hdiv, Nat.add_sub_cancel, Nat.mul_comm] at hmod
    rw [Nat.add_mul] at hsub
    omega

/-- A number is split at a power of the base in one way. -/
theorem split_unique {P lo hi R c : Nat} (hlo : lo < P) (hR : R < P)
    (h : lo + P * hi = R + P * c) : lo = R ∧ hi = c := by
  have hP := Nat.zero_lt_of_lt hlo
  obtain ⟨hhi, hlo⟩ := (Nat.div_mod_unique hP).2 ⟨rfl, hlo⟩
  obtain ⟨hc, hR⟩ := (Nat.div_mod_unique hP).2 ⟨h.symm, hR⟩
  exact ⟨hlo.symm.trans hR, hhi.symm.trans hc⟩

/-! ### Estimating a quotient through a reciprocal

The quotient of `x` by `n` is estimated from `x / b` and the reciprocal `b * R / n`. -/

theorem reciprocal_estimate_le {b R n x : Nat} (hR : 0 < R) (hn : 0 < n) :
    x / b * (b * R / n) / R ≤ x / n := by
  rw [Nat.le_div_iff_mul_le hn]
  apply Nat.le_of_mul_le_mul_right ?_ hR
  calc x / b * (b * R / n) / R * n * R = x / b * (b * R / n) / R * R * n := by ring
    _ ≤ x / b * (b * R / n) * n := Nat.mul_le_mul_right n (Nat.div_mul_le_self _ R)
    _ = x / b * (b * R / n * n) := by ring
    _ ≤ x / b * (b * R) := Nat.mul_le_mul_left _ (Nat.div_mul_le_self _ n)
    _ = x / b * b * R := by ring
    _ ≤ x * R := Nat.mul_le_mul_right R (Nat.div_mul_le_self x b)

/-- The truncations of `x / b`, of the reciprocal and of the estimate cost at most two, one and one
multiples of `n`. -/
theorem le_reciprocal_estimate {b R n x : Nat} (hn : 0 < n) (hb : b ≤ 2 * n)
    (hx : x < b * R) : x / n ≤ x / b * (b * R / n) / R + 3 := by
  have hbpos : 0 < b := Nat.pos_of_mul_pos_right (Nat.zero_lt_of_lt hx)
  have hR : 0 < R := Nat.pos_of_mul_pos_left (Nat.zero_lt_of_lt hx)
  generalize hμ : b * R / n = μ
  generalize ha : x / b = a
  generalize hq : a * μ / R = q
  have hxa : x < (a + 1) * b := ha ▸ Nat.lt_mul_of_div_lt (Nat.lt_succ_self _) hbpos
  have hlow : a < R := ha ▸ Nat.div_lt_of_lt_mul hx
  have hrec : b * R ≤ (μ + 1) * n := (hμ ▸ Nat.lt_mul_of_div_lt (Nat.lt_succ_self _) hn).le
  have hest : a * μ ≤ (q + 1) * R := (hq ▸ Nat.lt_mul_of_div_lt (Nat.lt_succ_self _) hR).le
  have hlt : x * R < (q + 4) * n * R :=
    calc x * R < (a + 1) * b * R := Nat.mul_lt_mul_of_pos_right hxa hR
      _ = a * (b * R) + b * R := by ring
      _ ≤ a * ((μ + 1) * n) + 2 * n * R :=
        Nat.add_le_add (Nat.mul_le_mul_left a hrec) (Nat.mul_le_mul_right R hb)
      _ = a * μ * n + a * n + 2 * n * R := by ring
      _ ≤ (q + 1) * R * n + R * n + 2 * n * R := by gcongr
      _ = (q + 4) * n * R := by ring
  have := (Nat.div_lt_iff_lt_mul hn).2 (Nat.lt_of_mul_lt_mul_right hlt)
  omega

end QuicTls.LongDivision
