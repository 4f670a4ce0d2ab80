import Mathlib.RingTheory.Coprime.Lemmas
import Mathlib.RingTheory.Multiplicity
import Mathlib.Tactic.IntervalCases
import Mathlib.Tactic.Linarith
import Mathlib.Tactic.LinearCombination
import Mathlib.Tactic.Positivity

/-!
# Division steps

A division step halves `g`, after `f` was added to it or it was exchanged with `f`, so that both
numbers keep their greatest common divisor when `f` is odd. Here: the numbers never grow, and
`3 * d + 4` steps bring `g` to zero for numbers of at most `d` bits.

The bound is proved over rounds. A round starts at `delta = 1` with `g = 2 ^ v * g₀` for an odd
`g₀`: `v` steps halve `g`, one exchanges, and `v + 1` steps halve again with multiples of `g₀`
added. A norm of the pair, given by three linear forms, shrinks by the factor `17 / 27` for every
two steps of a round, and `(17 / 27) ^ 3` is below `1 / 4`.
-/

namespace QuicTls.Divstep

structure State where
  delta : Int
  f : Int
  g : Int
  deriving DecidableEq, Repr

def step (s : State) : State :=
  if 0 < s.delta ∧ s.g % 2 = 1 then ⟨1 - s.delta, s.g, (s.g - s.f) / 2⟩
  else ⟨1 + s.delta, s.f, (s.g + s.g % 2 * s.f) / 2⟩

variable {s : State} {f g g₀ delta : Int} {G k : Int}

/-! ### What one step keeps -/

/-- An odd `f`, twice the new `g`, and the numbers it was made from. -/
theorem step_cases (hf : s.f % 2 = 1) :
    ((step s).f = s.g ∧ s.g % 2 = 1 ∧ 2 * (step s).g = s.g - s.f) ∨
      ((step s).f = s.f ∧ 2 * (step s).g = s.g + s.g % 2 * s.f) := by
  rw [step]
  split
  case isTrue h => exact .inl ⟨rfl, h.2, by dsimp only; omega⟩
  case isFalse h =>
    rcases Int.emod_two_eq_zero_or_one s.g with hg | hg <;> rw [hg] <;> dsimp only <;> omega

theorem odd_step (hf : s.f % 2 = 1) : (step s).f % 2 = 1 := by
  rcases step_cases hf with ⟨h, hg, -⟩ | ⟨h, -⟩
  · rw [h, hg]
  · rw [h, hf]

/-- An odd number has the same common divisors with a number and its double. -/
theorem gcd_two_mul (hf : f % 2 = 1) (x : Int) : Int.gcd f (2 * x) = Int.gcd f x := by
  have hodd : f.natAbs % 2 = 1 := by omega
  have hcop : Nat.Coprime 2 f.natAbs := by rw [Nat.Coprime, Nat.gcd_rec, hodd, Nat.gcd_one_left]
  rw [Int.gcd, Int.natAbs_mul]
  exact hcop.gcd_mul_left_cancel_right _

theorem gcd_step (hf : s.f % 2 = 1) : Int.gcd (step s).f (step s).g = Int.gcd s.f s.g := by
  rw [← gcd_two_mul (odd_step hf)]
  rcases step_cases hf with ⟨h, -, h2⟩ | ⟨h, h2⟩
  · rw [h, h2, Int.gcd_comm s.f, Int.gcd_self_sub_right]
  · rw [h, h2, Int.gcd_add_mul_right_right]

/-- Numbers in absolute value below a bound stay below it. -/
theorem bound_step {b : Nat} (hf : s.f % 2 = 1) (hfb : s.f.natAbs ≤ b) (hgb : s.g.natAbs ≤ b) :
    (step s).f.natAbs ≤ b ∧ (step s).g.natAbs ≤ b := by
  rcases step_cases hf with ⟨h, -, h2⟩ | ⟨h, h2⟩
  · omega
  · rcases Int.emod_two_eq_zero_or_one s.g with hg | hg <;> rw [hg] at h2 <;> omega

theorem step_zero (hg : s.g = 0) : (step s).g = 0 := by
  rw [step, hg]
  simp

theorem iterate_zero (n : Nat) (hg : s.g = 0) : (step^[n] s).g = 0 := by
  induction n generalizing s with
  | zero => exact hg
  | succ n ih => exact ih (step_zero hg)

/-- The exchange and the halving as two phases. -/
theorem step_eq (hf : f % 2 = 1) :
    step ⟨delta, f, g⟩ = if 0 < delta ∧ g % 2 = 1
      then ⟨-delta + 1, g, (-f + -f % 2 * g) / 2⟩ else ⟨delta + 1, f, (g + g % 2 * f) / 2⟩ := by
  have hneg : -f % 2 = 1 := by omega
  rw [step]
  split
  · rw [hneg, one_mul, neg_add_eq_sub, neg_add_eq_sub]
  · rw [add_comm]

theorem step_even (hg : g % 2 = 0) : step ⟨delta, f, g⟩ = ⟨1 + delta, f, g / 2⟩ := by
  simp [step, hg]

theorem iterate_even (v : Nat) : step^[v] ⟨delta, f, 2 ^ v * g₀⟩ = ⟨delta + v, f, g₀⟩ := by
  induction v generalizing delta with
  | zero => simp
  | succ v ih =>
    have hdouble : (2 : Int) ^ (v + 1) * g₀ = 2 * (2 ^ v * g₀) := by ring
    rw [Function.iterate_succ_apply, hdouble, step_even (by omega),
      Int.mul_ediv_cancel_left _ (by decide), ih]
    push_cast
    rw [add_comm 1 delta, add_assoc, add_comm 1 (v : Int)]

/-- Until `delta` is positive again, multiples of an unchanged `f` are added. -/
theorem iterate_nonpos (hf : f % 2 = 1) (j : Nat) (g : Int) :
    ∃ G k : Int, step^[j] ⟨1 - j, f, g⟩ = ⟨1, f, G⟩ ∧ 0 ≤ k ∧ k < 2 ^ j ∧
      2 ^ j * G = g + k * f := by
  induction j generalizing g with
  | zero => exact ⟨g, 0, by simp, le_rfl, by simp, by simp⟩
  | succ j ih =>
    have hstep : step ⟨1 - (j + 1 : Nat), f, g⟩ = ⟨1 - j, f, (g + g % 2 * f) / 2⟩ := by
      rw [step, if_neg (by push_cast; omega)]
      push_cast
      ring_nf
    obtain ⟨G, k, hrun, hk0, hk, hG⟩ := ih ((g + g % 2 * f) / 2)
    have hb := Int.emod_two_eq_zero_or_one g
    have hhalf : 2 * ((g + g % 2 * f) / 2) = g + g % 2 * f := by
      rcases hb with hb | hb <;> rw [hb] <;> omega
    refine ⟨G, g % 2 + 2 * k, ?_, by omega, ?_, ?_⟩
    · rw [Function.iterate_succ_apply, hstep, hrun]
    · omega
    · linear_combination 2 * hG + hhalf

/-- A whole round. -/
theorem iterate_round (hf : f % 2 = 1) (hg : g₀ % 2 = 1) (v : Nat) :
    ∃ G k : Int, step^[2 * (v + 1)] ⟨1, f, 2 ^ v * g₀⟩ = ⟨1, g₀, G⟩ ∧ 0 ≤ k ∧ k < 2 ^ (v + 1) ∧
      2 ^ (v + 2) * G = (2 * k + 1) * g₀ - f := by
  have hswap : step ⟨1 + v, f, g₀⟩ = ⟨1 - (v + 1 : Nat), g₀, (g₀ - f) / 2⟩ := by
    rw [step, if_pos ⟨by dsimp only; omega, hg⟩]
    push_cast
    ring_nf
  obtain ⟨G, k, hrun, hk0, hk, hG⟩ := iterate_nonpos hg (v + 1) ((g₀ - f) / 2)
  refine ⟨G, k, ?_, hk0, hk, ?_⟩
  · have hsplit : 2 * (v + 1) = (v + 1) + 1 + v := by omega
    rw [hsplit, Function.iterate_add_apply, iterate_even, Function.iterate_succ_apply, hswap, hrun]
  · have hhalf : 2 * ((g₀ - f) / 2) = g₀ - f := by omega
    linear_combination 2 * hG + hhalf

/-- The norm of `f` and `g` is at most `t`. -/
structure Within (t : Rat) (f g : Int) : Prop where
  left : |(f : Rat)| ≤ 51 * t
  right : |(g : Rat)| ≤ 32 * t
  mixed : |3 * (g : Rat) - f| ≤ 80 * t

namespace Within

variable {t : Rat}

theorem nonneg (h : Within t f g) : 0 ≤ t := by
  have := (abs_nonneg _).trans h.left
  linarith

theorem of_le {b : Rat} (hf : |(f : Rat)| ≤ b) (hg : |(g : Rat)| ≤ b) : Within (b / 20) f g := by
  rw [abs_le] at hf hg
  refine ⟨?_, ?_, ?_⟩ <;> rw [abs_le] <;> constructor <;> linarith

section

variable {v : Nat} (h : Within t f (2 ^ v * g₀)) (hk0 : 0 ≤ k) (hk : k < 2 ^ (v + 1))
  (hG : 2 ^ (v + 2) * G = (2 * k + 1) * g₀ - f)
include h hk0 hk hG

/-- A round of two or four steps. -/
theorem round_short (hv : v < 2) : Within (t * (17 / 27) ^ (v + 1)) g₀ G := by
  have hG' : (2 : Rat) ^ (v + 2) * G = (2 * k + 1) * g₀ - f := by exact_mod_cast hG
  obtain ⟨hf, hg, hm⟩ := h
  push_cast at hg hm
  rw [abs_le] at hf hg hm
  interval_cases v <;> interval_cases k <;> push_cast at hG' <;> refine ⟨?_, ?_, ?_⟩ <;>
    rw [abs_le] <;> constructor <;> linarith

/-- A longer round: the norm would even shrink if `k` was arbitrary. -/
theorem round_more (hv : 2 ≤ v) : Within (t * (17 / 27) ^ (v + 1)) g₀ G := by
  have ht := h.nonneg
  set p : Rat := 2 ^ v with hp
  set u : Rat := t * (17 / 27) ^ (v + 1) with hu
  have hpos : 0 < p := by positivity
  -- the factor of a round is at least the one for three steps
  have hpu : 995 / 1000 * t ≤ p * u := by
    have hpow : (34 / 27 : Rat) ^ 3 ≤ (34 / 27) ^ (v + 1) :=
      pow_le_pow_right₀ (by norm_num) (by omega)
    have heq : 2 * (p * u) = t * (34 / 27) ^ (v + 1) := by
      rw [show (34 / 27 : Rat) = 2 * (17 / 27) by norm_num, mul_pow]
      ring
    have hmul := mul_le_mul_of_nonneg_left hpow ht
    linarith
  have hG' : 4 * (p * (G : Rat)) = (2 * k + 1) * g₀ - f := by
    have : (2 : Rat) ^ (v + 2) * G = (2 * k + 1) * g₀ - f := by exact_mod_cast hG
    rw [← this]
    ring
  -- what is added to `-f` lies between `0` and `4 * g`
  have hk1 : (0 : Rat) ≤ 2 * k + 1 := by
    have : (0 : Rat) ≤ k := by exact_mod_cast hk0
    linarith
  have hk2 : 2 * (k : Rat) + 1 ≤ 4 * p := by
    have : (k : Rat) + 1 ≤ 2 ^ (v + 1) := by exact_mod_cast hk
    rw [pow_succ] at this
    linarith
  obtain ⟨hf, hg, hm⟩ := h
  push_cast at hg hm
  rw [abs_le] at hf hg hm
  have hbetween : (0 ≤ (2 * (k : Rat) + 1) * g₀ ∧ (2 * (k : Rat) + 1) * g₀ ≤ 4 * (p * g₀)) ∨
      (4 * (p * (g₀ : Rat)) ≤ (2 * k + 1) * g₀ ∧ (2 * (k : Rat) + 1) * g₀ ≤ 0) := by
    rcases le_total 0 (g₀ : Rat) with h0 | h0
    · refine .inl ⟨mul_nonneg hk1 h0, ?_⟩
      rw [← mul_assoc]
      exact mul_le_mul_of_nonneg_right hk2 h0
    · refine .inr ⟨?_, mul_nonpos_of_nonneg_of_nonpos hk1 h0⟩
      rw [← mul_assoc]
      exact mul_le_mul_of_nonpos_right hk2 h0
  have hscale : ∀ x c : Rat, |p * x| ≤ c * (p * u) → |x| ≤ c * u := by
    intro x c hx
    rw [abs_mul, abs_of_pos hpos, mul_left_comm] at hx
    exact le_of_mul_le_mul_left hx hpos
  refine ⟨hscale _ _ ?_, hscale _ _ ?_, hscale _ _ ?_⟩ <;> rw [abs_le]
  · constructor <;> linarith
  · rcases hbetween with hz | hz <;> constructor <;> linarith
  · rcases hbetween with hz | hz <;> constructor <;> linarith

theorem round : Within (t * (17 / 27) ^ (v + 1)) g₀ G :=
  (Nat.lt_or_ge v 2).elim (h.round_short hk0 hk hG) (h.round_more hk0 hk hG)

end

end Within

theorem exists_eq_two_pow_mul_odd (hg : g ≠ 0) :
    ∃ (v : Nat) (g₀ : Int), g = 2 ^ v * g₀ ∧ g₀ % 2 = 1 := by
  have hfin : FiniteMultiplicity 2 g := Int.finiteMultiplicity_iff.2 ⟨by decide, hg⟩
  obtain ⟨g₀, heq, hodd⟩ := hfin.exists_eq_pow_mul_and_not_dvd
  exact ⟨_, g₀, heq, by omega⟩

/-- As long as `g` is not zero, the norm at the start was large. -/
theorem norm_ge {t : Rat} (m : Nat) (hf : f % 2 = 1) (h : Within t f g)
    (hne : (step^[m] ⟨1, f, g⟩).g ≠ 0) : (27 / 17 : Rat) ^ (m / 2) ≤ 40 * t := by
  induction m using Nat.strong_induction_on generalizing f g t with
  | _ m ih =>
    have hg : g ≠ 0 := fun hzero => hne (iterate_zero m hzero)
    obtain ⟨v, g₀, rfl, hodd⟩ := exists_eq_two_pow_mul_odd hg
    rcases Nat.lt_or_ge m (2 * (v + 1)) with hm | hm
    · -- within the first round `g` itself is large
      have hone : (1 : Rat) ≤ |(g₀ : Rat)| := by
        have : (1 : Int) ≤ |g₀| := Int.one_le_abs (by omega)
        exact_mod_cast this
      have hle := h.right
      push_cast at hle
      rw [abs_mul, abs_of_pos (by positivity)] at hle
      calc (27 / 17 : Rat) ^ (m / 2) ≤ (27 / 17) ^ v := pow_le_pow_right₀ (by norm_num) (by omega)
        _ ≤ 2 ^ v := pow_le_pow_left₀ (by norm_num) (by norm_num) v
        _ ≤ 2 ^ v * |(g₀ : Rat)| := le_mul_of_one_le_right (by positivity) hone
        _ ≤ 40 * t := by linarith [h.nonneg]
    · obtain ⟨G, k, hrun, hk0, hk, hG⟩ := iterate_round hf hodd v
      have hsplit : m = m - 2 * (v + 1) + 2 * (v + 1) := by omega
      rw [hsplit, Function.iterate_add_apply, hrun] at hne
      have hrest := ih _ (by omega) hodd (h.round hk0 hk hG) hne
      have hhalf : m / 2 = (m - 2 * (v + 1)) / 2 + (v + 1) := by omega
      calc (27 / 17 : Rat) ^ (m / 2)
          = (27 / 17) ^ ((m - 2 * (v + 1)) / 2) * (27 / 17) ^ (v + 1) := by rw [hhalf, pow_add]
        _ ≤ 40 * (t * (17 / 27) ^ (v + 1)) * (27 / 17) ^ (v + 1) :=
          mul_le_mul_of_nonneg_right hrest (by positivity)
        _ = 40 * t * (17 / 27 * (27 / 17)) ^ (v + 1) := by
          rw [mul_pow]
          ring
        _ = 40 * t := by norm_num

theorem two_pow_lt (d : Nat) : (2 : Rat) ^ (d + 1) < (27 / 17) ^ ((3 * d + 4) / 2) := by
  induction d using Nat.twoStepInduction with
  | zero => norm_num
  | one => norm_num
  | more d ih _ =>
    have hexp : (3 * (d + 2) + 4) / 2 = (3 * d + 4) / 2 + 3 := by omega
    calc (2 : Rat) ^ (d + 2 + 1) = 2 ^ (d + 1) * 4 := by ring
      _ < (27 / 17) ^ ((3 * d + 4) / 2) * 4 := by linarith
      _ ≤ (27 / 17) ^ ((3 * d + 4) / 2) * (27 / 17) ^ 3 :=
        mul_le_mul_of_nonneg_left (by norm_num) (by positivity)
      _ = (27 / 17) ^ ((3 * (d + 2) + 4) / 2) := by rw [hexp, pow_add]

/-- For numbers of at most `d` bits, `3 * d + 4` steps bring `g` to zero. -/
theorem iterate_eq_zero {d : Nat} (hf : f % 2 = 1) (hfd : f.natAbs ≤ 2 ^ d)
    (hgd : g.natAbs ≤ 2 ^ d) : (step^[3 * d + 4] ⟨1, f, g⟩).g = 0 := by
  by_contra hne
  have hcast : ∀ x : Int, x.natAbs ≤ 2 ^ d → |(x : Rat)| ≤ 2 ^ d := by
    intro x hx
    have habs : |x| ≤ 2 ^ d := by
      rw [Int.abs_eq_natAbs]
      exact_mod_cast hx
    exact_mod_cast habs
  have hnorm := norm_ge _ hf (Within.of_le (hcast f hfd) (hcast g hgd)) hne
  have hlt := two_pow_lt d
  rw [pow_succ] at hlt
  linarith

/-- What a run keeps. -/
theorem iterate_keeps {b : Nat} (n : Nat) (hf : s.f % 2 = 1) (hfb : s.f.natAbs ≤ b)
    (hgb : s.g.natAbs ≤ b) :
    (step^[n] s).f % 2 = 1 ∧ Int.gcd (step^[n] s).f (step^[n] s).g = Int.gcd s.f s.g ∧
      (step^[n] s).f.natAbs ≤ b ∧ (step^[n] s).g.natAbs ≤ b := by
  induction n generalizing s with
  | zero => exact ⟨hf, rfl, hfb, hgb⟩
  | succ n ih =>
    obtain ⟨hfb', hgb'⟩ := bound_step hf hfb hgb
    rw [← gcd_step hf]
    exact ih (odd_step hf) hfb' hgb'

end QuicTls.Divstep
