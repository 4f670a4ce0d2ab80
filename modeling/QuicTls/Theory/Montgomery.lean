import Mathlib.Data.Nat.ModEq
import Mathlib.Tactic.Linarith
import Mathlib.Tactic.LinearCombination
import Mathlib.Tactic.Ring

/-!
# Montgomery reduction

Division by `B ^ i` modulo `N`, one digit in base `B` at a time.
-/

namespace QuicTls.Montgomery

variable {B N T V V' n0 m i : Nat}

/-- `V` is `T` divided by `B ^ i` modulo `N`, after a multiple of `N` smaller than `N * B ^ i` was
added to `T`. -/
def Reduced (B N T i V : Nat) : Prop := ∃ k, k < B ^ i ∧ V * B ^ i = T + N * k

namespace Reduced

theorem zero : Reduced B N T 0 T := ⟨0, by simp, by simp⟩

theorem step (h : Reduced B N T i V) (hm : m < B) (hV : V' * B = V + N * m) :
    Reduced B N T (i + 1) V' := by
  obtain ⟨k, hk, heq⟩ := h
  refine ⟨k + B ^ i * m, ?_, ?_⟩
  · have hle : B ^ i * (m + 1) ≤ B ^ i * B := Nat.mul_le_mul_left _ hm
    rw [Nat.pow_succ]
    rw [Nat.mul_add] at hle
    omega
  · linear_combination B ^ i * hV + heq

theorem lt (h : Reduced B N T i V) (hT : T < N * B ^ i) : V < 2 * N := by
  obtain ⟨k, hk, heq⟩ := h
  have hkN : N * k ≤ N * B ^ i := Nat.mul_le_mul_left _ hk.le
  apply Nat.lt_of_mul_lt_mul_right
  calc V * B ^ i = T + N * k := heq
    _ < N * B ^ i + N * B ^ i := by omega
    _ = 2 * N * B ^ i := by ring

theorem modEq (h : Reduced B N T i V) : V * B ^ i ≡ T [MOD N] := by
  obtain ⟨k, _, heq⟩ := h
  rw [heq, Nat.ModEq, Nat.add_mul_mod_self_left]

end Reduced

/-- The digit that makes the lowest digit of `x` zero. -/
theorem dvd_add_mul (hn0 : B ∣ n0 * N + 1) (x : Nat) : B ∣ x + N * (x * n0 % B) := by
  have hx : x + N * (x * n0 % B) ≡ x + N * (x * n0) [MOD B] :=
    ((Nat.mod_modEq _ _).mul_left _).add_left _
  apply (hx.dvd_iff dvd_rfl).2
  have heq : x + N * (x * n0) = x * (n0 * N + 1) := by ring
  rw [heq]
  exact hn0.mul_left x

theorem exists_reduced (hB : 0 < B) (hn0 : B ∣ n0 * N + 1) (T i : Nat) :
    ∃ V, Reduced B N T i V := by
  induction i with
  | zero => exact ⟨T, .zero⟩
  | succ i ih =>
    obtain ⟨V, hV⟩ := ih
    obtain ⟨V', hV'⟩ := dvd_add_mul hn0 V
    exact ⟨V', hV.step (Nat.mod_lt _ hB) (by rw [hV', Nat.mul_comm])⟩

/-- The power of the base is invertible. -/
theorem exists_inverse (hB : 0 < B) (hn0 : B ∣ n0 * N + 1) (i : Nat) :
    ∃ v, v * B ^ i ≡ 1 [MOD N] := by
  obtain ⟨v, hv⟩ := exists_reduced hB hn0 1 i
  exact ⟨v, hv.modEq⟩

/-- A quotient modulo `N` is the product with the inverse. -/
theorem eq_mul_inverse {r R v : Nat} (hr : r < N) (h : r * R ≡ T [MOD N])
    (hv : v * R ≡ 1 [MOD N]) : r = T * v % N := by
  have hmod : r ≡ T * v [MOD N] :=
    calc r = r * 1 := (Nat.mul_one r).symm
      _ ≡ r * (v * R) [MOD N] := hv.symm.mul_left r
      _ = r * R * v := by ring
      _ ≡ T * v [MOD N] := h.mul_right v
  rw [← hmod, Nat.mod_eq_of_lt hr]

end QuicTls.Montgomery
