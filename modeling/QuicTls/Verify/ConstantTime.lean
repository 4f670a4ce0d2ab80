import Mathlib.Algebra.Order.Ring.Int
import QuicTls.Crypto.ConstantTime

/-!
# Masks

Each constant-time comparison is the mask of the comparison it stands for.
-/

namespace QuicTls

variable {v w : Nat}

/-- All bits when the condition holds, and none otherwise. -/
def mask (w : Nat) (c : Bool) : BitVec w := if c then BitVec.allOnes w else 0

@[simp] theorem mask_true : mask w true = BitVec.allOnes w := rfl

@[simp] theorem mask_false : mask w false = 0#w := rfl

@[simp] theorem not_mask (c : Bool) : ~~~mask w c = mask w !c := by
  cases c <;> simp

@[simp] theorem mask_or_mask (c d : Bool) : mask w c ||| mask w d = mask w (c || d) := by
  cases c <;> cases d <;> simp

@[simp] theorem mask_and_mask (c d : Bool) : mask w c &&& mask w d = mask w (c && d) := by
  cases c <;> cases d <;> simp

@[simp] theorem mask_and (c : Bool) (x : BitVec w) : mask w c &&& x = if c then x else 0 := by
  cases c <;> simp

@[simp] theorem and_mask (c : Bool) (x : BitVec w) : x &&& mask w c = if c then x else 0 := by
  cases c <;> simp

theorem setWidth_mask (c : Bool) (h : v ≤ w) : (mask w c).setWidth v = mask v c := by
  cases c with
  | false => simp
  | true =>
    ext i hi
    simp [Nat.lt_of_lt_of_le hi h]

theorem two_pow_eq (hw : 0 < w) : 2 ^ w = 2 * 2 ^ (w - 1) := by
  rw [← Nat.pow_succ', Nat.succ_eq_add_one, Nat.sub_add_cancel hw]

theorem toNat_sub_eq (a b : BitVec w) : (a - b).toNat
    = if a.toNat < b.toNat then 2 ^ w - b.toNat + a.toNat else a.toNat - b.toNat := by
  have ha := a.isLt
  have hb := b.isLt
  rw [BitVec.toNat_sub]
  split
  · rw [Nat.mod_eq_of_lt (by omega)]
  · rw [show 2 ^ w - b.toNat + a.toNat = 2 ^ w + (a.toNat - b.toNat) by omega, Nat.add_mod_left,
      Nat.mod_eq_of_lt (by omega)]

theorem constantTimeMsb_eq (a : BitVec w) : constantTimeMsb a = mask w a.msb := by
  have h : a >>> (w - 1) = if a.msb then 1#w else 0#w := by
    apply BitVec.eq_of_toNat_eq
    rw [BitVec.toNat_ushiftRight, Nat.shiftRight_eq_div_pow, BitVec.msb_eq_decide]
    rcases Nat.eq_zero_or_pos w with rfl | hw
    · simp [BitVec.eq_nil a]
    have ha := a.isLt
    have hpow := two_pow_eq hw
    by_cases hle : 2 ^ (w - 1) ≤ a.toNat
    · have hdiv : a.toNat / 2 ^ (w - 1) = 1 := Nat.div_eq_of_lt_le (by omega) (by omega)
      simp [hle, hdiv, Nat.mod_eq_of_lt (Nat.one_lt_two_pow (n := w) (by omega))]
    · simp [hle, Nat.div_eq_of_lt (Nat.lt_of_not_le hle)]
  unfold constantTimeMsb mask
  rw [h]
  cases a.msb with
  | false => simp
  | true => simp [BitVec.neg_one_eq_allOnes]

@[simp] theorem constantTimeLt_eq (a b : BitVec w) :
    constantTimeLt a b = mask w (decide (a < b)) := by
  rcases Nat.eq_zero_or_pos w with rfl | hw
  · rw [BitVec.eq_nil (mask ..), BitVec.eq_nil (constantTimeLt ..)]
  rw [constantTimeLt, constantTimeMsb_eq]
  congr 1
  have ha := a.isLt
  have hb := b.isLt
  have hpow := two_pow_eq hw
  have hsub := toNat_sub_eq a b
  simp only [BitVec.msb_xor, BitVec.msb_or]
  simp only [BitVec.lt_def]
  grind

@[simp] theorem constantTimeGe_eq (a b : BitVec w) :
    constantTimeGe a b = mask w (decide (b ≤ a)) := by
  rw [constantTimeGe, constantTimeLt_eq, not_mask]
  congr 1
  rw [← decide_not]
  simp only [BitVec.not_lt]

@[simp] theorem constantTimeIsZero_eq (a : BitVec w) :
    constantTimeIsZero a = mask w (decide (a = 0)) := by
  rcases Nat.eq_zero_or_pos w with rfl | hw
  · rw [BitVec.eq_nil (mask ..), BitVec.eq_nil (constantTimeIsZero ..)]
  rw [constantTimeIsZero, constantTimeMsb_eq]
  congr 1
  have ha := a.isLt
  have hpow := two_pow_eq hw
  have hpos := Nat.two_pow_pos (w - 1)
  have hone : (1#w).toNat = 1 := Nat.mod_eq_of_lt (by omega)
  have hsub := toNat_sub_eq a 1#w
  rw [BitVec.msb_and]
  simp only [BitVec.toNat_eq]
  grind

@[simp] theorem constantTimeEq_eq (a b : BitVec w) :
    constantTimeEq a b = mask w (decide (a = b)) := by
  rw [constantTimeEq]
  simp

@[simp] theorem constantTimeGe8_eq (a b : SizeT) :
    constantTimeGe8 a b = mask 8 (decide (b ≤ a)) := by
  rw [constantTimeGe8, constantTimeGe_eq, setWidth_mask _ (by decide)]

theorem constantTimeEq8_eq (hw : 8 ≤ w) (a b : BitVec w) :
    constantTimeEq8 a b = mask 8 (decide (a = b)) := by
  rw [constantTimeEq8, constantTimeEq_eq, setWidth_mask _ hw]

@[simp] theorem constantTimeSelect_mask (c : Bool) (a b : BitVec w) :
    constantTimeSelect (mask w c) a b = if c then a else b := by
  unfold constantTimeSelect
  cases c <;> simp

@[simp] theorem constantTimeSelect8_mask (c : Bool) (a b : BitVec 8) :
    constantTimeSelect8 (mask 8 c) a b = if c then a else b := by
  have h (m : BitVec 8) : constantTimeSelect8 m a b = constantTimeSelect m a b := by
    unfold constantTimeSelect8 constantTimeSelect
    rw [BitVec.setWidth_or, BitVec.setWidth_and, BitVec.setWidth_and,
      BitVec.setWidth_not (by decide)]
    simp only [BitVec.setWidth_setWidth_of_le _ (show 8 ≤ 32 by decide), BitVec.setWidth_eq]
  rw [h, constantTimeSelect_mask]

end QuicTls
