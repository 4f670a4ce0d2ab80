import QuicTls.Crypto.Bn.Words
import QuicTls.Theory.Limbs

/-!
# What the word loops compute

Each function on arrays has one equation: the value of its result, with the carry as the word
above it.
-/

namespace QuicTls.Bn

open Limbs List

variable {w : Nat} {rp ap as bs : Words w} {c : Word w}

theorem toNat_one (hpos : 0 < w) : (1#w).toNat = 1 :=
  Nat.mod_eq_of_lt (Nat.one_lt_two_pow hpos.ne')

/-- A word that is counted up is zero exactly if it was all ones. -/
theorem add_one_cases (hpos : 0 < w) (x : Word w) :
    x + 1#w = 0#w ∧ x.toNat + 1 = 2 ^ w ∨ x + 1#w ≠ 0#w ∧ (x + 1#w).toNat = x.toNat + 1 := by
  have hx := x.isLt
  have hadd : (x + 1#w).toNat = (x.toNat + 1) % 2 ^ w := by rw [BitVec.toNat_add, toNat_one hpos]
  by_cases hfull : x.toNat + 1 = 2 ^ w
  · refine .inl ⟨BitVec.eq_of_toNat_eq ?_, hfull⟩
    rw [hadd, hfull, Nat.mod_self]
    rfl
  · rw [Nat.mod_eq_of_lt (by omega)] at hadd
    refine .inr ⟨fun hzero => ?_, hadd⟩
    rw [hzero] at hadd
    exact Nat.succ_ne_zero _ hadd.symm

/-! ### Double words -/

theorem toNat_toDWord (x : Word w) : x.toDWord.toNat = x.toNat := by
  rw [Word.toDWord, BitVec.toNat_setWidth, Nat.mod_eq_of_lt]
  exact x.isLt.trans_le (Nat.pow_le_pow_right (by omega) (by omega))

theorem toNat_hw (t : DWord w) : (hw t).toNat = t.toNat / 2 ^ w := by
  rw [hw, BitVec.toNat_setWidth, BitVec.toNat_ushiftRight, Nat.shiftRight_eq_div_pow,
    Nat.mod_eq_of_lt]
  apply Nat.div_lt_of_lt_mul
  rw [← Nat.pow_add]
  exact t.isLt

theorem lw_add_hw (t : DWord w) : (lw t).toNat + 2 ^ w * (hw t).toNat = t.toNat := by
  rw [toNat_hw, lw, BitVec.toNat_setWidth]
  exact Nat.mod_add_div _ _

theorem mul_add_add_lt (a b c d : Word w) :
    a.toNat * b.toNat + c.toNat + d.toNat < 2 ^ (w + w) := by
  have hb := b.isLt
  have hc := c.isLt
  have hd := d.isLt
  rw [Nat.pow_add]
  have hmul : a.toNat * b.toNat ≤ (2 ^ w - 1) * (2 ^ w - 1) :=
    Nat.mul_le_mul (by omega) (by omega)
  obtain ⟨k, hk⟩ : ∃ k, 2 ^ w = k + 1 := ⟨2 ^ w - 1, by omega⟩
  rw [hk] at hmul hc hd ⊢
  have hsq : (k + 1) * (k + 1) = k * k + 2 * k + 1 := by ring
  rw [Nat.add_sub_cancel] at hmul
  omega

theorem mulAdd_spec (r a v c : Word w) :
    (mulAdd r a v c).1.toNat + 2 ^ w * (mulAdd r a v c).2.toNat =
      r.toNat + a.toNat * v.toNat + c.toNat := by
  have hlt := mul_add_add_lt v a r c
  rw [mulAdd, lw_add_hw]
  simp only [BitVec.toNat_add, BitVec.toNat_mul, toNat_toDWord, Nat.mod_add_mod]
  rw [Nat.mod_eq_of_lt hlt]
  ring

theorem mul_spec (a v c : Word w) :
    (mul a v c).1.toNat + 2 ^ w * (mul a v c).2.toNat = a.toNat * v.toNat + c.toNat := by
  have hlt := mul_add_add_lt v a c 0#w
  rw [mul, lw_add_hw]
  simp only [BitVec.toNat_add, BitVec.toNat_mul, toNat_toDWord, Nat.mod_add_mod]
  simp only [BitVec.toNat_ofNat, Nat.zero_mod, Nat.add_zero] at hlt
  rw [Nat.mod_eq_of_lt hlt, Nat.mul_comm]

theorem sqr_spec (a : Word w) : (sqr a).1.toNat + 2 ^ w * (sqr a).2.toNat = a.toNat * a.toNat := by
  have hlt := mul_add_add_lt a a 0#w 0#w
  rw [sqr, lw_add_hw]
  simp only [BitVec.toNat_mul, toNat_toDWord]
  exact Nat.mod_eq_of_lt hlt

theorem toNat_bit (hpos : 0 < w) (b : Bool) : (bit b : Word w).toNat = if b then 1 else 0 := by
  have hlt : 1 < 2 ^ w := Nat.one_lt_two_pow (by omega)
  cases b
  · simp [bit]
  · simp [bit, Nat.mod_eq_of_lt hlt]

theorem exists_eq_bit (hpos : 0 < w) (hc : c.toNat ≤ 1) : ∃ b, c = bit b := by
  refine ⟨decide (c.toNat = 1), BitVec.eq_of_toNat_eq ?_⟩
  rw [toNat_bit hpos]
  by_cases h : c.toNat = 1
  · simp [h]
  · simp only [h, decide_false, Bool.false_eq_true, if_false]
    omega

/-- The difference of two words is too large if and only if there is a borrow. -/
theorem sub_spec (x y : Word w) :
    x.toNat + 2 ^ w * (if x < x - y then 1 else 0) = (x - y).toNat + y.toNat := by
  have hy := y.isLt
  simp only [BitVec.lt_def, BitVec.toNat_sub]
  by_cases hle : y.toNat ≤ x.toNat
  · have hmod : (2 ^ w - y.toNat + x.toNat) % 2 ^ w = x.toNat - y.toNat := by
      rw [show 2 ^ w - y.toNat + x.toNat = x.toNat - y.toNat + 2 ^ w by omega,
        Nat.add_mod_right, Nat.mod_eq_of_lt (by omega)]
    rw [if_neg (by omega)]
    omega
  · rw [Nat.mod_eq_of_lt (by omega), if_pos (by omega)]
    omega

/-- The sum of two words is too small if and only if there is a carry. -/
theorem add_spec (x y : Word w) :
    x.toNat + y.toNat = (x + y).toNat + 2 ^ w * (if x + y < y then 1 else 0) := by
  have hy := y.isLt
  simp only [BitVec.lt_def, BitVec.toNat_add]
  by_cases hlt : x.toNat + y.toNat < 2 ^ w
  · rw [Nat.mod_eq_of_lt hlt, if_neg (by omega)]
    omega
  · have hmod : (x.toNat + y.toNat) % 2 ^ w = x.toNat + y.toNat - 2 ^ w := by
      rw [Nat.mod_eq_sub_mod (by omega), Nat.mod_eq_of_lt (by omega)]
    rw [if_pos (by omega)]
    omega

/-! ### Loops over arrays -/

theorem mulAddLoop_spec (v c : Word w) (hlen : rp.length = ap.length) :
    val (mulAddLoop v c rp ap).1 + (2 ^ w) ^ ap.length * (mulAddLoop v c rp ap).2.toNat =
        val rp + val ap * v.toNat + c.toNat ∧
      (mulAddLoop v c rp ap).1.length = ap.length := by
  induction rp, ap, hlen using induction₂ generalizing c with
  | nil => simp [mulAddLoop]
  | cons r rp a ap _ ih =>
    have hstep := mulAdd_spec r a v c
    obtain ⟨hrest, hlen⟩ := ih (mulAdd r a v c).2
    simp only [mulAddLoop, val_cons, length_cons, hlen, and_true]
    linear_combination hstep + 2 ^ w * hrest

theorem bnMulAddWords_spec (v : Word w) (hlen : rp.length = ap.length) :
    val (bnMulAddWords rp ap v).1 + (2 ^ w) ^ ap.length * (bnMulAddWords rp ap v).2.toNat =
        val rp + val ap * v.toNat ∧
      (bnMulAddWords rp ap v).1.length = ap.length := by
  have h := mulAddLoop_spec v 0#w hlen
  rwa [BitVec.toNat_ofNat, Nat.zero_mod] at h

theorem mulLoop_spec (v c : Word w) (ap : Words w) :
    val (mulLoop v c ap).1 + (2 ^ w) ^ ap.length * (mulLoop v c ap).2.toNat =
        val ap * v.toNat + c.toNat ∧
      (mulLoop v c ap).1.length = ap.length := by
  induction ap generalizing c with
  | nil => simp [mulLoop]
  | cons a ap ih =>
    have hstep := mul_spec a v c
    obtain ⟨hrest, hlen⟩ := ih (mul a v c).2
    simp only [mulLoop, val_cons, length_cons, hlen, and_true]
    linear_combination hstep + 2 ^ w * hrest

theorem bnMulWords_spec (v : Word w) (ap : Words w) :
    val (bnMulWords ap v).1 + (2 ^ w) ^ ap.length * (bnMulWords ap v).2.toNat = val ap * v.toNat ∧
      (bnMulWords ap v).1.length = ap.length := by
  have h := mulLoop_spec v 0#w ap
  rwa [BitVec.toNat_ofNat, Nat.zero_mod] at h

theorem length_bnSqrWords (ap : Words w) : (bnSqrWords ap).length = 2 * ap.length := by
  induction ap with
  | nil => rfl
  | cons a ap ih =>
    rw [bnSqrWords, length_cons, length_cons, length_cons]
    omega

/-- The loop adds with a carry of at most one. -/
theorem addLoop_spec {ll : DWord w} (hll : ll.toNat ≤ 1) (hpos : 0 < w)
    (hlen : as.length = bs.length) :
    val (addLoop ll as bs).1 + (2 ^ w) ^ as.length * (addLoop ll as bs).2.toNat =
        val as + val bs + ll.toNat ∧
      (addLoop ll as bs).2.toNat ≤ 1 ∧ (addLoop ll as bs).1.length = as.length := by
  induction as, bs, hlen using induction₂ generalizing ll with
  | nil =>
    have hlt : ll.toNat < 2 ^ w := hll.trans_lt (Nat.one_lt_two_pow (by omega))
    have hlw : (lw ll).toNat = ll.toNat := by
      rw [lw, BitVec.toNat_setWidth, Nat.mod_eq_of_lt hlt]
    simp [addLoop, hlw, hll]
  | cons a as b bs _ ih =>
    have ha := a.isLt
    have hb := b.isLt
    have htwo : 2 * 2 ^ w ≤ 2 ^ (w + w) := by
      rw [Nat.pow_add]
      exact Nat.mul_le_mul_right _ (Nat.one_lt_two_pow (by omega))
    have hsum : (ll + (a.toDWord + b.toDWord)).toNat = ll.toNat + a.toNat + b.toNat := by
      rw [BitVec.toNat_add, BitVec.toNat_add, toNat_toDWord, toNat_toDWord, Nat.add_mod_mod,
        Nat.mod_eq_of_lt (by omega)]
      omega
    have hshift : ((ll + (a.toDWord + b.toDWord)) >>> w).toNat =
        (hw (ll + (a.toDWord + b.toDWord))).toNat := by
      rw [toNat_hw, BitVec.toNat_ushiftRight, Nat.shiftRight_eq_div_pow]
    have hsplit := lw_add_hw (ll + (a.toDWord + b.toDWord))
    have hbit : (hw (ll + (a.toDWord + b.toDWord))).toNat ≤ 1 := by
      rw [toNat_hw]
      exact Nat.le_of_lt_succ (Nat.div_lt_of_lt_mul (by omega))
    obtain ⟨hrest, hcarry, hlen⟩ := ih (hshift.trans_le hbit)
    rw [hshift] at hrest
    rw [hsum] at hsplit
    simp only [addLoop, val_cons, length_cons]
    exact ⟨by linear_combination hsplit + 2 ^ w * hrest, hcarry, by rw [hlen]⟩

theorem bnAddWords_spec (hpos : 0 < w) (hlen : as.length = bs.length) :
    val (bnAddWords as bs).1 + (2 ^ w) ^ as.length * (bnAddWords as bs).2.toNat = val as + val bs ∧
      (bnAddWords as bs).2.toNat ≤ 1 ∧ (bnAddWords as bs).1.length = as.length := by
  have hzero : (0 : DWord w).toNat = 0 := by simp
  have h := addLoop_spec (hzero.trans_le (Nat.zero_le 1)) hpos hlen
  rwa [hzero] at h

/-- The two comparisons of `bn_sub_words` are never both true. -/
theorem sub_sub_spec (hpos : 0 < w) (a b : Word w) (hc : c.toNat ≤ 1) :
    a.toNat + 2 ^ w * (bit (a < a - c) + bit (a - c < a - c - b) : Word w).toNat =
      (a - c - b).toNat + b.toNat + c.toNat ∧
    (bit (a < a - c) + bit (a - c < a - c - b) : Word w).toNat ≤ 1 := by
  have hfirst := sub_spec a c
  have hsecond := sub_spec (a - c) b
  have ha := a.isLt
  have hb := b.isLt
  have hac := (a - c).isLt
  have hacb := (a - c - b).isLt
  rw [BitVec.toNat_add, toNat_bit hpos, toNat_bit hpos]
  simp only [decide_eq_true_eq]
  by_cases h1 : a < a - c <;> by_cases h2 : a - c < a - c - b
  · -- a borrow from the carry leaves the largest word
    rw [if_pos h1] at hfirst
    rw [if_pos h2] at hsecond
    rw [BitVec.lt_def] at h2
    omega
  · rw [if_pos h1] at hfirst
    rw [if_neg h2] at hsecond
    rw [if_pos h1, if_neg h2, Nat.mod_eq_of_lt (by omega)]
    omega
  · rw [if_neg h1] at hfirst
    rw [if_pos h2] at hsecond
    rw [if_neg h1, if_pos h2, Nat.mod_eq_of_lt (by omega)]
    omega
  · rw [if_neg h1] at hfirst
    rw [if_neg h2] at hsecond
    rw [if_neg h1, if_neg h2, Nat.zero_mod]
    omega

theorem subLoop_spec (hc : c.toNat ≤ 1) (hpos : 0 < w) (hlen : as.length = bs.length) :
    val as + (2 ^ w) ^ as.length * (subLoop c as bs).2.toNat =
        val (subLoop c as bs).1 + val bs + c.toNat ∧
      (subLoop c as bs).2.toNat ≤ 1 ∧ (subLoop c as bs).1.length = as.length := by
  induction as, bs, hlen using induction₂ generalizing c with
  | nil => simp [subLoop, hc]
  | cons a as b bs _ ih =>
    obtain ⟨hstep, hbit⟩ := sub_sub_spec hpos a b hc
    obtain ⟨hrest, hborrow, hlen⟩ := ih hbit
    simp only [subLoop, val_cons, length_cons]
    exact ⟨by linear_combination hstep + 2 ^ w * hrest, hborrow, by rw [hlen]⟩

theorem bnSubWords_spec (hpos : 0 < w) (hlen : as.length = bs.length) :
    val as + (2 ^ w) ^ as.length * (bnSubWords as bs).2.toNat = val (bnSubWords as bs).1 + val bs ∧
      (bnSubWords as bs).2.toNat ≤ 1 ∧ (bnSubWords as bs).1.length = as.length := by
  have h := subLoop_spec (c := 0#w) (by simp) hpos hlen
  rwa [BitVec.toNat_ofNat, Nat.zero_mod] at h

theorem borrow_eq_zero {x y r p c : Nat} (h : x + p * c = r + y) (hr : r < p) (hle : y ≤ x) :
    c = 0 := by
  by_contra hne
  have := Nat.le_mul_of_pos_right p (Nat.pos_of_ne_zero hne)
  omega

theorem bnSubWords_of_le (hpos : 0 < w) (hlen : as.length = bs.length) (hle : val bs ≤ val as) :
    val (bnSubWords as bs).1 + val bs = val as ∧ (bnSubWords as bs).1.length = as.length := by
  obtain ⟨hval, -, hlength⟩ := bnSubWords_spec hpos hlen
  have hlt := val_lt (bnSubWords as bs).1
  rw [hlength] at hlt
  rw [borrow_eq_zero hval hlt hle] at hval
  exact ⟨by omega, hlength⟩

/-! ### Arrays of different lengths -/

/-- A comparison with the signs of C. -/
def IsCmp (c : Int) (a b : Nat) : Prop := c = 1 ∧ b < a ∨ c = 0 ∧ a = b ∨ c = -1 ∧ a < b

theorem IsCmp.eq_of_zero {c : Int} {a b : Nat} (h : IsCmp c a b) (hc : c = 0) : a = b := by
  rcases h with ⟨h1, -⟩ | ⟨-, heq⟩ | ⟨h1, -⟩
  · omega
  · exact heq
  · omega

/-- Words are compared from the top. -/
theorem bnCmpWords_spec (hlen : as.length = bs.length) :
    IsCmp (bnCmpWords as bs) (val as) (val bs) := by
  induction as, bs, hlen using induction₂ with
  | nil => exact .inr (.inl ⟨rfl, rfl⟩)
  | cons a as b bs _ ih =>
    have ha := a.isLt
    have hb := b.isLt
    rw [bnCmpWords, val_cons, val_cons]
    rcases ih with ⟨hc, hlt⟩ | ⟨hc, heq⟩ | ⟨hc, hlt⟩
    · have hmul : 2 ^ w * (val bs + 1) ≤ 2 ^ w * val as := Nat.mul_le_mul_left _ hlt
      rw [Nat.mul_add] at hmul
      exact .inl ⟨by simp [hc], by omega⟩
    · rw [hc, heq]
      simp only [ne_eq, not_true_eq_false, if_false]
      split
      · rename_i hab
        exact .inr (.inl ⟨rfl, by rw [hab]⟩)
      rename_i hab
      have hne : a.toNat ≠ b.toNat := fun h => hab (BitVec.eq_of_toNat_eq h)
      split_ifs with hlt
      · rw [BitVec.lt_def] at hlt
        exact .inl ⟨rfl, by omega⟩
      · rw [BitVec.lt_def] at hlt
        exact .inr (.inr ⟨rfl, by omega⟩)
    · have hmul : 2 ^ w * (val as + 1) ≤ 2 ^ w * val bs := Nat.mul_le_mul_left _ hlt
      rw [Nat.mul_add] at hmul
      exact .inr (.inr ⟨by simp [hc], by omega⟩)

theorem any_ne_zero_iff {xs : Words w} : xs.any (· ≠ 0#w) = true ↔ 0 < val xs := by
  rw [Nat.pos_iff_ne_zero, ne_eq, val_eq_zero_iff]
  simp

/-- The words of one array above the length of another are zero, or it is the larger one. -/
theorem val_lt_of_drop (h : 0 < val (bs.drop as.length)) : val as < val bs := by
  have hle : as.length ≤ bs.length := by
    by_contra hlt
    rw [drop_of_length_le (by omega)] at h
    exact absurd h (Nat.lt_irrefl 0)
  have hsplit := val_take_add_drop as.length bs
  have hlt := val_lt as
  rw [length_take_of_le hle] at hsplit
  have hmul : (2 ^ w) ^ as.length * 1 ≤ (2 ^ w) ^ as.length * val (bs.drop as.length) :=
    Nat.mul_le_mul_left _ h
  omega

theorem val_take_of_drop_eq_zero {xs : Words w} {n : Nat} (h : val (xs.drop n) = 0) :
    val (xs.take n) = val xs := by
  have hsplit := val_take_add_drop n xs
  rw [h] at hsplit
  exact hsplit.symm

theorem bnCmpPartWords_spec (as bs : Words w) : IsCmp (bnCmpPartWords as bs) (val as) (val bs) := by
  rw [bnCmpPartWords]
  split_ifs with hb ha
  · exact .inr (.inr ⟨rfl, val_lt_of_drop (any_ne_zero_iff.1 hb)⟩)
  · exact .inl ⟨rfl, val_lt_of_drop (any_ne_zero_iff.1 ha)⟩
  rw [any_ne_zero_iff, Nat.not_lt, Nat.le_zero] at ha hb
  have h := @bnCmpWords_spec w (as.take bs.length) (bs.take as.length)
    (by rw [length_take, length_take, Nat.min_comm])
  rwa [val_take_of_drop_eq_zero ha, val_take_of_drop_eq_zero hb] at h

theorem subLoop_append (c : Word w) (hlen : as.length = bs.length) (as' bs' : Words w) :
    subLoop c (as ++ as') (bs ++ bs') =
      ((subLoop c as bs).1 ++ (subLoop (subLoop c as bs).2 as' bs').1,
        (subLoop (subLoop c as bs).2 as' bs').2) := by
  induction as, bs, hlen using induction₂ generalizing c with
  | nil => rfl
  | cons a as b bs _ ih => simp [subLoop, ih]

theorem bit_add_bit (hpos : 0 < w) (hc : c.toNat ≤ 1) (a b : Word w) :
    (bit (a < a - c) + bit (a - c < a - c - b) : Word w) = bit (a.toNat < b.toNat + c.toNat) := by
  obtain ⟨hval, hle⟩ := sub_sub_spec hpos a b hc
  have hr := (a - c - b).isLt
  have ha := a.isLt
  obtain ⟨borrow, h⟩ := exists_eq_bit hpos hle
  rw [h, toNat_bit hpos] at hval
  rw [h]
  congr 1
  cases borrow with
  | false =>
    rw [if_neg Bool.false_ne_true] at hval
    exact (decide_eq_false (by omega)).symm
  | true =>
    rw [if_pos rfl] at hval
    exact (decide_eq_true (by omega)).symm

/-- Where a word of the minuend is missing, there is a borrow unless nothing is subtracted. -/
theorem negLoop_eq (hpos : 0 < w) (hc : c.toNat ≤ 1) (bs : Words w) :
    negLoop c bs = subLoop c (List.replicate bs.length 0#w) bs := by
  induction bs generalizing c with
  | nil => rfl
  | cons t bs ih =>
    have hborrow := bit_add_bit hpos hc 0#w t
    have hle := (sub_sub_spec hpos 0#w t hc).2
    have hnext : (if t ≠ 0#w then 1#w else c) = bit ((0#w).toNat < t.toNat + c.toNat) := by
      obtain ⟨b, rfl⟩ := exists_eq_bit hpos hc
      by_cases ht : t = 0#w
      · cases b <;> simp [ht, bit]
      · have hne : t.toNat ≠ 0 := fun h => ht (BitVec.eq_of_toNat_eq (by simpa using h))
        simp [ht, bit, hne]
    rw [hborrow] at hle
    simp only [negLoop, length_cons, replicate_succ, subLoop, hborrow, hnext, ih hle]
    rw [BitVec.sub_sub, BitVec.sub_sub, BitVec.add_comm t c]

theorem borrowLoop_eq (hpos : 0 < w) (hc : c.toNat ≤ 1) (as : Words w) :
    borrowLoop c as = subLoop c as (List.replicate as.length 0#w) := by
  induction as generalizing c with
  | nil => rfl
  | cons t as ih =>
    have hborrow := bit_add_bit hpos hc t 0#w
    have hle := (sub_sub_spec hpos t 0#w hc).2
    have hnext : (if t ≠ 0#w then 0#w else c) = bit (t.toNat < (0#w).toNat + c.toNat) := by
      obtain ⟨b, rfl⟩ := exists_eq_bit hpos hc
      by_cases ht : t = 0#w
      · cases b <;> simp [ht, bit]
      · have hne : t.toNat ≠ 0 := fun h => ht (BitVec.eq_of_toNat_eq (by simpa using h))
        cases b <;> simp [ht, bit, hne, toNat_one hpos]
    rw [hborrow] at hle
    simp only [borrowLoop, length_cons, replicate_succ, subLoop, hborrow, hnext, ih hle]
    rw [BitVec.sub_zero]

/-- Arrays of different lengths are subtracted as if the shorter one had zeros above it. -/
theorem bnSubPartWords_eq (hpos : 0 < w) (as bs : Words w) : bnSubPartWords as bs =
    bnSubWords (as ++ List.replicate (bs.length - as.length) 0#w)
      (bs ++ List.replicate (as.length - bs.length) 0#w) := by
  rw [bnSubPartWords]
  by_cases hlt : as.length < bs.length
  · have htake : as.length = (bs.take as.length).length := by
      rw [length_take_of_le hlt.le]
    have hc : (subLoop 0#w as (bs.take as.length)).2.toNat ≤ 1 :=
      (bnSubWords_spec hpos htake).2.1
    have hsub := subLoop_append 0#w htake (List.replicate (bs.drop as.length).length 0#w)
      (bs.drop as.length)
    rw [take_append_drop, ← negLoop_eq hpos hc] at hsub
    simp only [if_pos hlt, take_of_length_le hlt.le, Nat.sub_eq_zero_of_le hlt.le,
      replicate_zero, append_nil, ← length_drop]
    exact hsub.symm
  · rw [Nat.not_lt] at hlt
    have htake : (as.take bs.length).length = bs.length := length_take_of_le hlt
    have hc : (subLoop 0#w (as.take bs.length) bs).2.toNat ≤ 1 :=
      (bnSubWords_spec hpos htake).2.1
    have hsub := subLoop_append 0#w htake (as.drop bs.length)
      (List.replicate (as.drop bs.length).length 0#w)
    rw [take_append_drop, ← borrowLoop_eq hpos hc] at hsub
    simp only [if_neg (Nat.not_lt.2 hlt), take_of_length_le hlt, Nat.sub_eq_zero_of_le hlt,
      replicate_zero, append_nil, ← length_drop]
    exact hsub.symm

theorem bnSubPartWords_spec (hpos : 0 < w) (as bs : Words w) :
    (bnSubPartWords as bs).1.length = max as.length bs.length ∧
      (val bs ≤ val as → val (bnSubPartWords as bs).1 + val bs = val as) := by
  have hval (n : Nat) (xs : Words w) : val (xs ++ List.replicate n 0#w) = val xs := by
    rw [val_append, val_replicate_zero, Nat.mul_zero, Nat.add_zero]
  have hlen : (as ++ List.replicate (bs.length - as.length) 0#w).length =
      (bs ++ List.replicate (as.length - bs.length) 0#w).length := by
    simp only [length_append, length_replicate]
    omega
  rw [bnSubPartWords_eq hpos]
  refine ⟨?_, fun hle => ?_⟩
  · rw [(bnSubWords_spec hpos hlen).2.2, length_append, length_replicate]
    omega
  · have h := bnSubWords_of_le hpos hlen (by rwa [hval, hval])
    rw [hval, hval] at h
    exact h.1

end QuicTls.Bn
