import QuicTls.Crypto.Bn.Div
import QuicTls.Theory.LongDivision
import QuicTls.Verify.Bn.Lib

/-!
# Long division is exact

The estimate of a word of the quotient is at most one too large (`EstimateClose`), so one correction
is enough. `bnDiv_exact` is about everything that a caller can ask for.
-/

namespace QuicTls.Bn

open Limbs LongDivision Bignum List

variable {w : Nat} {d : Words w} {n0 n1 n2 d0 d1 : Word w} {divisor : Bignum w} {sdiv : Words w}
  {N len k : Nat} {st : DivState w}

/-! ### The estimate of a quotient word -/

theorem toNat_double (h l : Word w) : (h.toDWord <<< w ||| l.toDWord).toNat =
    h.toNat * 2 ^ w + l.toNat := by
  have hh := h.isLt
  have hl := l.isLt
  have hlt : h.toNat <<< w < 2 ^ (w + w) := by
    rw [Nat.shiftLeft_eq, Nat.pow_add]
    exact Nat.mul_lt_mul_of_pos_right hh (Nat.two_pow_pos w)
  rw [BitVec.toNat_or, BitVec.toNat_shiftLeft, toNat_toDWord, toNat_toDWord, Nat.mod_eq_of_lt hlt,
    ← Nat.shiftLeft_add_eq_or_of_lt hl, Nat.shiftLeft_eq]

theorem toNat_bnDivWords {h l d : Word w} (hd : h.toNat < d.toNat) :
    (bnDivWords h l d).toNat = (h.toNat * 2 ^ w + l.toNat) / d.toNat := by
  have hlt : (h.toNat * 2 ^ w + l.toNat) / d.toNat < 2 ^ w := by
    apply Nat.div_lt_of_lt_mul
    have hmul : (h.toNat + 1) * 2 ^ w ≤ d.toNat * 2 ^ w := Nat.mul_le_mul_right _ hd
    rw [Nat.add_mul] at hmul
    omega
  rw [bnDivWords, lw, BitVec.toNat_setWidth, BitVec.toNat_udiv, toNat_double, toNat_toDWord,
    Nat.mod_eq_of_lt hlt]

theorem toNat_lw (t : DWord w) : (lw t).toNat = t.toNat % 2 ^ w := by
  rw [lw, BitVec.toNat_setWidth]

theorem hw_double (h l : Word w) : hw (h.toDWord <<< w ||| l.toDWord) = h := by
  apply BitVec.eq_of_toNat_eq
  rw [toNat_hw, toNat_double, Nat.mul_comm, Nat.add_comm,
    Nat.add_mul_div_left _ _ (Nat.two_pow_pos w), Nat.div_eq_of_lt l.isLt, Nat.zero_add]

theorem lw_double (h l : Word w) : lw (h.toDWord <<< w ||| l.toDWord) = l := by
  apply BitVec.eq_of_toNat_eq
  rw [toNat_lw, toNat_double, Nat.mul_comm, Nat.add_comm, Nat.add_mul_mod_self_left,
    Nat.mod_eq_of_lt l.isLt]

theorem sub_toDWord (hpos : 0 < w) (t2 : DWord w) (d1 : Word w) :
    t2 - d1.toDWord =
      (if lw t2 < d1 then hw t2 - 1#w else hw t2).toDWord <<< w ||| (lw t2 - d1).toDWord := by
  have hone := toNat_one hpos
  have hsplit := lw_add_hw t2
  have ht2 := t2.isLt
  have hlow := sub_spec (lw t2) d1
  simp only [BitVec.lt_def] at hlow
  rw [BitVec.sub_eq_iff_eq_add]
  apply BitVec.eq_of_toNat_eq
  rw [BitVec.toNat_add, toNat_double, toNat_toDWord]
  by_cases hborrow : lw t2 < d1
  · rw [if_pos hborrow]
    rw [BitVec.lt_def] at hborrow
    have hhigh := sub_spec (hw t2) 1#w
    rw [hone] at hhigh
    have hover : (lw t2).toNat < (lw t2 - d1).toNat := by
      split at hlow <;> omega
    rw [if_pos hover] at hlow
    have hsum : (hw t2 - 1#w).toNat * 2 ^ w + (lw t2 - d1).toNat + d1.toNat =
        t2.toNat + 2 ^ (w + w) * (if hw t2 < hw t2 - 1#w then 1 else 0) := by
      linear_combination hsplit - 2 ^ w * hhigh - hlow
    rw [hsum, Nat.add_mul_mod_self_left, Nat.mod_eq_of_lt ht2]
  · rw [if_neg hborrow]
    rw [BitVec.lt_def] at hborrow
    have hover : ¬ (lw t2).toNat < (lw t2 - d1).toNat := by
      split at hlow <;> omega
    rw [if_neg hover] at hlow
    have hsum : (hw t2).toNat * 2 ^ w + (lw t2 - d1).toNat + d1.toNat = t2.toNat := by
      linear_combination hsplit - hlow
    rw [hsum, Nat.mod_eq_of_lt ht2]

/-- The corrections on two words are those on a double word. -/
theorem correctHL_eq (hpos : 0 < w) (n2 d0 d1 : Word w) (fuel : Nat) (q rem : Word w)
    (t2 : DWord w) :
    correctHL n2 d0 d1 fuel q rem (hw t2) (lw t2) = correctLL n2 d0 d1 fuel q rem t2 := by
  induction fuel generalizing q rem t2 with
  | zero => rfl
  | succ fuel ih =>
    have hsplit := lw_add_hw t2
    have htest : (hw t2 < rem ∨ hw t2 = rem ∧ lw t2 ≤ n2) ↔
        t2 ≤ rem.toDWord <<< w ||| n2.toDWord := by
      simp only [BitVec.le_def, toNat_double, ← hsplit, BitVec.lt_def, ← BitVec.toNat_inj]
      rcases Nat.lt_trichotomy (hw t2).toNat rem.toNat with hlt | heq | hgt
      · have hmul : 2 ^ w * ((hw t2).toNat + 1) ≤ 2 ^ w * rem.toNat := Nat.mul_le_mul_left _ hlt
        rw [Nat.mul_add] at hmul
        rw [Nat.mul_comm rem.toNat]
        exact iff_of_true (.inl hlt) (by omega)
      · rw [heq, Nat.mul_comm rem.toNat]
        omega
      · have hmul : 2 ^ w * (rem.toNat + 1) ≤ 2 ^ w * (hw t2).toNat := Nat.mul_le_mul_left _ hgt
        rw [Nat.mul_add] at hmul
        rw [Nat.mul_comm rem.toNat]
        exact iff_of_false (by omega) (by omega)
    have hnext := ih (q - 1#w) (rem + d0) (t2 - d1.toDWord)
    rw [sub_toDWord hpos, hw_double, lw_double, ← sub_toDWord hpos] at hnext
    simp only [correctHL, correctLL, htest, hnext]

/-- **The correction loop divides three words by two.** -/
theorem correctLL_spec (hpos : 0 < w) {fuel : Nat} {q rem : Word w} {t2 : DWord w}
    (hrem : q.toNat * d0.toNat + rem.toNat = n0.toNat * 2 ^ w + n1.toNat)
    (ht2 : t2.toNat = d1.toNat * q.toNat)
    (hq : (n0.toNat * 2 ^ w + n1.toNat) * 2 ^ w + n2.toNat <
      (q.toNat + 1) * (d0.toNat * 2 ^ w + d1.toNat)) (hfuel : 2 ^ w ≤ rem.toNat + fuel * d0.toNat) :
    (correctLL n2 d0 d1 fuel q rem t2).toNat * (d0.toNat * 2 ^ w + d1.toNat) ≤
        (n0.toNat * 2 ^ w + n1.toNat) * 2 ^ w + n2.toNat ∧
      (n0.toNat * 2 ^ w + n1.toNat) * 2 ^ w + n2.toNat <
        ((correctLL n2 d0 d1 fuel q rem t2).toNat + 1) * (d0.toNat * 2 ^ w + d1.toNat) := by
  have hone := toNat_one hpos
  induction fuel generalizing q rem t2 with
  | zero =>
    omega
  | succ fuel ih =>
    have hscaled : (q.toNat * d0.toNat + rem.toNat) * 2 ^ w =
        (n0.toNat * 2 ^ w + n1.toNat) * 2 ^ w := by
      rw [hrem]
    rw [correctLL]
    split
    · rename_i hle
      rw [BitVec.le_def, toNat_double, ht2] at hle
      exact ⟨by linarith only [hscaled, hle], hq⟩
    rename_i hgt
    rw [BitVec.le_def, toNat_double, ht2, Nat.not_le] at hgt
    have hqpos : 1 ≤ q.toNat := by
      rw [Nat.one_le_iff_ne_zero]
      intro hzero
      rw [hzero] at hgt
      exact absurd hgt (Nat.not_lt_zero _)
    have hpred : (q - 1#w).toNat = q.toNat - 1 := by
      rw [BitVec.toNat_sub_of_le, hone]
      rw [BitVec.le_def, hone]
      exact hqpos
    obtain ⟨p, hp⟩ : ∃ p, q.toNat = p + 1 := ⟨q.toNat - 1, by omega⟩
    rw [hp, Nat.add_sub_cancel] at hpred
    have hprev : (n0.toNat * 2 ^ w + n1.toNat) * 2 ^ w + n2.toNat <
        (p + 1) * (d0.toNat * 2 ^ w + d1.toNat) := by
      rw [hp] at hgt hscaled
      linarith only [hscaled, hgt]
    have hsum := add_spec rem d0
    dsimp only
    split_ifs with hover
    · rw [if_pos hover] at hsum
      rw [hpred]
      refine ⟨?_, hprev⟩
      have hplt : p < 2 ^ w := by
        omega
      have hd1 := d1.isLt
      have hpd : p * d1.toNat ≤ 2 ^ w * 2 ^ w := Nat.mul_le_mul hplt.le hd1.le
      have hsum2 : (rem.toNat + d0.toNat) * 2 ^ w = ((rem + d0).toNat + 2 ^ w * 1) * 2 ^ w := by
        rw [hsum]
      rw [hp] at hscaled
      have hpart := Nat.zero_le (2 ^ w * (rem + d0).toNat)
      linarith only [hscaled, hsum2, hpd, hpart]
    · rw [if_neg hover, Nat.mul_zero, Nat.add_zero] at hsum
      apply ih
      · rw [hpred, ← hsum]
        rw [hp] at hrem
        linear_combination hrem
      · rw [hpred]
        rw [hp] at ht2
        have hle : d1.toDWord ≤ t2 := by
          rw [BitVec.le_def, toNat_toDWord, ht2]
          exact Nat.le_mul_of_pos_right _ (Nat.succ_pos p)
        rw [BitVec.toNat_sub_of_le hle, toNat_toDWord, ht2, Nat.mul_add, Nat.mul_one,
          Nat.add_sub_cancel]
      · rw [hpred]
        exact hprev
      · linarith

/-- The estimate is not too small and at most one too large. -/
theorem quotientEstimate_spec (hpos : 0 < w) (llong : Bool) {M W D : Nat}
    (h : Leading (2 ^ w) M n0.toNat n1.toNat n2.toNat d0.toNat d1.toNat W D)
    (hnorm : 2 ^ w ≤ 2 * d0.toNat) (hW : W < 2 ^ w * D) :
    W < ((quotientEstimate llong n0 n1 n2 d0 d1).toNat + 1) * D ∧
      (quotientEstimate llong n0 n1 n2 d0 d1).toNat * D ≤ W + D := by
  have htwo : 2 ≤ 2 ^ w := Nat.one_lt_two_pow (by omega)
  have hle := h.top_le d1.isLt hW
  rw [quotientEstimate]
  split
  · rename_i heq
    subst heq
    rw [BitVec.toNat_allOnes, Nat.sub_add_cancel (Nat.two_pow_pos w)]
    exact ⟨hW, h.pred_mul_le hnorm d1.isLt htwo⟩
  rename_i hne
  have hlt : n0.toNat < d0.toNat := by
    apply Nat.lt_of_le_of_ne hle
    intro heq
    exact hne (BitVec.eq_of_toNat_eq heq)
  have hq := toNat_bnDivWords (l := n1) hlt
  have hd0 : 0 < d0.toNat := by omega
  have hdiv := Nat.div_add_mod (n0.toNat * 2 ^ w + n1.toNat) d0.toNat
  have hmod := Nat.mod_lt (n0.toNat * 2 ^ w + n1.toNat) hd0
  have hword : n1 - bnDivWords n0 n1 d0 * d0 =
      BitVec.ofNat w ((n0.toNat * 2 ^ w + n1.toNat) % d0.toNat) := by
    rw [BitVec.sub_eq_iff_eq_add]
    apply BitVec.eq_of_toNat_eq
    rw [BitVec.toNat_add, BitVec.toNat_ofNat, BitVec.toNat_mul, ← Nat.add_mod, hq,
      Nat.mul_comm _ d0.toNat, Nat.add_comm, hdiv, Nat.mul_comm n0.toNat,
      Nat.mul_add_mod, Nat.mod_eq_of_lt n1.isLt]
  have hrem : (n1 - bnDivWords n0 n1 d0 * d0).toNat = (n0.toNat * 2 ^ w + n1.toNat) % d0.toNat := by
    rw [hword, BitVec.toNat_ofNat, Nat.mod_eq_of_lt (hmod.trans d0.isLt)]
  have ht2 : (d1.toDWord * (bnDivWords n0 n1 d0).toDWord).toNat =
      d1.toNat * (bnDivWords n0 n1 d0).toNat := by
    have hfit := mul_add_add_lt d1 (bnDivWords n0 n1 d0) 0#w 0#w
    rw [BitVec.toNat_mul, toNat_toDWord, toNat_toDWord, Nat.mod_eq_of_lt (by simpa using hfit)]
  have hstart : (bnDivWords n0 n1 d0).toNat * d0.toNat + (n1 - bnDivWords n0 n1 d0 * d0).toNat =
      n0.toNat * 2 ^ w + n1.toNat := by
    rw [hrem, hq, Nat.mul_comm, hdiv]
  have hlarge : (n0.toNat * 2 ^ w + n1.toNat) * 2 ^ w + n2.toNat <
      ((bnDivWords n0 n1 d0).toNat + 1) * (d0.toNat * 2 ^ w + d1.toNat) := by
    rw [← hrem] at hmod
    have hn2 := n2.isLt
    have hpart := Nat.zero_le (((bnDivWords n0 n1 d0).toNat + 1) * d1.toNat)
    have hnext : ((n1 - bnDivWords n0 n1 d0 * d0).toNat + 1) * 2 ^ w ≤ d0.toNat * 2 ^ w :=
      Nat.mul_le_mul_right _ hmod
    rw [← hstart]
    linarith only [hn2, hpart, hnext]
  have hspec := correctLL_spec hpos hstart ht2 hlarge
    (Nat.le_add_left_of_le (Nat.le_mul_of_pos_right (2 ^ w) hd0))
  dsimp only
  rw [correctHL_eq hpos, ite_self]
  exact ⟨h.lt_mul hspec.2, h.mul_le hspec.1 (BitVec.isLt _).le hd0⟩

/-- The words that the estimate looks at lead the window and the divisor. -/
theorem leading_window {window : Words w} {n : Nat} (hdiv : sdiv.length = n + 2)
    (hlen : window.length = n + 3) :
    Leading (2 ^ w) ((2 ^ w) ^ n) (window.getD (n + 2) 0#w).toNat (window.getD (n + 1) 0#w).toNat
      (window.getD n 0#w).toNat (sdiv.getD (n + 1) 0#w).toNat (sdiv.getD n 0#w).toNat
      (val window) (val sdiv) := by
  have hwin := val_take_add_drop n window
  have hsd := val_take_add_drop n sdiv
  have hwlt := val_lt (window.take n)
  have hslt := val_lt (sdiv.take n)
  have hwn : (window.take n).length = n := by rw [length_take]; omega
  have hsn : (sdiv.take n).length = n := by rw [length_take]; omega
  rw [hwn] at hwin hwlt
  rw [hsn] at hsd hslt
  rw [val_drop_getD (by omega), val_drop_getD (by omega), val_drop_getD (by omega),
    drop_eq_nil_of_le (by omega), val_nil] at hwin
  rw [val_drop_getD (by omega), val_drop_getD (by omega), drop_eq_nil_of_le (by omega),
    val_nil] at hsd
  constructor <;> linarith only [hwin, hsd, hwlt, hslt]

theorem leading_window_one {window : Words w} (hdiv : sdiv.length = 1) (hlen : window.length = 2) :
    Leading (2 ^ w) 1 (window.getD 1 0#w).toNat (window.getD 0 0#w).toNat (0#w).toNat
      (sdiv.getD 0 0#w).toNat (0#w).toNat (val window * 2 ^ w) (val sdiv * 2 ^ w) := by
  obtain ⟨n1, n0, rfl⟩ := length_eq_two.1 hlen
  obtain ⟨d0, rfl⟩ := length_eq_one_iff.1 hdiv
  have hzero : (0#w).toNat = 0 := by simp
  simp only [getD_cons_succ, getD_cons_zero, val_cons, val_nil]
  constructor <;> linarith

theorem val_mask {b : Word w} (hb : b.toNat ≤ 1) (xs : Words w) :
    val (xs.map (· &&& (0#w - b))) = val xs * b.toNat := by
  rcases Nat.le_one_iff_eq_zero_or_eq_one.1 hb with h | h
  · have hmask : 0#w - b = 0#w := by
      rw [show b = 0#w from BitVec.eq_of_toNat_eq (by simpa using h), BitVec.sub_zero]
    rw [hmask, h, Nat.mul_zero]
    simp
  have hmask : 0#w - b = BitVec.allOnes w := by
    apply BitVec.eq_of_toNat_eq
    rw [BitVec.toNat_sub, h, BitVec.toNat_allOnes, BitVec.toNat_ofNat, Nat.zero_mod,
      Nat.add_zero, Nat.mod_eq_of_lt (by omega)]
  rw [hmask, h]
  simp

section

variable (hpos : 0 < w) (llong : Bool) {window : Words w} (hne : sdiv ≠ [])
  (hlen : window.length = sdiv.length + 1)
  (hnorm : 2 ^ w ≤ 2 * (sdiv.getD (sdiv.length - 1) 0#w).toNat) (hW : val window < 2 ^ w * val sdiv)
include hpos hne hlen hnorm hW

/-- **The estimate of a quotient word is at most one too large.** -/
theorem windowEstimate_spec :
    val window < ((windowEstimate llong window sdiv).toNat + 1) * val sdiv ∧
      (windowEstimate llong window sdiv).toNat * val sdiv ≤ val window + val sdiv := by
  have hB := Nat.two_pow_pos w
  rw [windowEstimate]
  match hn : sdiv.length with
  | 0 => exact absurd (eq_nil_of_length_eq_zero hn) hne
  | 1 =>
    rw [hn] at hnorm hlen
    have hscaled : val window * 2 ^ w < 2 ^ w * (val sdiv * 2 ^ w) := by
      rw [← Nat.mul_assoc]
      exact Nat.mul_lt_mul_of_pos_right hW hB
    have h := quotientEstimate_spec hpos llong (leading_window_one hn hlen) hnorm hscaled
    rw [← Nat.mul_assoc, ← Nat.mul_assoc, ← Nat.add_mul] at h
    exact ⟨Nat.lt_of_mul_lt_mul_right h.1, Nat.le_of_mul_le_mul_right h.2 hB⟩
  | n + 2 =>
    rw [hn] at hnorm hlen
    have h := quotientEstimate_spec hpos llong (leading_window hn hlen) hnorm hW
    simpa only [Nat.add_sub_cancel, Nat.add_one_sub_one, if_neg (show ¬ n + 2 = 1 by omega)] using h

/-- **One step of the loop divides its window.** -/
theorem divWindow_spec :
    ∃ q window', divWindow llong window sdiv = some (q, window') ∧
      q.toNat = val window / val sdiv ∧ val window' = val window % val sdiv ∧
      window'.length = sdiv.length + 1 := by
  obtain ⟨hlt, hle⟩ := windowEstimate_spec hpos llong hne hlen hnorm hW
  have hDlt := val_lt sdiv
  obtain ⟨hmulval, hmullen⟩ := bnMulWords_spec (windowEstimate llong window sdiv) sdiv
  rw [divWindow]
  dsimp only
  generalize hest : windowEstimate llong window sdiv = q at *
  generalize bnMulWords sdiv q = tmp at *
  have htmp : val (tmp.1 ++ [tmp.2]) = val sdiv * q.toNat := by
    rw [val_concat, hmullen, hmulval]
  have htmplen : window.length = (tmp.1 ++ [tmp.2]).length := by
    rw [hlen, length_append, hmullen, length_singleton]
  obtain ⟨hsub, hb, hsublen⟩ := bnSubWords_spec hpos htmplen
  generalize bnSubWords window (tmp.1 ++ [tmp.2]) = wnum at *
  have hwlen : (wnum.1.take sdiv.length).length = sdiv.length := by
    rw [length_take, hsublen]
    omega
  have htop : val wnum.1 = val (wnum.1.take sdiv.length) +
      (2 ^ w) ^ sdiv.length * (wnum.1.getD sdiv.length 0#w).toNat := by
    rw [val_take_add_drop sdiv.length wnum.1, hwlen, val_drop_getD (by omega),
      drop_eq_nil_of_le (by omega), val_nil, Nat.mul_zero, Nat.add_zero]
  have hmasklen : (wnum.1.take sdiv.length).length = (sdiv.map (· &&& (0#w - wnum.2))).length := by
    rw [hwlen, length_map]
  obtain ⟨hadd, hc, haddlen⟩ := bnAddWords_spec hpos hmasklen
  generalize bnAddWords (wnum.1.take sdiv.length) (sdiv.map (· &&& (0#w - wnum.2))) = sum at *
  rw [val_mask hb, hwlen] at hadd
  rw [htmp, hlen] at hsub
  have hwlt : val wnum.1 < (2 ^ w) ^ (sdiv.length + 1) := by
    rw [← hlen, ← hsublen]
    exact val_lt _
  obtain ⟨hbq, hquot, hback⟩ := digit_borrow hlt hle hb hsub hwlt
  have hrlt : val window % val sdiv < (2 ^ w) ^ sdiv.length :=
    (Nat.mod_lt _ (Nat.pos_of_ne_zero fun h => by simp [h] at hW)).trans hDlt
  have hlolt : val sum.1 < (2 ^ w) ^ sdiv.length := by
    rw [← hwlen, ← haddlen]
    exact val_lt _
  have hsum : val sum.1 + (2 ^ w) ^ sdiv.length *
        ((wnum.1.getD sdiv.length 0#w).toNat + sum.2.toNat) =
      val window % val sdiv + (2 ^ w) ^ sdiv.length * (2 ^ w * wnum.2.toNat) := by
    linear_combination hadd + hback - htop
  obtain ⟨hlo, htopc⟩ := split_unique hlolt hrlt hsum
  have hzero : wnum.1.getD sdiv.length 0#w + sum.2 = 0#w := by
    apply BitVec.eq_of_toNat_eq
    rw [BitVec.toNat_add, htopc]
    simp
  have hqsub : (q - wnum.2).toNat = q.toNat - wnum.2.toNat :=
    BitVec.toNat_sub_of_le (BitVec.le_def.2 hbq)
  rw [if_pos hzero]
  refine ⟨_, _, rfl, by rw [hqsub, hquot], ?_, ?_⟩
  · rw [hzero, val_concat, hlo]
    simp
  · rw [length_append, haddlen, hwlen, length_singleton]

/-- An estimate is the quotient word or one more. -/
def EstimateClose (sdiv : Words w) (e : Words w × Word w) : Prop :=
  val e.1 / val sdiv ≤ e.2.toNat ∧ e.2.toNat ≤ val e.1 / val sdiv + 1

theorem estimateClose : EstimateClose sdiv (window, windowEstimate llong window sdiv) := by
  obtain ⟨hlt, hle⟩ := windowEstimate_spec hpos llong hne hlen hnorm hW
  rw [EstimateClose]
  dsimp only
  rcases digit_cases hlt hle with ⟨_, hdiv⟩ | ⟨_, hq, hdiv⟩ <;> omega

end

/-- The state with `k` words of the quotient to be found, dividing `N`. -/
structure DivInv (sdiv : Words w) (N len k : Nat) (st : DivState w) : Prop where
  num : val st.snum + val sdiv * ((2 ^ w) ^ k * val st.res) = N
  rem : val (st.snum.drop k) < val sdiv
  length : st.snum.length = len
  close : ∀ e ∈ st.estimates, EstimateClose sdiv e

theorem DivInv.window (h : DivInv sdiv N len (k + 1) st) (hk : k + 1 + sdiv.length ≤ len) :
    (windowAt sdiv st.snum k).length = sdiv.length + 1 ∧
      val (windowAt sdiv st.snum k) = val (st.snum.drop k) ∧
      val (st.snum.drop k) < 2 ^ w * val sdiv := by
  have hklt : k < st.snum.length := by
    rw [h.length]
    omega
  have hlt : val (st.snum.drop k) < 2 ^ w * val sdiv := by
    rw [val_drop_getD hklt]
    have hrem : 2 ^ w * (val (st.snum.drop (k + 1)) + 1) ≤ 2 ^ w * val sdiv :=
      Nat.mul_le_mul_left _ h.rem
    rw [Nat.mul_add] at hrem
    omega
  refine ⟨?_, val_take_of_lt ?_, hlt⟩
  · rw [windowAt, length_take, length_drop, h.length]
    omega
  · rw [Nat.pow_succ, Nat.mul_comm]
    exact hlt.trans (Nat.mul_lt_mul_of_pos_left (val_lt sdiv) (Nat.two_pow_pos w))

section

variable (hpos : 0 < w) (llong : Bool) (hne : sdiv ≠ [])
  (hnorm : 2 ^ w ≤ 2 * (sdiv.getD (sdiv.length - 1) 0#w).toNat)
include hpos hne hnorm

/-- One word of the quotient is found, and the invariant holds with one word less to find. -/
theorem DivInv.step (h : DivInv sdiv N len (k + 1) st) (hk : k + 1 + sdiv.length ≤ len) :
    ∃ q window', divWindow llong (windowAt sdiv st.snum k) sdiv = some (q, window') ∧
      DivInv sdiv N len k
        { snum := st.snum.take k ++ window' ++ st.snum.drop (k + (sdiv.length + 1))
          res := q :: st.res
          estimates := st.estimates ++ [(windowAt sdiv st.snum k,
              windowEstimate llong (windowAt sdiv st.snum k) sdiv)] } := by
  obtain ⟨hlen, hval, hlt⟩ := h.window hk
  obtain ⟨q, window', hwin, hq, hwval, hwlen⟩ :=
    divWindow_spec hpos llong hne hlen hnorm (hval ▸ hlt)
  have hslen := h.length
  have htake : (st.snum.take k).length = k := by
    rw [length_take]
    omega
  have hhigh : val (st.snum.drop (k + (sdiv.length + 1))) = 0 := by
    have hsplit := val_take_add_drop (sdiv.length + 1) (st.snum.drop k)
    rw [← windowAt, hlen, drop_drop] at hsplit
    have hpow := Nat.pow_pos (n := sdiv.length + 1) (Nat.two_pow_pos w)
    rcases Nat.eq_zero_or_pos (val (st.snum.drop (k + (sdiv.length + 1)))) with hz | hp
    · exact hz
    · have := Nat.mul_pos hpow hp
      omega
  have hnew : val (st.snum.take k ++ window' ++ st.snum.drop (k + (sdiv.length + 1))) =
      val (st.snum.take k) + (2 ^ w) ^ k * (val (st.snum.drop k) % val sdiv) := by
    rw [val_append, val_append, hhigh, Nat.mul_zero, Nat.add_zero, htake, hwval, hval]
  refine ⟨q, window', hwin, ?_, ?_, ?_, ?_⟩
  · have hold := val_take_add_drop k st.snum
    have hdiv := Nat.div_add_mod (val (st.snum.drop k)) (val sdiv)
    have hnum := h.num
    rw [htake] at hold
    rw [hnew, val_cons, hq, hval]
    linear_combination hnum - hold + (2 ^ w) ^ k * hdiv
  · rw [append_assoc, drop_append_of_le_length htake.ge, drop_eq_nil_of_le htake.le,
      nil_append, val_append, hhigh, Nat.mul_zero, hwval]
    exact Nat.mod_lt _ (Nat.zero_lt_of_lt h.rem)
  · simp only [length_append, length_drop]
    omega
  · exact forall_mem_append.2 ⟨h.close, forall_mem_singleton.2
      (estimateClose hpos llong hne hlen hnorm (hval ▸ hlt))⟩

/-- **The loop never fails its assertion** and keeps the invariant. -/
theorem divLoop_spec (h : DivInv sdiv N len k st) (hk : k + sdiv.length ≤ len) :
    ∃ st', divLoop llong sdiv k st = some st' ∧ DivInv sdiv N len 0 st' ∧
      st'.estimates.length = st.estimates.length + k ∧ st'.res.length = st.res.length + k := by
  induction k generalizing st with
  | zero => exact ⟨st, rfl, h, rfl, rfl⟩
  | succ k ih =>
    obtain ⟨q, window', hwin, hinv⟩ := h.step hpos llong hne hnorm hk
    obtain ⟨st', hloop, hend, hcount, hres⟩ := ih hinv (by omega)
    refine ⟨st', ?_, hend, ?_, ?_⟩
    · simp only [divLoop, hwin, hloop]
    · rw [hcount, length_append, length_singleton]
      omega
    · rw [hres, length_cons]
      omega

end

/-! ### The whole division -/

theorem getLastD_eq (hne : d ≠ []) : d.getLastD 0#w = d.getLast hne := by
  rw [getLastD_eq_getLast?, getLast?_eq_getLast_of_ne_nil hne, Option.getD_some]

/-- The aligned divisor is a multiple of the divisor and its first bit is set. -/
theorem bnLeftAlign_spec (hw : WordSize w) (hne : d ≠ []) (hlast : d.getLast? ≠ some 0#w) :
    (bnLeftAlign d).2 < w ∧ val (bnLeftAlign d).1 = val d * 2 ^ (bnLeftAlign d).2 ∧
      (bnLeftAlign d).1.length = d.length ∧
      2 ^ (w - 1) * (2 ^ w) ^ (d.length - 1) ≤ val (bnLeftAlign d).1 := by
  have htop : d.getLast hne ≠ 0#w := by
    intro hzero
    apply hlast
    rw [getLast?_eq_getLast_of_ne_nil hne, hzero]
  have hlow := le_val_of_getLast hne
  have hhigh := val_lt_of_getLast hne
  have hn : d.length = d.length - 1 + 1 := by
    have := length_pos_of_ne_nil hne
    omega
  obtain ⟨hbit, hlt, hbpos⟩ := bnNumBitsWord_spec hw htop
  rw [bnLeftAlign, getLastD_eq hne]
  generalize bnNumBitsWord (d.getLast hne) = bits at *
  have hle : bits - 1 < w :=
    (Nat.pow_lt_pow_iff_right (by decide)).1 (hbit.trans_lt (d.getLast hne).isLt)
  have hshift : w - bits < w := by omega
  have hrb : bits % w = (w - (w - bits)) % w := by
    rw [Nat.sub_sub_self (by omega)]
  rw [hrb]
  obtain ⟨hval, _, hlen⟩ := lshiftLoop_spec hw hshift (m := 0#w) (by simp) d
  generalize lshiftLoop (w - bits) ((w - (w - bits)) % w) 0#w d = shifted at *
  have hfits : val d * 2 ^ (w - bits) < (2 ^ w) ^ d.length :=
    calc val d * 2 ^ (w - bits)
        < ((d.getLast hne).toNat + 1) * (2 ^ w) ^ (d.length - 1) * 2 ^ (w - bits) :=
          Nat.mul_lt_mul_of_pos_right hhigh (Nat.two_pow_pos _)
      _ ≤ 2 ^ bits * (2 ^ w) ^ (d.length - 1) * 2 ^ (w - bits) := by gcongr; exact hlt
      _ = 2 ^ bits * 2 ^ (w - bits) * (2 ^ w) ^ (d.length - 1) := by ring
      _ = (2 ^ w) ^ d.length := by
        rw [← Nat.pow_add, Nat.add_sub_cancel' (by omega), hn, Nat.pow_succ, Nat.mul_comm,
          Nat.add_sub_cancel]
  have hcarry : shifted.2.toNat = 0 := by
    by_contra hne
    have := Nat.le_mul_of_pos_right ((2 ^ w) ^ d.length) (Nat.pos_of_ne_zero hne)
    simp only [BitVec.toNat_ofNat, Nat.zero_mod] at hval
    omega
  rw [hcarry, BitVec.toNat_ofNat, Nat.zero_mod, Nat.mul_zero, Nat.add_zero] at hval
  refine ⟨hshift, hval, hlen, ?_⟩
  rw [hval]
  calc 2 ^ (w - 1) * (2 ^ w) ^ (d.length - 1)
      = 2 ^ (bits - 1) * (2 ^ w) ^ (d.length - 1) * 2 ^ (w - bits) := by
        rw [show w - 1 = bits - 1 + (w - bits) by omega]
        ring
    _ ≤ (d.getLast hne).toNat * (2 ^ w) ^ (d.length - 1) * 2 ^ (w - bits) := by gcongr
    _ ≤ val d * 2 ^ (w - bits) := Nat.mul_le_mul_right _ hlow

theorem two_pow_le_top (hpos : 0 < w) {xs : Words w} (hne : xs ≠ [])
    (h : 2 ^ (w - 1) * (2 ^ w) ^ (xs.length - 1) ≤ val xs) :
    2 ^ w ≤ 2 * (xs.getD (xs.length - 1) 0#w).toNat := by
  have hlen := length_pos_of_ne_nil hne
  have hlast : xs.getD (xs.length - 1) 0#w = xs.getLast hne := by
    rw [getLast_eq_getElem, getD_eq_getElem?_getD, getElem?_eq_getElem (by omega), Option.getD_some]
  have hlt := Nat.lt_of_mul_lt_mul_right (h.trans_lt (val_lt_of_getLast hne))
  have hpow : 2 ^ w = 2 ^ (w - 1) * 2 := by
    rw [← Nat.pow_succ, Nat.succ_eq_add_one, Nat.sub_add_cancel hpos]
  rw [hlast]
  omega

/-- The copy of the dividend: shifted, and longer than the divisor. -/
def alignedNum (num : Bignum w) (shift divN : Nat) : Words w :=
  let snum := (bnLshiftFixedTop num shift).d
  if snum.length ≤ divN then snum ++ List.replicate (divN - snum.length + 1) 0#w else snum

theorem alignedNum_spec (hw : WordSize w) (num : Bignum w) (shift divN : Nat) :
    val (alignedNum num shift divN) = num.toNat * 2 ^ shift ∧
      divN < (alignedNum num shift divN).length ∧
      num.top < (alignedNum num shift divN).length := by
  have hval : val (bnLshiftFixedTop num shift).d = num.toNat * 2 ^ shift :=
    toNat_bnLshiftFixedTop hw num shift
  have hlen := length_bnLshiftFixedTop hw num shift
  generalize shift / w = words at hlen
  rw [alignedNum]
  split
  · rw [val_append, val_replicate_zero, length_append, length_replicate]
    exact ⟨hval, by omega, by omega⟩
  · exact ⟨hval, by omega, by omega⟩

/-- The invariant before the loop: the quotient has no words yet. -/
theorem DivInv.init (hw : WordSize w) (num : Bignum w) {shift : Nat}
    (hshift : shift < w) (hnorm : 2 ^ (w - 1) * (2 ^ w) ^ (sdiv.length - 1) ≤ val sdiv) :
    DivInv sdiv (num.toNat * 2 ^ shift) (alignedNum num shift sdiv.length).length
      ((alignedNum num shift sdiv.length).length - sdiv.length)
      ⟨alignedNum num shift sdiv.length, [], []⟩ := by
  obtain ⟨hval, hdivN, htop⟩ := alignedNum_spec hw num shift sdiv.length
  refine ⟨by simp [hval], ?_, rfl, by simp⟩
  generalize alignedNum num shift sdiv.length = snum at *
  rw [val_drop_eq_div (Nat.sub_le _ _), hval]
  apply Nat.div_lt_of_lt_mul
  calc num.toNat * 2 ^ shift < (2 ^ w) ^ num.top * 2 ^ shift :=
        Nat.mul_lt_mul_of_pos_right (val_lt num.d) (Nat.two_pow_pos _)
    _ ≤ (2 ^ w) ^ (snum.length - sdiv.length + (sdiv.length - 1)) * 2 ^ (w - 1) := by
        gcongr
        · exact Nat.one_le_two_pow
        · omega
        · decide
        · omega
    _ = (2 ^ w) ^ (snum.length - sdiv.length) *
          (2 ^ (w - 1) * (2 ^ w) ^ (sdiv.length - 1)) := by
        ring
    _ ≤ (2 ^ w) ^ (snum.length - sdiv.length) * val sdiv := Nat.mul_le_mul_left _ hnorm

theorem tdiv_sign (b c : Bool) (x y : Nat) :
    (if b ^^ c then -((x / y : Nat) : Int) else (x / y : Nat)) =
      (if b then -(x : Int) else x).tdiv (if c then -(y : Int) else y) := by
  cases b <;> cases c <;> simp

theorem tmod_sign (b c : Bool) (x y : Nat) :
    (if b then -((x % y : Nat) : Int) else (x % y : Nat)) =
      (if b then -(x : Int) else x).tmod (if c then -(y : Int) else y) := by
  rw [Int.ofNat_tmod]
  cases b <;> cases c <;>
    simp only [Bool.false_eq_true, if_false, if_true, Int.neg_tmod, Int.tmod_neg]

/-- **The truncated division**, never failing the assertion. -/
theorem bnDivFixedTop_spec (hw : WordSize w) (llong : Bool) (num : Bignum w) (hne : divisor.d ≠ [])
    (hlast : divisor.d.getLast? ≠ some 0#w) :
    ∃ r, bnDivFixedTop llong num divisor = some r ∧
      r.dv.toInt = num.toInt.tdiv divisor.toInt ∧ r.rm.toInt = num.toInt.tmod divisor.toInt ∧
      r.sdiv = (bnLeftAlign divisor.d).1 ∧ (∀ e ∈ r.estimates, EstimateClose r.sdiv e) ∧
      r.estimates.length = r.dv.d.length := by
  obtain ⟨hshift, hsdiv, hslen, hnorm⟩ := bnLeftAlign_spec hw hne hlast
  have hsne : (bnLeftAlign divisor.d).1 ≠ [] := by
    rw [← length_pos_iff, hslen, length_pos_iff]
    exact hne
  rw [← hslen] at hnorm
  have hinit := DivInv.init hw num hshift hnorm
  have hdivN := (alignedNum_spec hw num (bnLeftAlign divisor.d).2
    (bnLeftAlign divisor.d).1.length).2.1
  obtain ⟨st, hloop, hend, hcount, hres⟩ := divLoop_spec hw.pos llong hsne
    (two_pow_le_top hw.pos hsne hnorm) hinit (by omega)
  have hpow := Nat.two_pow_pos (bnLeftAlign divisor.d).2
  have hnum := hend.num
  have hrem := hend.rem
  rw [Nat.pow_zero, Nat.one_mul] at hnum
  rw [drop_zero] at hrem
  -- what is left in the dividend is below the divisor, so it fits in its words
  have htake : val (st.snum.take (bnLeftAlign divisor.d).1.length) = val st.snum :=
    val_take_of_lt (hrem.trans (val_lt _))
  rw [hsdiv, ← Bignum.toNat] at hrem hnum
  have hspos : 0 < divisor.toNat * 2 ^ (bnLeftAlign divisor.d).2 := Nat.zero_lt_of_lt hrem
  have hdv : val st.res = num.toNat / divisor.toNat := by
    rw [← Nat.mul_div_mul_right num.toNat divisor.toNat hpow, ← hnum,
      Nat.add_mul_div_left _ _ hspos, Nat.div_eq_of_lt hrem, Nat.zero_add]
  have hrm : val st.snum = num.toNat % divisor.toNat * 2 ^ (bnLeftAlign divisor.d).2 := by
    rw [← Nat.mul_mod_mul_right, ← hnum, Nat.add_mul_mod_self_left, Nat.mod_eq_of_lt hrem]
  refine ⟨_, by rw [bnDivFixedTop]; dsimp only; rw [← alignedNum, hloop], ?_, ?_, rfl, hend.close,
    hcount.trans hres.symm⟩
  · rw [toInt, Bignum.toNat, hdv, tdiv_sign, ← toInt, ← toInt]
  · rw [toInt_bnRshiftFixedTop hw, toInt, Bignum.toNat, htake, hrm]
    rw [toInt, toInt, ← tmod_sign, Nat.cast_mul, Nat.cast_pow, Nat.cast_ofNat]
    split
    · rw [Int.neg_tdiv, Int.mul_tdiv_cancel _ (by positivity)]
    · rw [Int.mul_tdiv_cancel _ (by positivity)]

/-- `q` and `r` are the quotient of `num` by `divisor`, truncated towards zero, and its remainder,
without leading zero words and without a negative zero. -/
structure Truncated (num divisor q r : Bignum w) : Prop where
  eq : num.toInt = q.toInt * divisor.toInt + r.toInt
  rem_lt : |r.toInt| < |divisor.toInt|
  rem_sign : r.toInt = 0 ∨ r.toInt.sign = num.toInt.sign
  quot : q.toInt = num.toInt.tdiv divisor.toInt
  quot_normal : q.Normal
  rem_normal : r.Normal

theorem truncated_of_tdiv {num q r : Bignum w} (hne : divisor.toInt ≠ 0)
    (hq : q.toInt = num.toInt.tdiv divisor.toInt) (hr : r.toInt = num.toInt.tmod divisor.toInt) :
    Truncated num divisor (bnCorrectTop q) (bnCorrectTop r) := by
  rw [← toInt_bnCorrectTop] at hq hr
  refine ⟨?_, ?_, ?_, hq, normal_bnCorrectTop q, normal_bnCorrectTop r⟩
  · rw [hq, hr, Int.mul_comm]
    exact (Int.mul_tdiv_add_tmod _ _).symm
  · rw [hr, Int.abs_eq_natAbs, Int.abs_eq_natAbs, Int.natAbs_tmod]
    exact_mod_cast Nat.mod_lt _ (Int.natAbs_pos.2 hne)
  · rw [hr, or_iff_not_imp_left]
    intro hne
    rw [Int.sign_tmod, if_neg (by rwa [Int.dvd_iff_tmod_eq_zero])]

section Variables

variable {ι : Type} [DecidableEq ι]

theorem store_self (v : ι) (a : Bignum w) (σ : ι → Bignum w) : store (some v) a σ v = a :=
  if_pos rfl

theorem store_of_ne {r v : ι} (hv : v ≠ r) (a : Bignum w) (σ : ι → Bignum w) :
    store (some r) a σ v = σ v := if_neg hv

theorem store_eq {dv rm : Option ι} (hdistinct : ∀ v, dv = some v → rm ≠ some v) (σ : ι → Bignum w)
    (q r : Bignum w) :
    (∀ v, dv = some v → store rm r (store dv q σ) v = q) ∧
      (∀ v, rm = some v → store rm r (store dv q σ) v = r) ∧
      ∀ v, dv ≠ some v → rm ≠ some v → store rm r (store dv q σ) v = σ v := by
  refine ⟨?_, ?_, ?_⟩
  · rintro v rfl
    cases rm with
    | none => simp [store]
    | some u =>
      have hne : v ≠ u := by
        rintro rfl
        exact hdistinct v rfl rfl
      simp [store, hne]
  · rintro v rfl
    simp [store]
  · cases dv <;> cases rm <;> simp_all [store, eq_comm]

/-- **Long division is exact**, whatever results are asked for and whichever of them overwrites an
operand. The assertion holds in every step, where the estimate is at most one too large. -/
theorem bnDiv_exact (hw : WordSize w) (llong : Bool) (dv rm : Option ι)
    (hdistinct : ∀ v, dv = some v → rm ≠ some v) (num divisor : ι) {σ : ι → Bignum w}
    (hnorm : (σ divisor).Normal) (hne : (σ divisor).toInt ≠ 0) :
    ∃ σ' r, bnDiv llong dv rm num divisor σ = some σ' ∧
      Truncated (σ num) (σ divisor) (bnCorrectTop r.dv) (bnCorrectTop r.rm) ∧
      (∀ v, dv = some v → σ' v = bnCorrectTop r.dv) ∧
      (∀ v, rm = some v → σ' v = bnCorrectTop r.rm) ∧
      (∀ v, dv ≠ some v → rm ≠ some v → σ' v = σ v) ∧
      bnDivFixedTop llong (σ num) (σ divisor) = some r ∧
      r.sdiv = (bnLeftAlign (σ divisor).d).1 ∧ r.estimates.length = r.dv.d.length ∧
      ∀ e ∈ r.estimates, EstimateClose r.sdiv e := by
  have hd : (σ divisor).d ≠ [] := by
    intro hnil
    apply hne
    simp [toInt, Bignum.toNat, hnil]
  have hlast := hnorm.last
  obtain ⟨r, hdiv, hq, hr, hsdiv, hclose, hcount⟩ := bnDivFixedTop_spec hw llong (σ num) hd hlast
  obtain ⟨hdv, hrm, hother⟩ := store_eq hdistinct σ (bnCorrectTop r.dv) (bnCorrectTop r.rm)
  refine ⟨_, r, ?_, truncated_of_tdiv hne hq hr, hdv, hrm, hother, hdiv, hsdiv, hcount, hclose⟩
  have hzero : ¬ (σ divisor).isZero = true := by
    simpa [isZero, Bignum.top] using hd
  have htop : (σ divisor).d.getLastD 0#w ≠ 0#w := by
    rw [getLastD_eq hd]
    intro h
    apply hlast
    rw [getLast?_eq_getLast_of_ne_nil hd, h]
  rw [bnDiv, if_neg hzero, if_neg htop, hdiv]

/-- The quotient in place of the divisor and the remainder in place of the dividend. -/
theorem bnDiv_exact_in_place :
    let σ : Bool → Bignum 32 := fun v =>
      bif v then ⟨[7#32, 5#32, 1#32], true⟩ else ⟨[3#32, 2#32], false⟩
    ∃ σ', bnDiv true (some false) (some true) true false σ = some σ' ∧
      Truncated (σ true) (σ false) (σ' false) (σ' true) := by
  intro σ
  obtain ⟨σ', r, hdiv, htrunc, hdv, hrm, _⟩ :=
    bnDiv_exact ⟨by decide, by decide⟩ true (some false) (some true) (by decide) true false (σ := σ)
      (by decide) (by decide)
  refine ⟨σ', hdiv, ?_⟩
  rw [hdv false rfl, hrm true rfl]
  exact htrunc

end Variables

end QuicTls.Bn
