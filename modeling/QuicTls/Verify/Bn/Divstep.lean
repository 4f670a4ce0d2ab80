import QuicTls.Crypto.Bn.Divstep
import QuicTls.Theory.Divstep
import QuicTls.Verify.Bn.Add
import QuicTls.Verify.Bn.Div

/-!
# Greatest common divisors are exact

`BN_gcd` makes a fixed number of steps, with masks. They follow the steps on integers of
Theory/Divstep, which are enough to reach zero (`bn_gcd_exact`).
-/

namespace QuicTls.Bn

open Limbs Bignum List

variable {w : Nat}

theorem toInt_eq_zero_of_isZero {a : Bignum w} (h : a.isZero = true) : a.toInt = 0 := by
  have hnil : a.d = [] := by simpa [isZero, top] using h
  simp [toInt, Bignum.toNat, hnil]

theorem lshift1Loop_eq (hw : WordSize w) (c : Word w) (ap : Words w) :
    lshift1Loop c ap = lshiftLoop 1 ((w - 1) % w) c ap := by
  have h16 := hw.le16
  have h64 := hw.le64
  rw [Nat.mod_eq_of_lt (by omega)]
  induction ap generalizing c with
  | nil => rfl
  | cons t ap ih =>
    rw [lshift1Loop, lshiftLoop, shiftMask_pos hw (by omega) (by omega), BitVec.and_allOnes, ih]

/-- `BN_lshift1` doubles. -/
theorem bnLshift1_spec (hw : WordSize w) {a : Bignum w} (ha : a.Normal) :
    (bnLshift1 a).Normal ∧ (bnLshift1 a).toInt = 2 * a.toInt := by
  have h16 := hw.le16
  obtain ⟨hval, hc, hlen⟩ := @lshiftLoop_spec w 1 hw (by omega) 0#w (by simp) a.d
  rw [← lshift1Loop_eq hw] at hval hc hlen
  simp only [BitVec.toNat_ofNat, Nat.zero_mod, Nat.add_zero, pow_one] at hval
  have hdef : bnLshift1 a = ⟨(lshift1Loop 0#w a.d).1 ++
      if (lshift1Loop 0#w a.d).2 = 0#w then [] else [(lshift1Loop 0#w a.d).2], a.neg⟩ := rfl
  generalize lshift1Loop 0#w a.d = p at hval hc hlen hdef
  have htoNat : (bnLshift1 a).toNat = 2 * a.toNat := by
    rw [hdef, Bignum.toNat, Bignum.toNat, mul_comm, ← hval]
    split
    · rename_i hzero
      rw [hzero]
      simp
    · rw [val_append, hlen, val_singleton]
  have hlast : (bnLshift1 a).d.getLast? ≠ some 0#w := by
    by_cases hzero : p.2 = 0#w
    · by_cases hne : a.d = []
      · rw [hne, length_nil, length_eq_zero_iff] at hlen
        simp [hdef, hzero, hlen]
      apply getLast?_ne_zero_of_le
      have hle := pow_le_val hne ha.last
      have hsame : (bnLshift1 a).d.length = a.d.length := by simp [hdef, hzero, hlen]
      rw [hsame]
      have : val (bnLshift1 a).d = 2 * val a.d := htoNat
      omega
    · simp [hdef, hzero]
  have hneg : (bnLshift1 a).neg = a.neg := by rw [hdef]
  refine ⟨.of_pos hlast fun h => ?_, ?_⟩
  · have := ha.toNat_pos (hneg ▸ h)
    omega
  · rw [toInt, toInt, hneg]
    cases a.neg <;> simp only [if_true, Bool.false_eq_true, if_false] <;> omega

theorem rshift1Loop_eq (hw : WordSize w) (ap : Words w) :
    rshift1Loop ap = rshiftLoop 1 ((w - 1) % w) ap := by
  have h16 := hw.le16
  have h64 := hw.le64
  rw [Nat.mod_eq_of_lt (by omega)]
  fun_induction rshift1Loop ap with
  | case1 => rfl
  | case2 t => rfl
  | case3 t u ap ih =>
    rw [rshiftLoop, shiftMask_pos hw (by omega) (by omega), BitVec.and_allOnes, ih]

/-- Halving, with the top word dropped when it becomes zero. -/
theorem rshift1_words (hw : WordSize w) {d : Words w} (hne : d ≠ [])
    (hlast : d.getLast? ≠ some 0#w) :
    let e := (rshift1Loop d).take (if d.getLastD 0#w = 1#w then d.length - 1 else d.length)
    val e = val d / 2 ∧ e.getLast? ≠ some 0#w := by
  have h16 := hw.le16
  have hone := toNat_one hw.pos
  obtain ⟨hval, hlen⟩ := @rshiftLoop_spec w hw 1 (by omega) d
  rw [← rshift1Loop_eq hw, pow_one] at hval
  rw [← rshift1Loop_eq hw] at hlen
  have hlow := le_val_of_getLast hne
  have hhigh := val_lt_of_getLast hne
  have hd : d.getLastD 0#w = d.getLast hne := by
    rw [getLastD_eq_getLast?, getLast?_eq_some_getLast hne, Option.getD_some]
  rw [getLast?_eq_some_getLast hne, ne_eq, Option.some.injEq] at hlast
  have hpos : 0 < d.length := length_pos_iff.2 hne
  rw [hd]
  split
  · -- the highest word becomes zero
    rename_i hl
    rw [hl, hone] at hlow hhigh
    have htake : val ((rshift1Loop d).take (d.length - 1)) = val d / 2 := by
      rw [val_take_of_lt, hval]
      omega
    refine ⟨htake, ?_⟩
    by_cases hshort : d.length = 1
    · rw [hshort]
      simp
    apply getLast?_ne_zero_of_le
    rw [length_take_of_le (by omega)]
    have hsucc : d.length - 1 = d.length - 1 - 1 + 1 := by omega
    rw [hsucc, pow_succ] at hlow
    have h2 : 2 ≤ 2 ^ w := Nat.le_self_pow (by omega) 2
    have := Nat.mul_le_mul_left ((2 ^ w) ^ (d.length - 1 - 1)) h2
    omega
  · rename_i hl
    rw [take_of_length_le hlen.le]
    refine ⟨hval, ?_⟩
    apply getLast?_ne_zero_of_le
    rw [hlen]
    have h2 : 2 ≤ (d.getLast hne).toNat := by
      have h0 : (d.getLast hne).toNat ≠ 0 := fun h =>
        hlast (BitVec.eq_of_toNat_eq (by simpa using h))
      have h1 : (d.getLast hne).toNat ≠ 1 := fun h =>
        hl (BitVec.eq_of_toNat_eq (h.trans hone.symm))
      omega
    have := Nat.mul_le_mul_right ((2 ^ w) ^ (d.length - 1)) h2
    omega

theorem bnRshift1_spec (hw : WordSize w) {a : Bignum w} (ha : a.Normal) :
    (bnRshift1 a).Normal ∧ (bnRshift1 a).toInt = a.toInt.tdiv 2 := by
  by_cases hzero : a.isZero = true
  · rw [bnRshift1, if_pos hzero, toInt_eq_zero_of_isZero hzero]
    exact ⟨⟨by simp [zero], by simp [zero]⟩, rfl⟩
  have hne : a.d ≠ [] := by simpa [isZero, top] using hzero
  obtain ⟨hval, hlast⟩ := rshift1_words hw hne ha.last
  have hdef : bnRshift1 a = bnCorrectTop ⟨(rshift1Loop a.d).take
      (if a.d.getLastD 0#w = 1#w then a.d.length - 1 else a.d.length), a.neg⟩ := by
    rw [bnRshift1, if_neg hzero, bnCorrectTop]
    simp only [trim_of_getLast? hlast]
    rfl
  rw [hdef]
  refine ⟨normal_bnCorrectTop _, ?_⟩
  rw [toInt_bnCorrectTop, toInt, toInt, Bignum.toNat, hval]
  cases a.neg with
  | false => exact (Int.ofNat_tdiv a.toNat 2)
  | true =>
    rw [if_pos rfl, if_pos rfl, Int.neg_tdiv]
    rfl

theorem isOdd_iff (hpos : 0 < w) (a : Bignum w) : a.isOdd = true ↔ a.toInt % 2 = 1 := by
  have hparity : a.toInt % 2 = 1 ↔ a.toNat % 2 = 1 := by
    rw [← natAbs_toInt]
    omega
  rw [hparity, isOdd, Bignum.toNat]
  cases a.d with
  | nil => simp
  | cons x xs =>
    have heven : (2 ^ w * val xs) % 2 = 0 := by
      rw [Nat.mul_mod, show 2 ^ w = 2 * 2 ^ (w - 1) by rw [← Nat.pow_succ']; congr 1; omega]
      simp
    have hand : (x &&& 1#w).toNat = x.toNat % 2 := by
      rw [BitVec.toNat_and, BitVec.toNat_ofNat, Nat.mod_eq_of_lt (Nat.one_lt_two_pow (by omega)),
        Nat.and_one_is_mod]
    have hne : x &&& 1#w ≠ 0#w ↔ x.toNat % 2 ≠ 0 := by
      rw [← hand, ne_eq, ← BitVec.toNat_inj]
      simp
    rw [decide_eq_true_iff, hne, val_cons, Nat.add_mod]
    omega

/-! ### Objects with their allocated words -/

namespace Buf

theorem num_ofNum (x : Bignum w) (spare : Words w) : (ofNum x spare).num = x := by
  simp [num, ofNum, Bignum.top]

theorem num_put (a : Buf w) (x : Bignum w) : (a.put x).num = x := num_ofNum x _

theorem dmax_put (a : Buf w) (x : Bignum w) : a.dmax ≤ (a.put x).dmax := by
  simp only [dmax, put, ofNum, length_append, length_drop, Bignum.top]
  omega

theorem num_wexpand {a : Buf w} (h : a.top ≤ a.dmax) (words : Nat) :
    (a.wexpand words).num = a.num := by
  rw [wexpand]
  split
  · rfl
  · rw [num, num]
    have hlen : (a.d.take a.top).length = a.top := length_take_of_le h
    rw [take_append_of_le_length hlen.ge, take_take, Nat.min_self]

theorem dmax_wexpand {a : Buf w} (h : a.top ≤ a.dmax) (words : Nat) :
    words ≤ (a.wexpand words).dmax := by
  rw [wexpand]
  split
  · assumption
  · rename_i hlt
    simp only [dmax] at h hlt ⊢
    rw [length_append, length_take_of_le h, length_replicate]
    omega

theorem top_wexpand (a : Buf w) (words : Nat) : (a.wexpand words).top = a.top := by
  rw [wexpand]
  split <;> rfl

/-- An object with room for `nwords` words holds a number in them. -/
structure Holds (nwords : Nat) (a : Buf w) (x : Int) : Prop where
  normal : a.num.Normal
  value : a.num.toInt = x
  fits : a.top ≤ nwords
  room : nwords ≤ a.dmax

theorem Holds.put {nwords : Nat} {a : Buf w} {y : Bignum w} {x : Int} (hroom : nwords ≤ a.dmax)
    (hy : y.Normal) (hval : y.toInt = x) (hx : x.natAbs < (2 ^ w) ^ nwords) :
    Holds nwords (a.put y) x := by
  have hfits : y.top ≤ nwords := by
    apply hy.top_le
    rwa [← natAbs_toInt, hval]
  exact ⟨by rwa [num_put], by rwa [num_put], hfits, hroom.trans (dmax_put a y)⟩

end Buf

theorem conditionMask_bit (hw : WordSize w) (c : Bool) :
    conditionMask (bit c : Word w) = if c then BitVec.allOnes w else 0#w := by
  have h16 := hw.le16
  cases c with
  | false =>
    have hones : (BitVec.allOnes w >>> (w - 1)) = 1#w := by
      apply BitVec.eq_of_toNat_eq
      rw [BitVec.toNat_ushiftRight, BitVec.toNat_allOnes, Nat.shiftRight_eq_div_pow,
        BitVec.toNat_ofNat, Nat.mod_eq_of_lt (Nat.one_lt_two_pow (by omega))]
      have hpow : 2 ^ w = 2 * 2 ^ (w - 1) := by
        rw [← Nat.pow_succ']
        congr 1
        omega
      have hpos := Nat.two_pow_pos (w - 1)
      rw [Nat.div_eq_of_lt_le] <;> omega
    simp [conditionMask, bit, hones, BitVec.neg_one_eq_allOnes]
  | true => simp [conditionMask, bit, BitVec.neg_one_eq_allOnes]

theorem zipWith_mask (c : Bool) {xs ys : Words w} (hlen : xs.length = ys.length) :
    List.zipWith (fun x y => x ^^^ ((x ^^^ y) &&& if c then BitVec.allOnes w else 0#w)) xs ys =
      if c then ys else xs := by
  induction xs, ys, hlen using induction₂ with
  | nil => cases c <;> rfl
  | cons x xs y ys _ ih =>
    rw [zipWith_cons_cons, ih]
    cases c with
    | false => simp
    | true =>
      rw [if_pos rfl, BitVec.and_allOnes, ← BitVec.xor_assoc, BitVec.xor_self, BitVec.zero_xor]
      rfl

theorem swapInto_mask (c : Bool) {nwords : Nat} {a b : Words w} (ha : nwords ≤ a.length)
    (hb : nwords ≤ b.length) :
    swapInto (if c then BitVec.allOnes w else 0#w) nwords a b =
      (if c then b else a).take nwords ++ a.drop nwords := by
  rw [swapInto, zipWith_mask c (by rw [length_take_of_le ha, length_take_of_le hb])]
  cases c <;> rfl

/-- What an exchange does to the numbers of objects that have room for all words exchanged. -/
theorem bnConsttimeSwap_spec (hw : WordSize w) (c : Bool) {nwords : Nat} {a b : Buf w} {x y : Int}
    (ha : a.Holds nwords x) (hb : b.Holds nwords y) :
    (bnConsttimeSwap (bit c) a b nwords).1.Holds nwords (if c then y else x) ∧
      (bnConsttimeSwap (bit c) a b nwords).2.Holds nwords (if c then x else y) := by
  have hpos := hw.pos
  have hones : BitVec.allOnes w ≠ 0#w := by
    have := Nat.one_lt_two_pow hpos.ne'
    simp
    omega
  simp only [bnConsttimeSwap, conditionMask_bit hw, swapInto_mask c ha.room hb.room,
    swapInto_mask c hb.room ha.room]
  -- the words in use are among those exchanged
  have hnum {u v : Buf w} {z : Int} (hz : u.Holds nwords z) :
      (⟨u.d.take nwords ++ v.d.drop nwords, u.top, u.neg⟩ : Buf w).Holds nwords z := by
    have hlen : (u.d.take nwords).length = nwords := length_take_of_le hz.room
    have hsame : (⟨u.d.take nwords ++ v.d.drop nwords, u.top, u.neg⟩ : Buf w).num = u.num := by
      rw [Buf.num, Buf.num, take_append_of_le_length (hz.fits.trans hlen.ge), take_take,
        Nat.min_eq_left hz.fits]
    refine ⟨by rw [hsame]; exact hz.normal, by rw [hsame]; exact hz.value, hz.fits, ?_⟩
    rw [Buf.dmax, length_append]
    omega
  cases c with
  | false => exact ⟨hnum ha, hnum hb⟩
  | true =>
    simp only [if_true, hones]
    exact ⟨hnum hb, hnum ha⟩

/-! ### Shared powers of two -/

namespace Gcd

theorem countBits_false (n : Nat) (mask : Word w) (k : Nat) :
    countBits n mask (false, k) = (false, k) := by
  induction n generalizing mask with
  | zero => rfl
  | succ n ih => exact ih _

/-- The bits of a word below the first one that is set are counted. -/
theorem countBits_true (n : Nat) {mask : Word w} {z : Nat} (k : Nat)
    (hmask : ∀ j < n, mask.getLsbD j = !z.testBit j) :
    (countBits n mask (true, k) = (true, k + n) ∧ 2 ^ n ∣ z) ∨
      ∃ e, countBits n mask (true, k) = (false, k + e) ∧ 2 ^ e ∣ z ∧ z / 2 ^ e % 2 = 1 := by
  induction n generalizing mask z k with
  | zero => exact .inl ⟨rfl, by simp⟩
  | succ n ih =>
    have hbit := hmask 0 (Nat.succ_pos n)
    rw [Nat.testBit_zero] at hbit
    rw [countBits, hbit, Bool.true_and]
    by_cases hodd : z % 2 = 1
    · rw [decide_eq_true hodd]
      exact .inr ⟨0, countBits_false n _ _, by simp, by simpa using hodd⟩
    rw [decide_eq_false hodd, Bool.not_false]
    have hnext : ∀ j < n, (mask >>> 1).getLsbD j = !(z / 2).testBit j := by
      intro j hj
      rw [BitVec.getLsbD_ushiftRight, ← Nat.testBit_succ, Nat.add_comm 1 j]
      exact hmask (j + 1) (Nat.succ_lt_succ hj)
    have hdvd : ∀ e, 2 ^ e ∣ z / 2 → 2 ^ (e + 1) ∣ z := by
      intro e he
      rw [show z = 2 * (z / 2) by omega, pow_succ']
      exact Nat.mul_dvd_mul_left 2 he
    rcases ih (k + 1) hnext with ⟨hcount, hd⟩ | ⟨e, hcount, hd, ho⟩
    · exact .inl ⟨hcount.trans (by congr 1; omega), hdvd n hd⟩
    · refine .inr ⟨e + 1, hcount.trans (by congr 1; omega), hdvd e hd, ?_⟩
      rwa [pow_succ', ← Nat.div_div_eq_div_mul]

theorem countShifts_false (r g : Words w) (k : Nat) : countShifts r g (false, k) = k := by
  induction r generalizing g with
  | nil => rfl
  | cons x r ih =>
    cases g with
    | nil => rfl
    | cons y g => rw [countShifts, countBits_false, ih]

theorem testBit_val_cons (x : Word w) (xs : Words w) {j : Nat} (hj : j < w) :
    (val (x :: xs)).testBit j = x.getLsbD j := by
  rw [val_cons, Nat.add_comm, Nat.testBit_two_pow_mul_add _ x.isLt, if_pos hj, BitVec.getLsbD]

theorem val_cons_div (x : Word w) (xs : Words w) : val (x :: xs) / 2 ^ w = val xs := by
  rw [val_cons, Nat.add_mul_div_left _ _ (Nat.two_pow_pos w), Nat.div_eq_of_lt x.isLt, Nat.zero_add]

variable {b e : Nat}

theorem dvd_or {a : Nat} : 2 ^ e ∣ a ||| b ↔ 2 ^ e ∣ a ∧ 2 ^ e ∣ b := by
  simp [Nat.dvd_iff_mod_eq_zero, Nat.or_mod_two_pow]

/-- The exponent of two that the numbers share. -/
theorem countShifts_true {r g : Words w} (k : Nat) (hr : val r ≠ 0) (hg : val g ≠ 0) :
    ∃ e, countShifts r g (true, k) = k + e ∧ 2 ^ e ∣ val r ||| val g ∧
      (val r ||| val g) / 2 ^ e % 2 = 1 := by
  induction r generalizing g k with
  | nil => exact absurd rfl hr
  | cons x r ih =>
    cases g with
    | nil => exact absurd rfl hg
    | cons y g =>
      have hmask : ∀ j < w, (~~~(x ||| y)).getLsbD j =
          !(val (x :: r) ||| val (y :: g)).testBit j := by
        intro j hj
        rw [Nat.testBit_or, testBit_val_cons x r hj, testBit_val_cons y g hj, BitVec.getLsbD_not,
          BitVec.getLsbD_or, decide_eq_true hj, Bool.true_and]
      rw [countShifts]
      rcases countBits_true w k hmask with ⟨hcount, hd⟩ | ⟨e, hcount, hd, ho⟩
      · have hpos := Nat.two_pow_pos w
        have hr' : val r ≠ 0 := by
          rw [← val_cons_div x r]
          exact (Nat.div_pos (Nat.le_of_dvd (Nat.pos_of_ne_zero hr) (dvd_or.1 hd).1) hpos).ne'
        have hg' : val g ≠ 0 := by
          rw [← val_cons_div y g]
          exact (Nat.div_pos (Nat.le_of_dvd (Nat.pos_of_ne_zero hg) (dvd_or.1 hd).2) hpos).ne'
        obtain ⟨e, hcount', hd', ho⟩ := ih (k + w) hr' hg'
        rw [← val_cons_div x r, ← val_cons_div y g, ← Nat.or_div_two_pow] at hd' ho
        refine ⟨w + e, ?_, ?_, ?_⟩
        · rw [hcount, hcount', Nat.add_assoc]
        · rw [pow_add]
          exact (Nat.dvd_div_iff_mul_dvd hd).1 hd'
        · rwa [Nat.div_div_eq_div_mul, ← pow_add] at ho
      · exact ⟨e, by rw [hcount, countShifts_false], hd, ho⟩

/-- The words above a number that is not zero have no part in its trailing zeros. -/
theorem dvd_of_append {x spare : Words w} (hx : val x ≠ 0) (h : 2 ^ e ∣ val (x ++ spare)) :
    2 ^ e ∣ val x ∧ val (x ++ spare) / 2 ^ e % 2 = val x / 2 ^ e % 2 := by
  have hlt := val_lt x
  rw [val_append, ← pow_mul] at h ⊢
  rw [← pow_mul] at hlt
  have he : e < w * x.length := by
    by_contra hge
    have hdvd := (Nat.pow_dvd_pow 2 (Nat.le_of_not_lt hge)).trans h
    have := Nat.le_of_dvd (Nat.pos_of_ne_zero hx) ((Nat.dvd_add_left (Nat.dvd_mul_right ..)).1 hdvd)
    omega
  obtain ⟨m, hm⟩ := Nat.exists_eq_add_of_lt he
  have hpow : 2 ^ (w * x.length) = 2 ^ e * (2 * 2 ^ m) := by
    rw [hm, show e + m + 1 = e + (m + 1) by omega, pow_add, pow_succ']
  rw [hpow, mul_assoc] at h ⊢
  refine ⟨(Nat.dvd_add_left (Nat.dvd_mul_right ..)).1 h, ?_⟩
  rw [Nat.add_mul_div_left _ _ (Nat.two_pow_pos e), mul_assoc, Nat.add_mul_mod_self_left]

theorem holds_flip {nwords : Nat} {a : Buf w} {x : Int} (h : a.Holds nwords x) (hx : x ≠ 0)
    (c : Bool) : ({ a with neg := a.neg ^^ c } : Buf w).Holds nwords (if c then -x else x) := by
  have hval := h.value
  have hne : (a.d.take a.top) ≠ [] := by
    intro hnil
    rw [toInt, Bignum.toNat, Buf.num, hnil] at hval
    simp at hval
    exact hx hval.symm
  refine ⟨⟨h.normal.last, fun _ => hne⟩, ?_, h.fits, h.room⟩
  rw [← hval, toInt, toInt]
  cases c <;> cases hneg : a.neg <;> simp [Buf.num, hneg, Bignum.toNat]

/-- The state of the code and of the abstract iteration. -/
structure Sim (top : Nat) (s : State w) (t : Divstep.State) : Prop where
  delta : s.delta = t.delta
  r : s.r.Holds top t.f
  g : s.g.Holds top t.g
  temp : top ≤ s.temp.dmax
  widest : s.widest ≤ top

variable {top : Nat}

/-- What the elimination makes of `r` and `g`. -/
theorem elimination (hw : WordSize w) {r g temp : Buf w} {f x : Int}
    (hr : r.Holds top f) (hg : g.Holds top x) (htemp : top ≤ temp.dmax) (hf : f % 2 = 1)
    (hfb : f.natAbs ≤ b) (hxb : x.natAbs ≤ b) (hb : 2 * b < (2 ^ w) ^ top) :
    ∃ sum, bnAdd g.num r.num = some sum ∧ sum.top ≤ top ∧
      ((bnConsttimeSwap (bit g.num.isOdd) g (temp.put sum) top).1.put
        (bnRshift1 (bnConsttimeSwap (bit g.num.isOdd) g (temp.put sum) top).1.num)).Holds top
          ((x + x % 2 * f) / 2) ∧
      top ≤ (bnConsttimeSwap (bit g.num.isOdd) g (temp.put sum) top).2.dmax := by
  obtain ⟨sum, hadd, hnormal, hval⟩ := bnAdd_spec hw.pos hg.normal hr.normal
  rw [hg.value, hr.value] at hval
  have hsum : (temp.put sum).Holds top (x + f) := .put htemp hnormal hval (by omega)
  obtain ⟨hg', htemp'⟩ := bnConsttimeSwap_spec hw g.num.isOdd hg hsum
  have hodd := isOdd_iff hw.pos g.num
  rw [hg.value] at hodd
  have heven : (if g.num.isOdd then x + f else x) = x + x % 2 * f := by
    by_cases h : x % 2 = 1
    · rw [if_pos (hodd.2 h), h, one_mul]
    · rw [if_neg (fun hc => h (hodd.1 hc)), show x % 2 = 0 by omega, zero_mul, add_zero]
  rw [heven] at hg'
  have hdvd : (2 : Int) ∣ x + x % 2 * f := by
    rcases Int.emod_two_eq_zero_or_one x with h | h <;> rw [h] <;> omega
  obtain ⟨hnormal', hval'⟩ := bnRshift1_spec hw hg'.normal
  rw [hg'.value, Int.tdiv_eq_ediv_of_dvd hdvd] at hval'
  exact ⟨sum, hadd, hsum.fits, .put hg'.room hnormal' hval' (by omega), htemp'.room⟩

variable {s : State w} {t : Divstep.State}

/-- A round of the loop of the code is a division step. -/
theorem step_sim (hw : WordSize w)
    (h : Sim top s t) (hf : t.f % 2 = 1) (hfb : t.f.natAbs ≤ b) (hgb : t.g.natAbs ≤ b)
    (hb : 2 * b < (2 ^ w) ^ top) : ∃ s', step top s = some s' ∧ Sim top s' (Divstep.step t) := by
  obtain ⟨hdelta, hr, hg, htemp, hwide⟩ := h
  obtain ⟨delta, f, g⟩ := t
  dsimp only at hdelta hr hg hf hfb hgb
  have hodd := isOdd_iff hw.pos s.g.num
  rw [hg.value] at hodd
  have hcond : (decide (0 < s.delta) && s.g.num.isOdd) = decide (0 < delta ∧ g % 2 = 1) := by
    rw [hdelta, Bool.eq_iff_iff, Bool.and_eq_true, decide_eq_true_iff, decide_eq_true_iff, hodd]
  have hflip := holds_flip hr (by omega) (decide (0 < s.delta) && s.g.num.isOdd)
  obtain ⟨hr', hg'⟩ := bnConsttimeSwap_spec hw (decide (0 < s.delta) && s.g.num.isOdd) hflip hg
  have h1 := hflip.fits
  have h2 := hg.fits
  rw [step]
  dsimp only
  generalize bnConsttimeSwap _ _ _ _ = p at hr' hg' ⊢
  rw [hcond] at h1 hr' hg' ⊢
  -- the numbers after the first exchange
  obtain ⟨F, X, hF, hX, hFodd, hFb, hXb, hnext⟩ : ∃ F X : Int, p.1.Holds top F ∧
      p.2.Holds top X ∧ F % 2 = 1 ∧ F.natAbs ≤ b ∧ X.natAbs ≤ b ∧
      Divstep.step ⟨delta, f, g⟩ = ⟨(if decide (0 < delta ∧ g % 2 = 1) then -s.delta
        else s.delta) + 1, F, (X + X % 2 * F) / 2⟩ := by
    rw [Divstep.step_eq hf, hdelta]
    by_cases hc : 0 < delta ∧ g % 2 = 1
    · rw [decide_eq_true hc] at hr' hg' ⊢
      rw [if_pos hc]
      exact ⟨g, -f, hr', hg', hc.2, hgb, by omega, rfl⟩
    · rw [decide_eq_false hc] at hr' hg' ⊢
      rw [if_neg hc]
      exact ⟨f, g, hr', hg', hf, hfb, hgb, rfl⟩
  obtain ⟨sum, hadd, hsum, hg'', htemp'⟩ := elimination hw hF hX htemp hFodd hFb hXb hb
  rw [hadd, hnext]
  exact ⟨_, rfl, rfl, hF, hg'', htemp', max_le (max_le hwide (max_le h1 h2)) (max_le hX.fits hsum)⟩

theorem loop_sim (hw : WordSize w) (m : Nat)
    (h : Sim top s t) (hf : t.f % 2 = 1) (hfb : t.f.natAbs ≤ b) (hgb : t.g.natAbs ≤ b)
    (hb : 2 * b < (2 ^ w) ^ top) :
    ∃ s', loop top m s = some s' ∧ Sim top s' (Divstep.step^[m] t) := by
  induction m generalizing s t with
  | zero => exact ⟨s, rfl, h⟩
  | succ m ih =>
    obtain ⟨s₁, hstep, h₁⟩ := step_sim hw h hf hfb hgb hb
    obtain ⟨hfb₁, hgb₁⟩ := Divstep.bound_step hf hfb hgb
    rw [loop, hstep, Option.bind_some]
    exact ih h₁ (Divstep.odd_step hf) hfb₁ hgb₁

/-- The powers of two that are removed leave an odd number. -/
theorem countShifts_spec {x y : Bignum w} (hx : x.toNat ≠ 0) (hy : y.toNat ≠ 0) (spare : Spare w) :
    ∃ X Y : Int, x.toInt = X * 2 ^ countShifts (x.d ++ spare.r) (y.d ++ spare.g) (true, 0) ∧
      y.toInt = Y * 2 ^ countShifts (x.d ++ spare.r) (y.d ++ spare.g) (true, 0) ∧
      (X % 2 = 1 ∨ Y % 2 = 1) := by
  have hlarge : ∀ (z : Bignum w) l, z.toNat ≠ 0 → val (z.d ++ l) ≠ 0 := by
    intro z l hz
    rw [val_append]
    rw [Bignum.toNat] at hz
    omega
  obtain ⟨e, hcount, hd, hodd⟩ :=
    @countShifts_true w (x.d ++ spare.r) (y.d ++ spare.g) 0 (hlarge x _ hx) (hlarge y _ hy)
  rw [hcount, Nat.zero_add]
  obtain ⟨hdx, hpx⟩ := dvd_of_append hx (dvd_or.1 hd).1
  obtain ⟨hdy, hpy⟩ := dvd_of_append hy (dvd_or.1 hd).2
  rw [Nat.or_div_two_pow, Nat.or_mod_two_eq_one, hpx, hpy] at hodd
  have hquot : ∀ z : Bignum w, 2 ^ e ∣ z.toNat →
      ∃ Z : Int, z.toInt = Z * 2 ^ e ∧ (z.toNat / 2 ^ e % 2 = 1 → Z % 2 = 1) := by
    intro z hz
    have hdvd : (2 ^ e : Int) ∣ z.toInt := by
      rw [← Int.natAbs_dvd_natAbs, natAbs_toInt]
      exact hz
    obtain ⟨Z, hZ⟩ := hdvd
    refine ⟨Z, by rw [hZ, mul_comm], fun ho => ?_⟩
    have habs : z.toNat = 2 ^ e * Z.natAbs := by
      rw [← natAbs_toInt, hZ, Int.natAbs_mul]
      rfl
    rw [habs, Nat.mul_div_cancel_left _ (Nat.two_pow_pos e)] at ho
    omega
  obtain ⟨X, hX, hXodd⟩ := hquot x hdx
  obtain ⟨Y, hY, hYodd⟩ := hquot y hdy
  exact ⟨X, Y, hX, hY, hodd.imp hXodd hYodd⟩

/-- The operands without their shared power of two are in the objects, with room for the loop. -/
theorem operand_holds (hw : WordSize w) {x : Bignum w} {X : Int}
    (hX : x.toInt = X * 2 ^ e) (spare : Words w) (htop : (bnRshift x e).top < top) :
    (((Buf.ofNum x spare).put (bnRshift x e)).wexpand top).Holds top X ∧
      2 * X.natAbs < (2 ^ w) ^ top := by
  have hle : ((Buf.ofNum x spare).put (bnRshift x e)).top ≤
      ((Buf.ofNum x spare).put (bnRshift x e)).dmax := by
    simp [Buf.put, Buf.ofNum, Buf.dmax, Bignum.top]
  have hnum : (((Buf.ofNum x spare).put (bnRshift x e)).wexpand top).num = bnRshift x e := by
    rw [Buf.num_wexpand hle, Buf.num_put]
  have hval : (bnRshift x e).toInt = X := by
    rw [bnRshift, toInt_bnCorrectTop, toInt_bnRshiftFixedTop hw, hX]
    exact Int.mul_tdiv_cancel _ (by positivity)
  refine ⟨⟨?_, ?_, ?_, Buf.dmax_wexpand hle top⟩, ?_⟩
  · rw [hnum]
    exact normal_bnCorrectTop _
  · rw [hnum, hval]
  · rw [Buf.top_wexpand]
    exact htop.le
  have h2 : 2 ≤ 2 ^ w := Nat.le_self_pow hw.pos.ne' 2
  have hlt : X.natAbs < (2 ^ w) ^ (bnRshift x e).top := by
    rw [← hval, natAbs_toInt]
    exact val_lt (bnRshift x e).d
  calc 2 * X.natAbs < 2 ^ w * (2 ^ w) ^ (bnRshift x e).top :=
      Nat.mul_lt_mul_of_le_of_lt h2 hlt (Nat.two_pow_pos w)
    _ = (2 ^ w) ^ ((bnRshift x e).top + 1) := by rw [pow_succ']
    _ ≤ (2 ^ w) ^ top := Nat.pow_le_pow_right (Nat.two_pow_pos w) htop

theorem first_exchange (hw : WordSize w) {r g : Buf w} {X Y : Int}
    (hr : r.Holds top X) (hg : g.Holds top Y) (hodd : X % 2 = 1 ∨ Y % 2 = 1) :
    ∃ f x : Int, (bnConsttimeSwap (bit !r.num.isOdd) r g top).1.Holds top f ∧
      (bnConsttimeSwap (bit !r.num.isOdd) r g top).2.Holds top x ∧ f % 2 = 1 ∧
      Int.gcd f x = Int.gcd X Y ∧ max f.natAbs x.natAbs = max X.natAbs Y.natAbs := by
  obtain ⟨hr', hg'⟩ := bnConsttimeSwap_spec hw (!r.num.isOdd) hr hg
  have hiff := isOdd_iff hw.pos r.num
  rw [hr.value] at hiff
  by_cases hX : X % 2 = 1
  · rw [hiff.2 hX] at hr' hg' ⊢
    exact ⟨X, Y, hr', hg', hX, rfl, rfl⟩
  · have hfalse : r.num.isOdd = false := by
      rw [Bool.eq_false_iff]
      exact fun h => hX (hiff.1 h)
    rw [hfalse] at hr' hg' ⊢
    exact ⟨Y, X, hr', hg', hodd.resolve_left hX, Int.gcd_comm Y X, Nat.max_comm ..⟩

/-- The rounds are enough: the loop ends with the greatest common divisor. -/
theorem loop_spec (hw : WordSize w) {f g : Int} (h : Sim top s ⟨1, f, g⟩) (hf : f % 2 = 1)
    (hb : 2 * max f.natAbs g.natAbs < (2 ^ w) ^ top) :
    ∃ s', loop top (4 + 3 * if bnNumBits s.g.num ≤ bnNumBits s.r.num then bnNumBits s.r.num
        else bnNumBits s.g.num) s = some s' ∧
      s'.r.num.Normal ∧ s'.g.num.isZero = true ∧ s'.widest ≤ top ∧
      s'.r.num.toNat = Int.gcd f g := by
  have hrlen := bnNumBits_eq_size hw h.r.normal
  have hglen := bnNumBits_eq_size hw h.g.normal
  rw [← natAbs_toInt, h.r.value] at hrlen
  rw [← natAbs_toInt, h.g.value] at hglen
  rw [hrlen, hglen]
  generalize hd : (if g.natAbs.size ≤ f.natAbs.size then f.natAbs.size else g.natAbs.size) = d
  have hpow : ∀ x : Int, x.natAbs.size ≤ d → x.natAbs ≤ 2 ^ d := fun x hx =>
    (Nat.lt_size_self x.natAbs).le.trans (Nat.pow_le_pow_right (by decide) hx)
  have hfd : f.natAbs ≤ 2 ^ d := hpow f (by rw [← hd]; split <;> omega)
  have hgd : g.natAbs ≤ 2 ^ d := hpow g (by rw [← hd]; split <;> omega)
  obtain ⟨s', hrun, hsim⟩ := loop_sim hw (4 + 3 * d) h hf (le_max_left ..) (le_max_right ..) hb
  have hzero : (Divstep.step^[4 + 3 * d] ⟨1, f, g⟩).g = 0 := by
    rw [Nat.add_comm]
    exact Divstep.iterate_eq_zero hf hfd hgd
  have hgcd := (@Divstep.iterate_keeps ⟨1, f, g⟩ _ (4 + 3 * d) hf hfd hgd).2.1
  rw [hzero, Int.gcd_zero_right] at hgcd
  refine ⟨s', hrun, hsim.r.normal, ?_, hsim.widest, ?_⟩
  · have hval := hsim.g.value
    rw [hzero] at hval
    have hnat : val s'.g.num.d = 0 := by
      have := natAbs_toInt s'.g.num
      rw [hval] at this
      exact this.symm
    rw [isZero, Bignum.top, (val_eq_zero_of_normal hsim.g.normal.last).1 hnat]
    rfl
  · rw [← natAbs_toInt, hsim.r.value, hgcd]

/-- The whole run, for two numbers that are not zero. -/
theorem run_spec (hw : WordSize w) {x y : Bignum w} (hx : x.toNat ≠ 0) (hy : y.toNat ≠ 0)
    (spare : Spare w) :
    ∃ res, run x y spare = some res ∧ res.state.r.num.Normal ∧ res.state.g.num.isZero = true ∧
      res.state.widest ≤ res.top ∧
      res.state.r.num.toNat * 2 ^ res.shifts = Int.gcd x.toInt y.toInt := by
  obtain ⟨X, Y, hX, hY, hodd⟩ := countShifts_spec hx hy spare
  have hd : ∀ (z : Bignum w) l, (Buf.ofNum z l).d = z.d ++ l := fun _ _ => rfl
  have htop : ∀ (a : Buf w) (z : Bignum w), (a.put z).top = z.top := fun _ _ => rfl
  simp only [run, hd, htop, Buf.num_ofNum, Buf.top_wexpand]
  generalize countShifts (x.d ++ spare.r) (y.d ++ spare.g) (true, 0) = e at hX hY
  generalize ht : (1 + if (bnRshift y e).top ≤ (bnRshift x e).top then (bnRshift x e).top
    else (bnRshift y e).top) = top
  have htops : (bnRshift x e).top < top ∧ (bnRshift y e).top < top := by
    split at ht <;> omega
  obtain ⟨hR, hXb⟩ := operand_holds hw hX spare.r htops.1
  obtain ⟨hG, hYb⟩ := operand_holds hw hY spare.g htops.2
  obtain ⟨f, g, hf, hg, hfodd, hgcd, hmax⟩ := first_exchange hw hR hG hodd
  have htemp : top ≤ ((⟨spare.temp, 0, false⟩ : Buf w).wexpand top).dmax :=
    Buf.dmax_wexpand (Nat.zero_le _) top
  generalize (⟨spare.temp, 0, false⟩ : Buf w).wexpand top = temp at htemp
  have hsim : Sim top ⟨1, _, _, temp, max (bnRshift x e).top (bnRshift y e).top⟩ ⟨1, f, g⟩ :=
    ⟨rfl, hf, hg, htemp, max_le htops.1.le htops.2.le⟩
  obtain ⟨s, hrun, hnormal, hzero, hwide, hval⟩ := loop_spec hw hsim hfodd (by rw [hmax]; omega)
  refine ⟨⟨s, e, top⟩, ?_, hnormal, hzero, hwide, ?_⟩
  · rw [hrun, Option.map_some]
  · rw [hval, hgcd, hX, hY, Int.gcd_mul_right]
    rfl

end Gcd

/-! ### The whole function -/

theorem toInt_abs (a : Bignum w) : ({ a with neg := false } : Bignum w).toInt = a.toNat := rfl

theorem normal_abs {a : Bignum w} (ha : a.Normal) : ({ a with neg := false } : Bignum w).Normal :=
  ⟨ha.last, fun h => absurd h (by simp)⟩

theorem toNat_ne_zero {a : Bignum w} (ha : a.Normal) (h : a.isZero = false) : a.toNat ≠ 0 := by
  intro hzero
  have hnil := (val_eq_zero_of_normal ha.last).1 hzero
  simp [isZero, top, hnil] at h

theorem run_doubled (hw : WordSize w) {a b : Bignum w} (ha : a.Normal) (hb : b.Normal)
    (ha0 : a.isZero = false) (hb0 : b.isZero = false) (spare : Gcd.Spare w) :
    ∃ res, Gcd.run (bnLshift1 a) (bnLshift1 b) spare = some res ∧
      res.state.g.num.isZero = true ∧ res.state.widest ≤ res.top ∧
      (res.state.r.num.toNat * 2 ^ res.shifts : Int) = 2 * Int.gcd a.toInt b.toInt := by
  obtain ⟨-, hva⟩ := bnLshift1_spec hw ha
  obtain ⟨-, hvb⟩ := bnLshift1_spec hw hb
  have hane := toNat_ne_zero ha ha0
  have hbne := toNat_ne_zero hb hb0
  rw [← natAbs_toInt] at hane hbne
  obtain ⟨res, hrun, hnormal, hzero, hwide, hgcd⟩ := @Gcd.run_spec w hw (bnLshift1 a) (bnLshift1 b)
    (by rw [← natAbs_toInt]; omega) (by rw [← natAbs_toInt]; omega) spare
  rw [hva, hvb, Int.gcd_mul_left] at hgcd
  exact ⟨res, hrun, hzero, hwide, by exact_mod_cast hgcd⟩

section

variable (hw : WordSize w) {ι : Type} [DecidableEq ι] (r inA inB : ι) (spare : Gcd.Spare w)
  {σ : ι → Bignum w} (ha : (σ inA).Normal) (hb : (σ inB).Normal)
include hw ha hb

/-- `BN_gcd`, also where the result overwrites an operand. -/
theorem bnGcd_spec : ∃ σ', bnGcd r inA inB spare σ = some σ' ∧ (σ' r).Normal ∧
    (σ' r).toInt = Int.gcd (σ inA).toInt (σ inB).toInt ∧ ∀ v, v ≠ r → σ' v = σ v := by
  suffices h : ∃ x τ, bnGcd r inA inB spare σ = some (store (some r) x τ) ∧ x.Normal ∧
      x.toInt = Int.gcd (σ inA).toInt (σ inB).toInt ∧ ∀ v, v ≠ r → τ v = σ v by
    obtain ⟨x, τ, hgcd, hx, hval, hkeep⟩ := h
    exact ⟨_, hgcd, by rwa [store_self], by rwa [store_self], fun v hv =>
      (store_of_ne hv ..).trans (hkeep v hv)⟩
  cases hb0 : (σ inB).isZero with
  | true =>
    rw [bnGcd, if_pos hb0, toInt_eq_zero_of_isZero hb0, Int.gcd_zero_right, natAbs_toInt]
    exact ⟨_, σ, rfl, normal_abs ha, toInt_abs _, fun _ _ => rfl⟩
  | false =>
    cases ha0 : (σ inA).isZero with
    | true =>
      rw [bnGcd, if_neg (by simp [hb0]), if_pos ha0, toInt_eq_zero_of_isZero ha0,
        Int.gcd_zero_left, natAbs_toInt]
      exact ⟨_, σ, rfl, normal_abs hb, toInt_abs _, fun _ _ => rfl⟩
    | false =>
      obtain ⟨res, hrun, -, -, hres⟩ := run_doubled hw ha hb ha0 hb0 spare
      rw [bnGcd, ha0, hb0]
      simp only [store_self, hrun]
      obtain ⟨hn, hv⟩ := @bnRshift1_spec w hw
        (bnLshift { res.state.r.num with neg := false } res.shifts) (normal_bnCorrectTop _)
      refine ⟨_, _, rfl, hn, ?_, fun v hne => store_of_ne hne ..⟩
      rw [hv, toInt_bnLshift hw, toInt_abs, hres, Int.mul_tdiv_cancel_left _ (by decide)]

/-- `BN_gcd` stores the greatest common divisor of any two numbers, in whichever variable, and
changes no other. Its loop ends with `g = 0`, and no number offered for an exchange was wider than
the words exchanged. -/
theorem bn_gcd_exact :
    (∃ σ', bnGcd r inA inB spare σ = some σ' ∧ (σ' r).Normal ∧
      (σ' r).toInt = Int.gcd (σ inA).toInt (σ inB).toInt ∧ ∀ v, v ≠ r → σ' v = σ v) ∧
    ((σ inA).isZero = false → (σ inB).isZero = false →
      ∃ res, Gcd.run (bnLshift1 (σ inA)) (bnLshift1 (σ inB)) spare = some res ∧
        res.state.g.num.isZero = true ∧ res.state.widest ≤ res.top) := by
  refine ⟨bnGcd_spec hw r inA inB spare ha hb, fun ha0 hb0 => ?_⟩
  obtain ⟨res, hrun, hzero, hwide, -⟩ := run_doubled hw ha hb ha0 hb0 spare
  exact ⟨res, hrun, hzero, hwide⟩

end

/-- The divisor of `-12` and `18`, stored over the first operand. -/
theorem bn_gcd_exact_alias :
    ∃ σ', bnGcd false false true (⟨[7#16], [], [1#16, 2#16]⟩ : Gcd.Spare 16)
      (fun v => if v then ⟨[18#16], false⟩ else ⟨[12#16], true⟩) = some σ' ∧
      (σ' false).toInt = 6 := by
  obtain ⟨⟨σ', hrun, -, hval, -⟩, -⟩ := @bn_gcd_exact 16 ⟨by decide, by decide⟩ Bool _ false false
    true ⟨[7#16], [], [1#16, 2#16]⟩ (fun v => if v then ⟨[18#16], false⟩ else ⟨[12#16], true⟩)
    (by decide) (by decide)
  exact ⟨σ', hrun, hval.trans (by decide)⟩

end QuicTls.Bn
