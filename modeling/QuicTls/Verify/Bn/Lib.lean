import QuicTls.Crypto.Bn.Lib
import QuicTls.Verify.Bn.Words
import Mathlib.Data.Nat.Size

/-!
# Big numbers as integers

`toInt` is the integer that a big number stands for, and the shifts are those of integers.
-/

namespace QuicTls.Bn

open Limbs List

variable {w : Nat} {a : Bignum w} {xs : Words w} {n lb : Nat}

namespace Bignum

def toNat (a : Bignum w) : Nat := val a.d

/-- The integer that a number stands for. -/
def toInt (a : Bignum w) : Int := if a.neg then -(a.toNat : Int) else a.toNat

/-- No leading zero words and no negative zero. -/
structure Normal (a : Bignum w) : Prop where
  last : a.d.getLast? ≠ some 0#w
  neg : a.neg = true → a.d ≠ []

instance (a : Bignum w) : Decidable a.Normal :=
  decidable_of_iff (a.d.getLast? ≠ some 0#w ∧ (a.neg = true → a.d ≠ []))
    ⟨fun h => ⟨h.1, h.2⟩, fun h => ⟨h.1, h.2⟩⟩

theorem natAbs_toInt (a : Bignum w) : a.toInt.natAbs = a.toNat := by
  rw [toInt]
  split <;> omega

theorem toInt_of_not_neg (h : a.neg = false) : a.toInt = a.toNat := by
  simp [toInt, h]

end Bignum

open Bignum

/-! ### The top word -/

theorem val_trim (xs : Words w) : val (trim xs) = val xs := by
  induction xs with
  | nil => rfl
  | cons x xs ih =>
    rw [trim]
    split
    · rename_i hnil
      rw [hnil] at ih
      split
      · rename_i hx
        simp [hx, ← ih]
      · simp [← ih]
    · rw [val_cons, ih, val_cons]

theorem getLast?_trim (xs : Words w) : (trim xs).getLast? ≠ some 0#w := by
  induction xs with
  | nil => simp [trim]
  | cons x xs ih =>
    rw [trim]
    split
    · split
      · simp
      · rename_i hx
        simpa using hx
    · rename_i hne
      rwa [getLast?_cons_of_ne_nil hne]

theorem trim_of_getLast? (h : xs.getLast? ≠ some 0#w) : trim xs = xs := by
  induction xs with
  | nil => rfl
  | cons x xs ih =>
    cases xs with
    | nil =>
      have hx : x ≠ 0#w := by simpa using h
      simp [trim, hx]
    | cons y ys =>
      rw [trim, ih h]

theorem pow_le_val (hne : xs ≠ []) (h : xs.getLast? ≠ some 0#w) :
    (2 ^ w) ^ (xs.length - 1) ≤ val xs := by
  have hlast : (xs.getLast hne).toNat ≠ 0 := by
    intro hzero
    apply h
    rw [getLast?_eq_getLast_of_ne_nil hne, Option.some.injEq]
    exact BitVec.eq_of_toNat_eq (by simpa using hzero)
  calc (2 ^ w) ^ (xs.length - 1) = 1 * (2 ^ w) ^ (xs.length - 1) := (Nat.one_mul _).symm
    _ ≤ (xs.getLast hne).toNat * (2 ^ w) ^ (xs.length - 1) :=
      Nat.mul_le_mul_right _ (Nat.one_le_iff_ne_zero.2 hlast)
    _ ≤ val xs := le_val_of_getLast hne

theorem val_eq_zero_of_normal (h : xs.getLast? ≠ some 0#w) : val xs = 0 ↔ xs = [] := by
  constructor
  · intro hval
    by_contra hne
    have hle := pow_le_val hne h
    have hpos : 0 < (2 ^ w) ^ (xs.length - 1) := by positivity
    omega
  · rintro rfl
    rfl

theorem Bignum.Normal.top_le (ha : a.Normal) (h : a.toNat < (2 ^ w) ^ n) : a.top ≤ n := by
  by_contra hlt
  have hne : a.d ≠ [] := by
    intro hnil
    rw [Bignum.top, hnil] at hlt
    exact hlt (Nat.zero_le n)
  have hle := pow_le_val hne ha.last
  have hmono : (2 ^ w) ^ n ≤ (2 ^ w) ^ (a.d.length - 1) := by
    apply Nat.pow_le_pow_right (Nat.two_pow_pos w)
    rw [Bignum.top] at hlt
    omega
  rw [Bignum.toNat] at h
  omega

theorem Bignum.Normal.getLast_ne (ha : a.Normal) (hne : a.d ≠ []) : a.d.getLast hne ≠ 0#w := by
  intro h
  apply ha.last
  rw [getLast?_eq_getLast_of_ne_nil hne, h]

theorem eq_of_val_eq {ys : Words w} (hx : xs.getLast? ≠ some 0#w)
    (hy : ys.getLast? ≠ some 0#w) (hpos : 0 < w) (h : val xs = val ys) : xs = ys := by
  by_cases hxs : xs = []
  · subst hxs
    exact ((val_eq_zero_of_normal hy).1 h.symm).symm
  have hys : ys ≠ [] := by
    rintro rfl
    exact hxs ((val_eq_zero_of_normal hx).1 h)
  have hlt : ∀ {us vs : Words w}, us ≠ [] → us.getLast? ≠ some 0#w → val us = val vs →
      us.length ≤ vs.length := by
    intro us vs hne hlast heq
    have hpow := (heq ▸ pow_le_val hne hlast).trans_lt (val_lt vs)
    have := (Nat.pow_lt_pow_iff_right (Nat.one_lt_two_pow hpos.ne')).1 hpow
    omega
  exact val_inj (Nat.le_antisymm (hlt hxs hx h) (hlt hys hy h.symm)) h

theorem Bignum.Normal.toNat_pos (h : a.Normal) (hneg : a.neg = true) : 0 < a.toNat := by
  rw [Nat.pos_iff_ne_zero]
  exact fun hzero => h.neg hneg ((val_eq_zero_of_normal h.last).1 hzero)

theorem Bignum.Normal.eq_of_toInt {b : Bignum w} (hpos : 0 < w) (ha : a.Normal) (hb : b.Normal)
    (h : a.toInt = b.toInt) : a = b := by
  have hd : a.d = b.d := by
    apply eq_of_val_eq ha.last hb.last hpos
    have habs := congrArg Int.natAbs h
    rwa [natAbs_toInt, natAbs_toInt] at habs
  obtain ⟨d, aneg⟩ := a
  obtain ⟨e, bneg⟩ := b
  obtain rfl : d = e := hd
  have hapos := ha.toNat_pos
  have hbpos := hb.toNat_pos
  simp only [toInt] at h hapos hbpos
  cases aneg <;> cases bneg <;> simp at h hapos hbpos ⊢ <;> omega

theorem toNat_bnCorrectTop (a : Bignum w) : (bnCorrectTop a).toNat = a.toNat := val_trim a.d

theorem toInt_bnCorrectTop (a : Bignum w) : (bnCorrectTop a).toInt = a.toInt := by
  rw [toInt, toInt, toNat_bnCorrectTop]
  cases hneg : a.neg with
  | false => simp [bnCorrectTop, hneg]
  | true =>
    cases hd : trim a.d with
    | nil =>
      have hzero : a.toNat = 0 := by
        rw [Bignum.toNat, ← val_trim, hd]
        rfl
      simp [hzero]
    | cons x xs => simp [bnCorrectTop, hd, hneg]

theorem normal_bnCorrectTop (a : Bignum w) : (bnCorrectTop a).Normal := by
  refine ⟨getLast?_trim a.d, fun h => ?_⟩
  rw [bnCorrectTop, Bool.and_eq_true, Bool.not_eq_true', isEmpty_eq_false_iff] at h
  exact h.1

/-! ### The number of bits -/

/-- One step of the search for the top bit, without its masks. -/
theorem numBitsStep_eq {s : Nat} (hs : 0 < s) (hsw : s < 2 ^ w) (l : Word w) (bits : Nat) :
    numBitsStep s (l, bits) =
      if l.toNat < 2 ^ s then (l, bits) else (l >>> s, bits + s) := by
  have hl := l.isLt
  have hx : (l >>> s).toNat = l.toNat / 2 ^ s := by
    rw [BitVec.toNat_ushiftRight, Nat.shiftRight_eq_div_pow]
  have hone : 1 < 2 ^ w := by omega
  have hw : 0 < w := by
    by_contra h0
    simp [Nat.le_zero.1 (Nat.not_lt.1 h0)] at hone
  rw [numBitsStep]
  split_ifs with hlt
  · have hzero : l >>> s = 0#w := by
      apply BitVec.eq_of_toNat_eq
      rw [hx, Nat.div_eq_of_lt hlt]
      simp
    simp [hzero]
  -- the top bit of the negated rest is set
  have hrest : 1 ≤ (l >>> s).toNat ∧ 2 * (l >>> s).toNat < 2 ^ w := by
    rw [hx]
    refine ⟨(Nat.one_le_div_iff (Nat.two_pow_pos s)).2 (Nat.not_lt.1 hlt), ?_⟩
    calc 2 * (l.toNat / 2 ^ s) ≤ 2 ^ s * (l.toNat / 2 ^ s) :=
          Nat.mul_le_mul_right _ (Nat.le_self_pow (by omega) 2)
      _ ≤ l.toNat := Nat.mul_div_le _ _
      _ < 2 ^ w := hl
  have hpow : 2 ^ w = 2 * 2 ^ (w - 1) := by
    rw [← Nat.pow_succ', Nat.succ_eq_add_one, Nat.sub_add_cancel hw]
  have htop : (0#w - l >>> s) >>> (w - 1) = 1#w := by
    apply BitVec.eq_of_toNat_eq
    rw [BitVec.toNat_ushiftRight, Nat.shiftRight_eq_div_pow, BitVec.toNat_sub,
      BitVec.toNat_ofNat, BitVec.toNat_ofNat, Nat.zero_mod,
      Nat.mod_eq_of_lt (by omega), Nat.mod_eq_of_lt hone]
    apply Nat.div_eq_of_lt_le <;> omega
  have hmask : 0#w - (0#w - l >>> s) >>> (w - 1) = BitVec.allOnes w := by
    rw [htop]
    rw [BitVec.zero_sub, BitVec.neg_one_eq_allOnes]
  have hbits : (BitVec.ofNat w s).toNat = s := by rw [BitVec.toNat_ofNat, Nat.mod_eq_of_lt hsw]
  simp only [hmask, BitVec.and_allOnes, hbits]
  rw [BitVec.xor_comm (l >>> s) l, ← BitVec.xor_assoc, BitVec.xor_self, BitVec.zero_xor]

/-- A word that is `b` bits long, seen after some halvings. -/
structure HasBits (l₀ : Nat) (l : Word w) (bits : Nat) : Prop where
  pos : 0 < l.toNat
  bits_pos : 0 < bits
  le : l.toNat * 2 ^ (bits - 1) ≤ l₀
  lt : l₀ < (l.toNat + 1) * 2 ^ (bits - 1)

/-- A step halves the range in which the top bit can be. -/
theorem HasBits.step {l₀ bits s : Nat} {l : Word w} (h : HasBits l₀ l bits) (hs : 0 < s)
    (hsw : s < 2 ^ w) (hl : l.toNat < 2 ^ (s + s)) :
    HasBits l₀ (numBitsStep s (l, bits)).1 (numBitsStep s (l, bits)).2 ∧
      (numBitsStep s (l, bits)).1.toNat < 2 ^ s := by
  rw [numBitsStep_eq hs hsw]
  split_ifs with hlt
  · exact ⟨h, hlt⟩
  have hx : (l >>> s).toNat = l.toNat / 2 ^ s := by
    rw [BitVec.toNat_ushiftRight, Nat.shiftRight_eq_div_pow]
  have hpow : 2 ^ (bits + s - 1) = 2 ^ s * 2 ^ (bits - 1) := by
    rw [← Nat.pow_add]
    congr 1
    have := h.bits_pos
    omega
  have hdiv := Nat.div_add_mod l.toNat (2 ^ s)
  refine ⟨⟨?_, ?_, ?_, ?_⟩, ?_⟩
  · rw [hx]
    exact Nat.div_pos (Nat.not_lt.1 hlt) (Nat.two_pow_pos s)
  · omega
  · rw [hx, hpow, ← Nat.mul_assoc]
    refine (Nat.mul_le_mul_right _ ?_).trans h.le
    rw [Nat.mul_comm]
    omega
  · rw [hx, hpow, ← Nat.mul_assoc]
    refine h.lt.trans_le (Nat.mul_le_mul_right _ ?_)
    rw [Nat.add_mul, Nat.mul_comm _ (2 ^ s)]
    omega
  · rw [hx]
    apply Nat.div_lt_of_lt_mul
    rwa [← Nat.pow_add]

/-- The supported word sizes have between 16 and 64 bits. -/
structure WordSize (w : Nat) : Prop where
  le16 : 16 ≤ w
  le64 : w ≤ 64

namespace WordSize

variable (hw : WordSize w)
include hw

theorem pos : 0 < w := by
  have := hw.le16
  omega

theorem lt_two_pow (h : n < 65536) : n < 2 ^ w :=
  h.trans_le (Nat.pow_le_pow_right (by decide) hw.le16 : 2 ^ 16 ≤ 2 ^ w)

end WordSize

/-- **`BN_num_bits_word` is the length of a word in bits.** -/
theorem bnNumBitsWord_spec (hw : WordSize w) {l : Word w} (hl : l ≠ 0#w) :
    2 ^ (bnNumBitsWord l - 1) ≤ l.toNat ∧ l.toNat < 2 ^ bnNumBitsWord l ∧ 0 < bnNumBitsWord l := by
  have hpos : 0 < l.toNat := by
    rw [Nat.pos_iff_ne_zero]
    exact fun h => hl (BitVec.eq_of_toNat_eq (by simpa using h))
  have hlt := l.isLt
  have hstart : HasBits l.toNat l 1 := ⟨hpos, Nat.one_pos, by simp, by simp⟩
  -- the last five halvings, from a rest of less than 32 bits
  have hfive : ∀ {x : Word w} {bits : Nat}, HasBits l.toNat x bits → x.toNat < 2 ^ 32 →
      ∃ x' bits', ([16, 8, 4, 2, 1].foldl (fun st s => numBitsStep s st) (x, bits)) = (x', bits') ∧
        HasBits l.toNat x' bits' ∧ x'.toNat < 2 := by
    intro x bits hx h32
    obtain ⟨h16, hlt16⟩ := hx.step (s := 16) (by omega) (hw.lt_two_pow (by omega)) h32
    obtain ⟨h8, hlt8⟩ := h16.step (s := 8) (by omega) (hw.lt_two_pow (by omega)) hlt16
    obtain ⟨h4, hlt4⟩ := h8.step (s := 4) (by omega) (hw.lt_two_pow (by omega)) hlt8
    obtain ⟨h2, hlt2⟩ := h4.step (s := 2) (by omega) (hw.lt_two_pow (by omega)) hlt4
    obtain ⟨h1, hlt1⟩ := h2.step (s := 1) (by omega) (hw.lt_two_pow (by omega)) hlt2
    exact ⟨_, _, rfl, h1, hlt1⟩
  obtain ⟨x, hbits, hlast⟩ : ∃ x : Word w, HasBits l.toNat x (bnNumBitsWord l) ∧ x.toNat < 2 := by
    simp only [bnNumBitsWord, if_pos hl]
    by_cases h32 : 32 < w
    · rw [if_pos h32]
      have h64 : l.toNat < 2 ^ (32 + 32) :=
        hlt.trans_le (Nat.pow_le_pow_right (by decide) hw.le64)
      obtain ⟨hx, hx32⟩ := hstart.step (by omega) (hw.lt_two_pow (by omega)) h64
      obtain ⟨x', bits', hfold, hx', hlast⟩ := hfive hx hx32
      exact ⟨x', hfold ▸ hx', hlast⟩
    · rw [if_neg h32]
      have hl32 : l.toNat < 2 ^ 32 := hlt.trans_le (Nat.pow_le_pow_right (by decide) (by omega))
      obtain ⟨x', bits', hfold, hx', hlast⟩ := hfive hstart hl32
      exact ⟨x', hfold ▸ hx', hlast⟩
  have hone : x.toNat = 1 := by
    have := hbits.pos
    omega
  have hle := hbits.le
  have hup := hbits.lt
  rw [hone] at hle hup
  rw [Nat.one_mul] at hle
  refine ⟨hle, ?_, hbits.bits_pos⟩
  rwa [← Nat.pow_succ', Nat.succ_eq_add_one, Nat.sub_add_cancel hbits.bits_pos] at hup

/-- **`BN_num_bits` is the length of a number in bits.** -/
theorem bnNumBits_eq_size (hw : WordSize w) (ha : a.Normal) : bnNumBits a = a.toNat.size := by
  by_cases hne : a.d = []
  · rw [bnNumBits, Bignum.toNat, hne]
    rfl
  obtain ⟨hle, hlt, hbits⟩ := bnNumBitsWord_spec hw (ha.getLast_ne hne)
  have hlow := le_val_of_getLast hne
  have hup := val_lt_of_getLast hne
  rw [bnNumBits, getLast?_eq_getLast_of_ne_nil hne]
  dsimp only
  rw [Bignum.toNat, Bignum.top]
  generalize bnNumBitsWord (a.d.getLast hne) = bits at hle hlt hbits
  rw [← Nat.pow_mul] at hlow hup
  apply Nat.le_antisymm
  · have h : (a.d.length - 1) * w + (bits - 1) < (val a.d).size := by
      rw [Nat.lt_size, Nat.pow_add, Nat.mul_comm, Nat.mul_comm _ w]
      exact (Nat.mul_le_mul_right _ hle).trans hlow
    omega
  · rw [Nat.size_le, Nat.pow_add, Nat.mul_comm, Nat.mul_comm _ w]
    exact hup.trans_le (Nat.mul_le_mul_right _ hlt)

/-! ### Shifts -/

theorem shiftMask_zero : shiftMask 0 = 0#w := by simp [shiftMask]

/-- The mask for a shift by at least one bit lets every bit pass. -/
theorem shiftMask_pos (hw : WordSize w) (hn : 0 < n) (hle : n ≤ 256) :
    shiftMask n = BitVec.allOnes w := by
  have h16 := hw.le16
  have hlt := hw.lt_two_pow (n := n) (by omega)
  have hneg : (0#w - BitVec.ofNat w n).toNat = 2 ^ w - ((n - 1) + 1) := by
    rw [BitVec.toNat_sub, BitVec.toNat_ofNat, BitVec.toNat_ofNat, Nat.zero_mod, Nat.add_zero,
      Nat.mod_eq_of_lt hlt, Nat.mod_eq_of_lt (by omega), Nat.sub_add_cancel hn]
  have hbit : ∀ i, 8 ≤ i → i < w → (0#w - BitVec.ofNat w n).getLsbD i = true := by
    intro i hi hiw
    have hlow : (n - 1).testBit i = false :=
      Nat.testBit_lt_two_pow ((by omega : n - 1 < 2 ^ 8).trans_le
        (Nat.pow_le_pow_right (by decide) hi))
    rw [BitVec.getLsbD, hneg, Nat.testBit_two_pow_sub_succ (by omega), hlow]
    simpa using hiw
  apply BitVec.eq_of_getLsbD_eq
  intro i hi
  rw [shiftMask, BitVec.getLsbD_or, BitVec.getLsbD_ushiftRight, BitVec.getLsbD_allOnes,
    decide_eq_true hi, Bool.or_eq_true]
  by_cases h8 : 8 ≤ i
  · exact .inl (hbit i h8 hi)
  · exact .inr (hbit (8 + i) (by omega) (by omega))

theorem toNat_shiftedOut (hw : WordSize w) (hlb : lb < w) (n : Word w) :
    (n >>> ((w - lb) % w) &&& shiftMask ((w - lb) % w)).toNat = n.toNat / 2 ^ (w - lb) := by
  have h64 := hw.le64
  by_cases hzero : lb = 0
  · subst hzero
    rw [Nat.sub_zero, Nat.mod_self, shiftMask_zero, Nat.div_eq_of_lt n.isLt]
    simp
  · rw [Nat.mod_eq_of_lt (by omega), shiftMask_pos hw (by omega) (by omega), BitVec.and_allOnes,
      BitVec.toNat_ushiftRight, Nat.shiftRight_eq_div_pow]

theorem toNat_shiftLeft_or (hlb : lb < w) (n : Word w) {m : Word w} (hm : m.toNat < 2 ^ lb) :
    (n <<< lb ||| m).toNat + 2 ^ w * (n.toNat / 2 ^ (w - lb)) = n.toNat * 2 ^ lb + m.toNat := by
  have hpow : 2 ^ w = 2 ^ (w - lb) * 2 ^ lb := by
    rw [← Nat.pow_add]
    congr 1
    omega
  have hshift : (n <<< lb).toNat = (n.toNat % 2 ^ (w - lb)) <<< lb := by
    rw [BitVec.toNat_shiftLeft, Nat.shiftLeft_eq, Nat.shiftLeft_eq, hpow, Nat.mul_mod_mul_right]
  have hdiv := Nat.div_add_mod n.toNat (2 ^ (w - lb))
  rw [BitVec.toNat_or, hshift, ← Nat.shiftLeft_add_eq_or_of_lt hm, Nat.shiftLeft_eq, hpow]
  linear_combination 2 ^ lb * hdiv

section
variable (hw : WordSize w)
include hw

/-- Shifting to the left, with the bits that leave the top word. -/
theorem lshiftLoop_spec (hlb : lb < w) {m : Word w} (hm : m.toNat < 2 ^ lb) (f : Words w) :
    val (lshiftLoop lb ((w - lb) % w) m f).1 +
        (2 ^ w) ^ f.length * (lshiftLoop lb ((w - lb) % w) m f).2.toNat =
      val f * 2 ^ lb + m.toNat ∧ (lshiftLoop lb ((w - lb) % w) m f).2.toNat < 2 ^ lb ∧
    (lshiftLoop lb ((w - lb) % w) m f).1.length = f.length := by
  induction f generalizing m with
  | nil => simp [lshiftLoop, hm]
  | cons n f ih =>
    have hout := toNat_shiftedOut hw hlb n
    have houtlt : (n >>> ((w - lb) % w) &&& shiftMask ((w - lb) % w)).toNat < 2 ^ lb := by
      rw [hout]
      apply Nat.div_lt_of_lt_mul
      rw [← Nat.pow_add, Nat.sub_add_cancel hlb.le]
      exact n.isLt
    obtain ⟨hrest, hlast, hlen⟩ := ih houtlt
    have hstep := toNat_shiftLeft_or hlb n hm
    rw [hout] at hrest
    simp only [lshiftLoop, val_cons, length_cons]
    exact ⟨by linear_combination hstep + 2 ^ w * hrest, hlast, by rw [hlen]⟩

theorem length_bnLshiftFixedTop (a : Bignum w) (n : Nat) :
    (bnLshiftFixedTop a n).d.length = a.top + n / w + 1 := by
  have hlb := Nat.mod_lt n hw.pos
  have hlen := (lshiftLoop_spec hw hlb (m := 0#w) (by simp) a.d).2.2
  simp only [bnLshiftFixedTop, length_append, length_replicate, length_singleton, Bignum.top]
  omega

theorem toNat_bnLshiftFixedTop (a : Bignum w) (n : Nat) :
    (bnLshiftFixedTop a n).toNat = a.toNat * 2 ^ n := by
  have hlb := Nat.mod_lt n hw.pos
  obtain ⟨hval, _, hlen⟩ := lshiftLoop_spec hw hlb (m := 0#w) (by simp) a.d
  rw [BitVec.toNat_ofNat, Nat.zero_mod] at hval
  have hpow : 2 ^ n = (2 ^ w) ^ (n / w) * 2 ^ (n % w) := by
    rw [← Nat.pow_mul, ← Nat.pow_add, Nat.div_add_mod]
  simp only [Bignum.toNat, bnLshiftFixedTop]
  rw [val_concat, val_append, val_replicate_zero, length_append, length_replicate, hlen, hpow]
  linear_combination (2 ^ w) ^ (n / w) * hval

theorem toInt_bnLshift (a : Bignum w) (n : Nat) : (bnLshift a n).toInt = a.toInt * 2 ^ n := by
  rw [bnLshift, toInt_bnCorrectTop, toInt, toInt, toNat_bnLshiftFixedTop hw]
  cases hneg : a.neg <;> simp [bnLshiftFixedTop, hneg]

theorem toNat_shiftRight_or {rb : Nat} (hrb : rb < w) (l m : Word w) :
    (l >>> rb ||| (m <<< ((w - rb) % w) &&& shiftMask ((w - rb) % w))).toNat =
      l.toNat / 2 ^ rb + 2 ^ (w - rb) * (m.toNat % 2 ^ rb) := by
  have h64 := hw.le64
  by_cases hzero : rb = 0
  · subst hzero
    rw [Nat.sub_zero, Nat.mod_self, shiftMask_zero, BitVec.and_zero]
    simp [Nat.mod_one]
  have hpow : 2 ^ w = 2 ^ rb * 2 ^ (w - rb) := by
    rw [← Nat.pow_add]
    congr 1
    omega
  have hlow : l.toNat / 2 ^ rb < 2 ^ (w - rb) := by
    apply Nat.div_lt_of_lt_mul
    rw [← hpow]
    exact l.isLt
  have hshift : (m <<< (w - rb)).toNat = (m.toNat % 2 ^ rb) <<< (w - rb) := by
    rw [BitVec.toNat_shiftLeft, Nat.shiftLeft_eq, Nat.shiftLeft_eq, hpow, Nat.mul_mod_mul_right]
  rw [Nat.mod_eq_of_lt (by omega), shiftMask_pos hw (by omega) (by omega), BitVec.and_allOnes,
    BitVec.toNat_or, hshift, BitVec.toNat_ushiftRight, Nat.shiftRight_eq_div_pow, Nat.or_comm,
    ← Nat.shiftLeft_add_eq_or_of_lt hlow, Nat.shiftLeft_eq, Nat.mul_comm (2 ^ (w - rb)),
    Nat.add_comm]

/-- Shifting to the right divides and rounds down. -/
theorem rshiftLoop_spec {rb : Nat} (hrb : rb < w) (f : Words w) :
    val (rshiftLoop rb ((w - rb) % w) f) = val f / 2 ^ rb ∧
      (rshiftLoop rb ((w - rb) % w) f).length = f.length := by
  induction f with
  | nil => simp [rshiftLoop]
  | cons l f ih =>
    cases f with
    | nil => simp [rshiftLoop, Nat.shiftRight_eq_div_pow]
    | cons m f =>
      obtain ⟨hrest, hlen⟩ := ih
      have hpow : 2 ^ w = 2 ^ rb * 2 ^ (w - rb) := by
        rw [← Nat.pow_add]
        congr 1
        omega
      -- the lowest bits of the rest are those of its first word
      have hmod : val (m :: f) % 2 ^ rb = m.toNat % 2 ^ rb := by
        rw [val_cons, hpow, Nat.mul_assoc, Nat.add_mul_mod_self_left]
      have hdiv := Nat.div_add_mod (val (m :: f)) (2 ^ rb)
      have hsplit : val (l :: m :: f) = l.toNat + 2 ^ rb * (2 ^ w * (val (m :: f) / 2 ^ rb) +
            2 ^ (w - rb) * (m.toNat % 2 ^ rb)) := by
        rw [hmod] at hdiv
        rw [val_cons]
        linear_combination (m.toNat % 2 ^ rb) * hpow - 2 ^ w * hdiv
      rw [rshiftLoop, val_cons, hrest, toNat_shiftRight_or hw hrb, hsplit,
        Nat.add_mul_div_left _ _ (Nat.two_pow_pos rb), length_cons, hlen]
      exact ⟨by ring, rfl⟩

theorem toNat_bnRshiftFixedTop (a : Bignum w) (n : Nat) :
    (bnRshiftFixedTop a n).toNat = a.toNat / 2 ^ n := by
  have hpow : 2 ^ n = (2 ^ w) ^ (n / w) * 2 ^ (n % w) := by
    rw [← Nat.pow_mul, ← Nat.pow_add, Nat.div_add_mod]
  simp only [bnRshiftFixedTop]
  split_ifs with hle
  · have hlt : a.toNat < 2 ^ n := by
      calc a.toNat < (2 ^ w) ^ a.top := val_lt a.d
        _ ≤ (2 ^ w) ^ (n / w) := Nat.pow_le_pow_right (Nat.two_pow_pos w) hle
        _ ≤ 2 ^ n := by
          rw [hpow]
          exact Nat.le_mul_of_pos_right _ (Nat.two_pow_pos _)
    rw [Nat.div_eq_of_lt hlt]
    rfl
  · have hrb := Nat.mod_lt n hw.pos
    rw [Bignum.toNat, (rshiftLoop_spec hw hrb _).1, val_drop_eq_div (Nat.not_le.1 hle).le,
      Nat.div_div_eq_div_mul, hpow, Bignum.toNat]

/-- The sign is kept, so the division by the power of two is truncated. -/
theorem toInt_bnRshiftFixedTop (a : Bignum w) (n : Nat) :
    (bnRshiftFixedTop a n).toInt = a.toInt.tdiv (2 ^ n) := by
  have habs : (bnRshiftFixedTop a n).toNat = a.toNat / 2 ^ n := toNat_bnRshiftFixedTop hw a n
  have hneg : (bnRshiftFixedTop a n).neg = a.neg ∨ (bnRshiftFixedTop a n).toNat = 0 := by
    rw [bnRshiftFixedTop]
    dsimp only
    split
    · exact .inr rfl
    · exact .inl rfl
  have hcast : ((a.toNat / 2 ^ n : Nat) : Int) = (a.toNat : Int).tdiv (2 ^ n) := by
    rw [Int.ofNat_tdiv]
    norm_cast
  rw [toInt, toInt]
  rcases hneg with hneg | hzero
  · rw [hneg, habs, hcast]
    split
    · rw [Int.neg_tdiv]
    · rfl
  · rw [hzero] at habs ⊢
    rw [← habs] at hcast
    split <;> split <;> simp [← hcast]

end

end QuicTls.Bn
