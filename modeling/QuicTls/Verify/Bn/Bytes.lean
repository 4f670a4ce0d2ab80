import QuicTls.Crypto.Bn.Bytes
import QuicTls.Theory.TwosComplement
import QuicTls.Verify.Bn.Lib
import Mathlib.Data.Int.ModEq

/-!
# Import and export of big numbers are exact up to two slips

An import is the number of its bytes, but an all-zero string leaves the sign of the destination
(`bin2bn_canonical_iff`). An export has the bytes of the number, but counts the bytes of a negative
number wrongly (`signed_export_import_iff`).
-/

namespace QuicTls.Bn

open Limbs Bignum TwosComplement List

variable {w : Nat} {a : Bignum w}

/-! ### Bytes of the two's complement -/

/-- `xorByte` over a string, with the last carry. -/
def xorBytes (xor : UInt8) : Bool → Bytes → Bytes × Bool
  | carry, [] => ([], carry)
  | carry, b :: bs =>
    let (y, carry) := xorByte xor carry b
    let (ys, carry) := xorBytes xor carry bs
    (y :: ys, carry)

theorem xorByte_spec (xor : UInt8) (carry : Bool) (b : UInt8) :
    (xorByte xor carry b).1.toNat + 256 * (xorByte xor carry b).2.toNat =
      (b ^^^ xor).toNat + carry.toNat := by
  have hx := (b ^^^ xor).toNat_lt
  simp only [xorByte]
  generalize b ^^^ xor = x at hx
  cases carry with
  | false => simp
  | true =>
    have hadd : (x + 1).toNat = (x.toNat + 1) % 256 := rfl
    simp only [if_true, Bool.toNat_true, UInt8.lt_iff_toNat_lt, hadd]
    by_cases h : x.toNat = 255
    · simp [h]
    · rw [Nat.mod_eq_of_lt (by omega)]
      simp

theorem xorBytes_append (xor : UInt8) (carry : Bool) (as bs : Bytes) :
    xorBytes xor carry (as ++ bs) =
      ((xorBytes xor carry as).1 ++ (xorBytes xor (xorBytes xor carry as).2 bs).1,
        (xorBytes xor (xorBytes xor carry as).2 bs).2) := by
  induction as generalizing carry with
  | nil => rfl
  | cons a as ih => simp [xorBytes, ih]

@[simp] theorem length_xorBytes (xor : UInt8) (carry : Bool) (bs : Bytes) :
    (xorBytes xor carry bs).1.length = bs.length := by
  induction bs generalizing carry with
  | nil => rfl
  | cons b bs ih => simp [xorBytes, ih]

theorem xorBytes_zero (bs : Bytes) : xorBytes 0 false bs = (bs, false) := by
  induction bs with
  | nil => rfl
  | cons b bs ih =>
    have hstep : xorByte 0 false b = (b, false) := by simp [xorByte]
    simp [xorBytes, hstep, ih]

theorem leVal_xorBytes_max (carry : Bool) (bs : Bytes) :
    leVal (xorBytes 0xff carry bs).1 + 256 ^ bs.length * (xorBytes 0xff carry bs).2.toNat +
      leVal bs + 1 = 256 ^ bs.length + carry.toNat := by
  induction bs generalizing carry with
  | nil =>
    simp only [xorBytes, leVal_nil, length_nil, Nat.pow_zero]
    omega
  | cons b bs ih =>
    have hstep := xorByte_spec 0xff carry b
    have hb := b.toNat_lt
    have htail := ih (xorByte 0xff carry b).2
    rw [toNat_xor_max] at hstep
    simp only [xorBytes, leVal_cons, length_cons]
    generalize xorByte 0xff carry b = r at hstep htail ⊢
    generalize xorBytes 0xff r.2 bs = t at htail ⊢
    rw [Nat.pow_succ]
    generalize 256 ^ bs.length = p at htail ⊢
    have hmul : p * 256 * t.2.toNat = 256 * (p * t.2.toNat) := by ring
    omega

/-- The two's complement of a positive number. -/
theorem leVal_negate {bs : Bytes} (hpos : 0 < leVal bs) :
    leVal (xorBytes 0xff true bs).1 + leVal bs = 256 ^ bs.length := by
  have h := leVal_xorBytes_max true bs
  cases hc : (xorBytes 0xff true bs).2 with
  | false =>
    rw [hc] at h
    simp only [Bool.toNat_false, Bool.toNat_true] at h
    omega
  | true =>
    rw [hc] at h
    simp only [Bool.toNat_true] at h
    omega

theorem leVal_negate_mod (bs : Bytes) :
    ((leVal (xorBytes 0xff true bs).1 : Nat) : Int) =
      -(leVal bs : Int) % (256 ^ bs.length : Nat) := by
  have hlt := leVal_lt (xorBytes 0xff true bs).1
  rw [length_xorBytes] at hlt
  have h := leVal_xorBytes_max true bs
  symm
  rw [Int.emod_eq_iff (by positivity)]
  refine ⟨by positivity, ?_, ?_⟩
  · exact_mod_cast hlt
  · refine ⟨1 - (xorBytes 0xff true bs).2.toNat, ?_⟩
    simp only [Bool.toNat_true] at h
    zify at h ⊢
    linear_combination h

section Words

variable (h8 : 8 ∣ w)
include h8

theorem mul_bnBytes : 8 * bnBytes w = w := Nat.mul_div_cancel' h8

theorem pow_words (n : Nat) : (2 ^ w) ^ n = 256 ^ (n * bnBytes w) := by
  have hbyte : (256 : Nat) = 2 ^ 8 := rfl
  rw [hbyte, ← Nat.pow_mul, ← Nat.pow_mul, Nat.mul_left_comm, mul_bnBytes h8, Nat.mul_comm]

omit h8 in
/-- One word is gathered from the bytes, complemented on the way where the number is negative. -/
theorem wordLoop_spec (xor : UInt8) {k m : Nat} {l : Word w} (hl : l.toNat < 2 ^ m)
    (hm : m + 8 * k ≤ w) (carry : Bool) (s : Bytes) :
    (wordLoop xor k m l carry s).1.toNat =
      l.toNat + 2 ^ m * leVal (xorBytes xor carry (s.take k)).1 ∧
    (wordLoop xor k m l carry s).2 = ((xorBytes xor carry (s.take k)).2, s.drop k) := by
  induction k generalizing m l carry s with
  | zero => simp [wordLoop, xorBytes]
  | succ k ih =>
    cases s with
    | nil => simp [wordLoop, xorBytes]
    | cons b s =>
      simp only [wordLoop, take_succ_cons, xorBytes, drop_succ_cons, leVal_cons]
      generalize xorByte xor carry b = r
      have hr := r.1.toNat_lt
      have hpow : 2 ^ (m + 8) ≤ 2 ^ w := Nat.pow_le_pow_right Nat.two_pos (by omega)
      have hbyte : r.1.toNat * 2 ^ m < 2 ^ (m + 8) := by
        rw [Nat.pow_add, Nat.mul_comm]
        exact Nat.mul_lt_mul_of_pos_left hr (Nat.two_pow_pos m)
      -- the accumulator has no bit from `m` on
      have hor : (l ||| BitVec.ofNat w r.1.toNat <<< m).toNat = l.toNat + 2 ^ m * r.1.toNat := by
        have hsmall : r.1.toNat < 2 ^ w :=
          hr.trans_le (Nat.pow_le_pow_right Nat.two_pos (by omega) : 2 ^ 8 ≤ 2 ^ w)
        rw [BitVec.toNat_or, BitVec.toNat_shiftLeft, BitVec.toNat_ofNat, Nat.mod_eq_of_lt hsmall,
          Nat.shiftLeft_eq, Nat.mod_eq_of_lt (hbyte.trans_le hpow), Nat.or_comm, Nat.mul_comm,
          ← Nat.two_pow_add_eq_or_of_lt hl, Nat.add_comm]
      have hlt : (l ||| BitVec.ofNat w r.1.toNat <<< m).toNat < 2 ^ (m + 8) := by
        rw [hor, Nat.pow_add]
        have hmul : 2 ^ m * r.1.toNat ≤ 2 ^ m * 255 := Nat.mul_le_mul_left _ (by omega)
        omega
      obtain ⟨hval, hrest⟩ := ih hlt (by omega) r.2 s
      refine ⟨?_, hrest⟩
      rw [hval, hor, Nat.pow_add]
      ring

/-- The words of an import have the value of the bytes. -/
theorem val_wordsLoop (xor : UInt8) (n : Nat) (carry : Bool) (s : Bytes) :
    val (wordsLoop xor n carry s : Words w) =
      leVal (xorBytes xor carry (s.take (n * bnBytes w))).1 := by
  induction n generalizing carry s with
  | zero => simp [wordsLoop, xorBytes]
  | succ n ih =>
    obtain ⟨hword, hrest⟩ := @wordLoop_spec w xor (bnBytes w) 0 0#w (by simp)
      (by rw [mul_bnBytes h8]; omega) carry s
    have hsplit : s.take ((n + 1) * bnBytes w) =
        s.take (bnBytes w) ++ (s.drop (bnBytes w)).take (n * bnBytes w) := by
      rw [Nat.add_mul, Nat.one_mul, Nat.add_comm, take_add]
    simp only [wordsLoop, val_cons, hword, hrest, ih]
    rw [hsplit, xorBytes_append, leVal_append, length_xorBytes]
    by_cases hlen : bnBytes w ≤ s.length
    · have hpow := pow_words h8 1
      rw [Nat.pow_one, Nat.one_mul] at hpow
      rw [length_take_of_le hlen, ← hpow]
      simp
    · rw [drop_of_length_le (by omega)]
      simp [xorBytes]

end Words

theorem skipSign_spec (xor : UInt8) (s2 : Bytes) :
    ∃ k, s2.reverse = (skipSign xor s2).reverse ++ List.replicate k xor ∧
      (skipSign xor s2).head? ≠ some xor := by
  induction s2 with
  | nil => exact ⟨0, rfl, by simp [skipSign]⟩
  | cons b s2 ih =>
    rw [skipSign]
    split_ifs with hb
    · obtain ⟨k, hk, hhead⟩ := ih
      refine ⟨k + 1, ?_, hhead⟩
      rw [reverse_cons, hk, hb, replicate_succ', append_assoc]
    · exact ⟨0, (append_nil _).symm, by simpa using hb⟩

theorem significantLen_zero (low : Bytes) :
    ∃ k core, low = core ++ List.replicate k 0 ∧ significantLen 0 low.reverse = core.length ∧
      (leVal core = 0 → core = []) := by
  obtain ⟨k, hk, hhead⟩ := skipSign_spec 0 low.reverse
  rw [reverse_reverse] at hk
  refine ⟨k, (skipSign 0 low.reverse).reverse, hk, ?_, ?_⟩
  · rw [significantLen, if_neg (by decide), length_reverse]
  intro hzero
  rw [leVal_eq_zero_iff] at hzero
  cases hs : skipSign 0 low.reverse with
  | nil => rfl
  | cons b r =>
    rw [hs] at hhead hzero
    exact absurd (congrArg some (hzero b (by simp))) hhead

/-- Sign extensions of a negative number are skipped, but for one that shows the sign. -/
theorem significantLen_max {low : Bytes} (htop : 128 ≤ (low.getLastD 0).toNat) :
    ∃ k core, low = core ++ List.replicate k 0xff ∧
      significantLen 0xff low.reverse = core.length ∧ 0 < leVal core := by
  obtain ⟨k, hlow, hhead⟩ := skipSign_spec 0xff low.reverse
  rw [reverse_reverse] at hlow
  -- the sign is one of the skipped bytes, unless the next byte shows it
  have hback : (∀ b r, skipSign 0xff low.reverse = b :: r → b &&& 0x80 = 0) → ∃ j, k = j + 1 := by
    intro hplain
    cases k with
    | succ j => exact ⟨j, rfl⟩
    | zero =>
      cases hs : skipSign 0xff low.reverse with
      | nil =>
        rw [hs] at hlow
        rw [hlow] at htop
        exact absurd htop (by decide)
      | cons b r =>
        have hb := hplain b r hs
        rw [and_top_eq_zero_iff] at hb
        rw [hs] at hlow
        rw [hlow] at htop
        simp at htop
        omega
  have hlast : ∀ core : Bytes, 0 < leVal (core ++ [0xff]) := by
    intro core
    rw [leVal_append]
    have hmax : leVal [0xff] = 255 := rfl
    rw [hmax]
    positivity
  rw [significantLen, if_pos rfl]
  cases hs : skipSign 0xff low.reverse with
  | nil =>
    obtain ⟨j, rfl⟩ := hback (by rw [hs]; intro b r h; cases h)
    rw [hs] at hlow
    exact ⟨j, [0xff], by rw [hlow]; rfl, rfl, hlast []⟩
  | cons b r =>
    rw [hs] at hlow
    dsimp only
    split_ifs with hplain
    · obtain ⟨j, rfl⟩ := hback (by
        rw [hs]
        rintro _ _ ⟨⟩
        exact hplain)
      refine ⟨j, (b :: r).reverse ++ [0xff], ?_, by simp, hlast _⟩
      rw [append_assoc]
      exact hlow
    · refine ⟨k, (b :: r).reverse, hlow, by simp, ?_⟩
      rw [Nat.pos_iff_ne_zero]
      intro hzero
      rw [leVal_eq_zero_iff] at hzero
      have hb := hzero b (by simp)
      rw [hb] at hplain
      exact hplain (by decide)

/-! ### Import -/

@[simp] theorem Endianness.length_fromLow (e : Endianness) (s : Bytes) :
    (e.fromLow s).length = s.length := by
  cases e <;> simp [Endianness.fromLow]

@[simp] theorem Endianness.mem_fromLow (e : Endianness) {s : Bytes} {b : UInt8} :
    b ∈ e.fromLow s ↔ b ∈ s := by
  cases e <;> simp [Endianness.fromLow]

@[simp] theorem Endianness.fromLow_fromLow (e : Endianness) (s : Bytes) :
    e.fromLow (e.fromLow s) = s := by
  cases e <;> simp [Endianness.fromLow]

/-- The number of a string of bytes. -/
def bytesNumber (e : Endianness) (sg : Signedness) (s : Bytes) : Int :=
  match sg with
  | .unsigned => leVal (e.fromLow s)
  | .signed => signed (e.fromLow s)

theorem top_bit_getLastD {low : Bytes} (hne : low ≠ []) :
    128 ≤ (low.getLastD 0).toNat ↔ 256 ^ low.length ≤ 2 * leVal low := by
  obtain ⟨init, b, rfl⟩ := (eq_nil_or_concat low).resolve_left hne
  rw [concat_eq_append, ← top_bit_iff]
  simp

theorem exists_ne_zero_iff (e : Endianness) {s : Bytes} :
    (∃ b ∈ s, b ≠ 0) ↔ leVal (e.fromLow s) ≠ 0 := by
  rw [ne_eq, leVal_eq_zero_iff]
  simp

theorem normal_zero : (zero : Bignum w).Normal := ⟨by simp [zero], by simp [zero]⟩

section Import

variable (hw : WordSize w) (h8 : 8 ∣ w)
include hw h8

theorem val_importWords (xor : UInt8) (carry : Bool) (core : Bytes) :
    val (wordsLoop xor ((core.length - 1) / bnBytes w + 1) carry core : Words w) =
      leVal (xorBytes xor carry core).1 := by
  have hpos : 0 < bnBytes w := by
    have := mul_bnBytes h8
    have := hw.pos
    omega
  have hdiv := Nat.lt_div_mul_add (a := core.length - 1) hpos
  rw [val_wordsLoop h8, take_of_length_le]
  rw [Nat.add_mul, Nat.one_mul]
  omega

/-- **The exits of an import.** -/
theorem bin2bn_cases (s : Bytes) (ret : Bignum w) (e : Endianness) (sg : Signedness) :
    (s = [] ∧ bin2bn s ret e sg = zero) ∨
    (s ≠ [] ∧ (∀ b ∈ s, b = 0) ∧ bin2bn s ret e sg = { ret with d := [] }) ∨
    ((∃ b ∈ s, b ≠ 0) ∧ ∃ a : Bignum w, bin2bn s ret e sg = bnCorrectTop a ∧
      (a.neg = true → sg = .signed) ∧ a.toInt = bytesNumber e sg s) := by
  by_cases hnil : s = []
  · exact .inl ⟨hnil, by rw [bin2bn, if_pos hnil]; rfl⟩
  right
  have hlow : e.fromLow s ≠ [] := by
    rw [← length_pos_iff, e.length_fromLow]
    exact length_pos_iff.2 hnil
  rw [bin2bn, if_neg hnil]
  dsimp only
  by_cases hneg : sg = .signed ∧ 128 ≤ ((e.fromLow s).getLastD 0).toNat
  · -- a negative number
    obtain ⟨rfl, htop⟩ := hneg
    have hflag : (decide (Signedness.signed = .signed) &&
        decide ((e.fromLow s).getLastD 0 &&& 0x80 ≠ 0)) = true := by
      rw [decide_eq_true rfl, Bool.true_and, decide_eq_true_eq, ne_eq, and_top_eq_zero_iff]
      omega
    obtain ⟨k, core, hcore, hlen, hpos⟩ := significantLen_max htop
    have hcorelen : core.length ≠ 0 := by
      intro h
      rw [length_eq_zero_iff.1 h, leVal_nil] at hpos
      exact Nat.lt_irrefl 0 hpos
    rw [hflag, if_pos rfl, hlen, if_neg hcorelen]
    have htake : (e.fromLow s).take core.length = core := by rw [hcore, take_left]
    rw [htake]
    refine .inr ⟨?_, ⟨_, true⟩, rfl, fun _ => rfl, ?_⟩
    · rw [top_bit_getLastD hlow] at htop
      have hbase : 0 < 256 ^ (e.fromLow s).length := by positivity
      exact (exists_ne_zero_iff e).2 (by omega)
    have hval := leVal_negate hpos
    rw [toInt, if_pos rfl, Bignum.toNat, val_importWords hw h8, bytesNumber, signed,
      if_neg (by rw [top_bit_getLastD hlow] at htop; omega), hcore, leVal_append,
      length_append, length_replicate]
    have hmax := leVal_replicate_max k
    zify at hval hmax ⊢
    linear_combination -hval - 256 ^ core.length * hmax
  · -- a number that is not negative
    have hflag : (decide (sg = .signed) && decide ((e.fromLow s).getLastD 0 &&& 0x80 ≠ 0)) =
        false := by
      rw [Bool.and_eq_false_iff, decide_eq_false_iff_not, decide_eq_false_iff_not, not_not,
        and_top_eq_zero_iff]
      by_cases hsg : sg = .signed
      · exact .inr (by by_contra h; exact hneg ⟨hsg, by omega⟩)
      · exact .inl hsg
    obtain ⟨k, core, hcore, hlen, hzero⟩ := significantLen_zero (e.fromLow s)
    have hxor : (if (false : Bool) = true then (0xff : UInt8) else 0) = 0 := rfl
    have hval : leVal (e.fromLow s) = leVal core := by
      rw [hcore, leVal_append, leVal_replicate_zero, Nat.mul_zero, Nat.add_zero]
    rw [hflag, hxor, hlen]
    by_cases hcorelen : core.length = 0
    · rw [if_pos hcorelen]
      refine .inl ⟨hnil, ?_, rfl⟩
      rw [length_eq_zero_iff.1 hcorelen, leVal_nil, leVal_eq_zero_iff] at hval
      exact fun b hb => hval b (e.mem_fromLow.2 hb)
    rw [if_neg hcorelen]
    have htake : (e.fromLow s).take core.length = core := by rw [hcore, take_left]
    rw [htake]
    refine .inr ⟨?_, ⟨_, false⟩, rfl, fun h => Bool.noConfusion h, ?_⟩
    · rw [exists_ne_zero_iff e, hval]
      exact fun h => hcorelen (length_eq_zero_iff.2 (hzero h))
    rw [toInt_of_not_neg rfl, Bignum.toNat, val_importWords hw h8, xorBytes_zero, ← hval]
    cases sg with
    | unsigned => rfl
    | signed =>
      have htop : ¬ 256 ^ (e.fromLow s).length ≤ 2 * leVal (e.fromLow s) :=
        fun h => hneg ⟨rfl, (top_bit_getLastD hlow).2 h⟩
      rw [bytesNumber, signed, if_pos (by omega)]

theorem toInt_bin2bn (s : Bytes) (ret : Bignum w) (e : Endianness) (sg : Signedness) :
    (bin2bn s ret e sg).toInt = bytesNumber e sg s := by
  rcases bin2bn_cases hw h8 s ret e sg with ⟨rfl, h⟩ | ⟨hne, hall, h⟩ | ⟨_, a, h, _, hnum⟩
  · cases e <;> cases sg <;> rfl
  · have hzero : leVal (e.fromLow s) = 0 :=
      leVal_eq_zero_iff.2 fun b hb => hall b (e.mem_fromLow.1 hb)
    rw [h, toInt]
    cases sg <;> simp [bytesNumber, signed, hzero, Bignum.toNat]
  · rw [h, toInt_bnCorrectTop, hnum]

theorem normal_bin2bn (s : Bytes) (e : Endianness) (sg : Signedness) :
    (bin2bn s (zero : Bignum w) e sg).Normal := by
  rcases bin2bn_cases hw h8 s zero e sg with ⟨_, h⟩ | ⟨_, _, h⟩ | ⟨_, b, h, _⟩
  · rw [h]
    exact normal_zero
  · rw [h]
    exact normal_zero
  · rw [h]
    exact normal_bnCorrectTop b

end Import

/-! ### Comparison -/

theorem bnCmp_self (a : Bignum w) : bnCmp a a = 0 := by
  have hwords : bnCmpWords a.d a.d = 0 := by
    rcases bnCmpWords_spec (rfl : a.d.length = a.d.length) with ⟨_, h⟩ | ⟨h, _⟩ | ⟨_, h⟩
    · exact absurd h (Nat.lt_irrefl _)
    · exact h
    · exact absurd h (Nat.lt_irrefl _)
  rw [bnCmp]
  simp [hwords]

/-- What code that compares or writes numbers expects of an import. -/
structure Canonical (r : Bignum w) (sg : Signedness) : Prop where
  last : r.d.getLast? ≠ some 0#w
  neg : r.toInt = 0 ∨ sg = .unsigned → r.neg = false
  cmp : ∀ fresh : Bignum w, fresh.Normal → fresh.toInt = r.toInt → bnCmp r fresh = 0

theorem Canonical.of_normal (hpos : 0 < w) {r : Bignum w} {sg : Signedness} (hn : r.Normal)
    (hunsigned : sg = .unsigned → r.neg = false) : Canonical r sg := by
  refine ⟨hn.last, ?_, ?_⟩
  · rintro (hzero | hsg)
    · rw [hn.eq_of_toInt hpos normal_zero hzero]
      rfl
    · exact hunsigned hsg
  · intro fresh hfresh heq
    rw [hfresh.eq_of_toInt hpos hn heq]
    exact bnCmp_self r

theorem canonical_zero (hpos : 0 < w) (sg : Signedness) : Canonical (zero : Bignum w) sg :=
  .of_normal hpos normal_zero fun _ => rfl

/-- **An import is canonical unless an all-zero string meets a negative destination.** -/
theorem bin2bn_canonical_iff (hw : WordSize w) (h8 : 8 ∣ w) (s : Bytes) (ret : Bignum w)
    (e : Endianness) (sg : Signedness) :
    (bin2bn s ret e sg = bin2bn s zero e sg ∧ Canonical (bin2bn s ret e sg) sg) ↔
      (ret.neg = true → s ≠ [] → ∃ b ∈ s, b ≠ 0) := by
  rcases bin2bn_cases hw h8 s ret e sg with ⟨rfl, h⟩ | ⟨hne, hall, h⟩ | ⟨hb, a, h, hsg, hnum⟩
  · apply iff_of_true
    · exact ⟨rfl, canonical_zero hw.pos sg⟩
    · intro _ hne
      exact absurd rfl hne
  · -- only the words of the destination are cleared
    have hfresh : bin2bn s (zero : Bignum w) e sg = zero := by
      apply (normal_bin2bn hw h8 s e sg).eq_of_toInt hw.pos normal_zero
      rw [toInt_bin2bn hw h8, ← toInt_bin2bn hw h8 s ret, h]
      simp [toInt, Bignum.toNat, zero]
    rw [h, hfresh]
    constructor
    · rintro ⟨heq, _⟩ hneg
      have hfalse : ret.neg = false := congrArg Bignum.neg heq
      rw [hfalse] at hneg
      cases hneg
    intro hcond
    have hneg : ret.neg = false := by
      by_contra hneg
      obtain ⟨b, hb, hb0⟩ := hcond (by simpa using hneg) hne
      exact hb0 (hall b hb)
    rw [hneg]
    exact ⟨rfl, canonical_zero hw.pos sg⟩
  · -- all words and the sign are written
    refine iff_of_true ⟨?_, ?_⟩ fun _ _ => hb
    · rw [h]
      apply (normal_bnCorrectTop a).eq_of_toInt hw.pos (normal_bin2bn hw h8 s e sg)
      rw [toInt_bnCorrectTop, hnum, toInt_bin2bn hw h8]
    rw [h]
    apply Canonical.of_normal hw.pos (normal_bnCorrectTop a)
    intro hunsigned
    have hneg : a.neg = false := by
      by_contra hneg
      rw [hsg (by simpa using hneg)] at hunsigned
      cases hunsigned
    simp [bnCorrectTop, hneg]

/-- An import over a negative number. -/
theorem bin2bn_canonical_over_negative :
    Canonical (bin2bn [0, 7] (⟨[5#64], true⟩ : Bignum 64) .big .signed) .signed :=
  ((bin2bn_canonical_iff ⟨by decide, by decide⟩ (by decide) [0, 7] ⟨[5#64], true⟩ .big .signed).2
    fun _ _ => ⟨7, by simp, by decide⟩).2

/-- An import of a zero byte into a number that was -5: a negative zero, which is less than zero. -/
theorem bin2bn_negative_zero :
    bin2bn [0] (⟨[5#64], true⟩ : Bignum 64) .big .unsigned = ⟨[], true⟩ ∧
      bnCmp (bin2bn [0] (⟨[5#64], true⟩ : Bignum 64) .big .unsigned) zero = -1 ∧
      bin2bn [0] (zero : Bignum 64) .big .unsigned = zero := by
  decide

/-! ### Export -/

theorem bnCorrectTop_of_normal (ha : a.Normal) : bnCorrectTop a = a := by
  obtain ⟨d, neg⟩ := a
  have hd : trim d = d := trim_of_getLast? ha.last
  simp only [bnCorrectTop, hd, Bignum.mk.injEq, true_and]
  cases neg with
  | false => simp
  | true => simp [ha.neg rfl]

/-- A byte of the words is a digit of their value. -/
theorem wordByte_eq (hw : WordSize w) (h8 : 8 ∣ w) {d : Words w} {j : Nat}
    (hj : j < d.length * bnBytes w) :
    UInt8.ofNat (d.getD (j / bnBytes w) 0#w >>> (8 * (j % bnBytes w))).toNat =
      UInt8.ofNat (val d / 256 ^ j) := by
  have hbytes := mul_bnBytes h8
  have hpos : 0 < bnBytes w := by
    have := hw.pos
    omega
  have hq : j / bnBytes w < d.length := (Nat.div_lt_iff_lt_mul hpos).2 hj
  have hr := Nat.mod_lt j hpos
  have hdrop := val_drop_getD hq
  rw [val_drop_eq_div hq.le] at hdrop
  have hpow : 256 ^ j = (2 ^ w) ^ (j / bnBytes w) * 2 ^ (8 * (j % bnBytes w)) := by
    have hbyte : (256 : Nat) = 2 ^ 8 := rfl
    rw [pow_words h8, Nat.pow_mul 2 8, ← hbyte, ← Nat.pow_add, Nat.div_add_mod']
  apply UInt8.toNat_inj.1
  show _ % 256 = _ % 256
  rw [BitVec.toNat_ushiftRight, Nat.shiftRight_eq_div_pow, hpow, ← Nat.div_div_eq_div_mul, hdrop]
  -- the words above are a multiple of 256 after the shift
  obtain ⟨t, ht⟩ : ∃ t, w = 8 * (j % bnBytes w) + (8 + t) :=
    ⟨w - 8 * (j % bnBytes w) - 8, by omega⟩
  have hmul : 2 ^ w * val (d.drop (j / bnBytes w + 1)) =
      2 ^ (8 * (j % bnBytes w)) * (256 * (2 ^ t * val (d.drop (j / bnBytes w + 1)))) := by
    have h : 2 ^ w = 2 ^ (8 * (j % bnBytes w)) * (2 ^ 8 * 2 ^ t) := by
      rw [← Nat.pow_add, ← Nat.pow_add, ← ht]
    rw [h]
    ring
  rw [hmul, Nat.add_mul_div_left _ _ (Nat.two_pow_pos _), Nat.add_mul_mod_self_left]

/-- The export writes the digits of the value, complemented where the number is negative. -/
theorem exportLoop_spec (hw : WordSize w) (h8 : 8 ∣ w) (d spare : Words w) (xor : UInt8)
    (k j : Nat) (carry : Bool) :
    exportLoop (d ++ spare) ((d ++ spare).length * bnBytes w - 1) (d.length * bnBytes w) xor k j
        (min j ((d ++ spare).length * bnBytes w - 1)) carry =
      (xorBytes xor carry (leBytes k (val d / 256 ^ j))).1 := by
  induction k generalizing j carry with
  | zero => rfl
  | succ k ih =>
    have hmem : d.length * bnBytes w ≤ (d ++ spare).length * bnBytes w :=
      Nat.mul_le_mul_right _ (by simp)
    have hbyte : (if j < d.length * bnBytes w then
        UInt8.ofNat ((d ++ spare).getD (min j ((d ++ spare).length * bnBytes w - 1) / bnBytes w)
          0#w >>> (8 * (min j ((d ++ spare).length * bnBytes w - 1) % bnBytes w))).toNat
        else 0) = UInt8.ofNat (val d / 256 ^ j) := by
      split_ifs with hj
      · have hmin : min j ((d ++ spare).length * bnBytes w - 1) = j := by omega
        have hget : (d ++ spare).getD (j / bnBytes w) 0#w = d.getD (j / bnBytes w) 0#w :=
          getD_append _ _ _ _ (Nat.div_lt_of_lt_mul (by rwa [Nat.mul_comm]))
        rw [hmin, hget, wordByte_eq hw h8 hj]
      · -- above `top` there is nothing
        have hlt := val_lt d
        rw [pow_words h8] at hlt
        rw [Nat.div_eq_of_lt (hlt.trans_le (Nat.pow_le_pow_right (by decide) (by omega)))]
        rfl
    have hnext : (if min j ((d ++ spare).length * bnBytes w - 1) <
        (d ++ spare).length * bnBytes w - 1 then
        min j ((d ++ spare).length * bnBytes w - 1) + 1
        else min j ((d ++ spare).length * bnBytes w - 1)) =
        min (j + 1) ((d ++ spare).length * bnBytes w - 1) := by
      split <;> omega
    rw [exportLoop, hbyte, hnext]
    simp only [ih, leBytes, xorBytes]
    rw [Nat.div_div_eq_div_mul, ← Nat.pow_succ]

/-- The bytes that an export writes. -/
def exportBytes (e : Endianness) (neg : Bool) (v tolen : Nat) : Bytes :=
  e.fromLow (xorBytes (if neg then 0xff else 0) neg (leBytes tolen v)).1

/-- **An export is the number modulo `256 ^ tolen`.** -/
theorem bn2binpad_eq (hw : WordSize w) (h8 : 8 ∣ w) (ha : a.Normal) (spare : Words w)
    (tolen : Option Nat) (e : Endianness) (sg : Signedness) :
    bn2binpad a spare tolen e sg = (exportLen a tolen sg).map
      (exportBytes e (decide (sg = .signed) && a.neg) a.toNat) := by
  rw [bn2binpad]
  congr 1
  funext n
  dsimp only
  split
  · rename_i hmem
    have hpos : bnBytes w ≠ 0 := by
      have := mul_bnBytes h8
      have := hw.pos
      omega
    have hnil : a.d = [] := by
      have hlen := (Nat.mul_eq_zero.1 hmem).resolve_right hpos
      rw [length_append] at hlen
      exact length_eq_zero_iff.1 (by omega)
    have hneg : a.neg = false := by
      by_contra h
      exact ha.neg (by simpa using h) hnil
    have hzero : leBytes n 0 = List.replicate n 0 :=
      leVal_inj (by simp) (by rw [leVal_leBytes, leVal_replicate_zero, Nat.zero_mod])
    have hxor : xorBytes 0 false (leBytes n 0) = (List.replicate n 0, false) := by
      rw [xorBytes_zero, hzero]
    rw [exportBytes, hneg, Bool.and_false, Bignum.toNat, hnil, val_nil]
    simp only [Bool.false_eq_true, if_false, hxor]
    cases e <;> simp [Endianness.fromLow]
  · have hloop := exportLoop_spec hw h8 a.d spare
      (if (decide (sg = .signed) && a.neg) = true then 0xff else 0) n 0
    rw [Nat.zero_min, Nat.pow_zero, Nat.div_one] at hloop
    rw [exportBytes, Bignum.top, hloop, Bignum.toNat]

theorem exportLen_some (ha : a.Normal) (tolen : Nat) (sg : Signedness) :
    exportLen a (some tolen) sg =
      if tolen < bnNumBytes a + signExt a sg then none else some tolen := by
  simp only [exportLen, bnCorrectTop_of_normal ha]
  split <;> rfl

@[simp] theorem length_exportBytes (e : Endianness) (neg : Bool) (v tolen : Nat) :
    (exportBytes e neg v tolen).length = tolen := by
  simp [exportBytes]

/-- Read back, the bytes of a signed export are the number exactly if it fits. -/
theorem signed_exportBytes_iff (e : Endianness) (a : Bignum w) {tolen : Nat} (hpos : 0 < tolen) :
    signed (e.fromLow (exportBytes e a.neg a.toNat tolen)) = a.toInt ↔ Fits a.toInt tolen := by
  have hlen : (xorBytes (if a.neg then 0xff else 0) a.neg (leBytes tolen a.toNat)).1.length =
      tolen := by simp
  rw [exportBytes, e.fromLow_fromLow]
  constructor
  · intro h
    rw [← h]
    have hfits := @fits_signed (xorBytes (if a.neg then 0xff else 0) a.neg
      (leBytes tolen a.toNat)).1 (length_pos_iff.1 (by omega))
    rwa [hlen] at hfits
  intro h
  apply signed_of_fits (by rwa [hlen])
  rw [hlen]
  cases hneg : a.neg with
  | false =>
    rw [toInt_of_not_neg hneg]
    simp only [Bool.false_eq_true, if_false, xorBytes_zero, leVal_leBytes]
    rfl
  | true =>
    have hint : a.toInt = -(a.toNat : Int) := by simp [toInt, hneg]
    have hneg := leVal_negate_mod (leBytes tolen a.toNat)
    rw [leVal_leBytes, length_leBytes] at hneg
    simp only [if_true]
    rw [hneg, hint, Int.natCast_mod]
    exact (Int.mod_modEq _ _).neg

theorem pow_bytes (n : Nat) : 256 ^ n = 2 ^ (8 * n) := by rw [Nat.pow_mul]

/-- The length that the code compares with is right for numbers that are not negative. -/
theorem exported_iff_of_not_neg (hw : WordSize w) (ha : a.Normal) (hneg : a.neg = false)
    (tolen : Nat) : bnNumBytes a + signExt a .signed ≤ tolen ↔ Fits a.toInt tolen := by
  have hsize := @Nat.size_le a.toNat (8 * tolen - 1)
  have hfits : Fits a.toInt tolen ↔ 0 < tolen ∧ a.toNat < 2 ^ (8 * tolen - 1) := by
    have hcast : (a.toNat : Int) < 2 ^ (8 * tolen - 1) ↔ a.toNat < 2 ^ (8 * tolen - 1) := by
      norm_cast
    have hlow : -(2 : Int) ^ (8 * tolen - 1) ≤ a.toNat :=
      (neg_nonpos.2 (by positivity)).trans (by positivity)
    rw [Fits, toInt_of_not_neg hneg, hcast]
    simp [hlow]
  rw [hfits, ← hsize, bnNumBytes, signExt, hneg, bnNumBytes, bnNumBits_eq_size hw ha]
  split
  · simp only [Bool.not_false, if_true]
    omega
  · simp only [Bool.false_eq_true, if_false]
    omega

theorem fits_neg_iff {v n : Nat} (hv : 0 < v) (hn : 0 < n) :
    Fits (-(v : Int)) n ↔ v.size ≤ 8 * n - 1 ∨ v = 2 ^ (8 * n - 1) := by
  have hcast : -(2 : Int) ^ (8 * n - 1) ≤ -(v : Int) ↔ v ≤ 2 ^ (8 * n - 1) := by
    rw [neg_le_neg_iff]
    norm_cast
  have hup : -(v : Int) < 2 ^ (8 * n - 1) :=
    (neg_lt_zero.2 (by exact_mod_cast hv)).trans (by positivity)
  rw [Fits, hcast, Nat.size_le]
  constructor
  · rintro ⟨_, hle, _⟩
    exact Nat.lt_or_eq_of_le hle
  · intro h
    exact ⟨hn, h.elim Nat.le_of_lt Nat.le_of_eq, hup⟩

/-- For negative numbers the length is right unless the absolute value has as many bytes. -/
theorem exported_iff_of_neg (hw : WordSize w) (ha : a.Normal) (hneg : a.neg = true) (tolen : Nat) :
    (bnNumBytes a + signExt a .signed ≤ tolen ↔ Fits a.toInt tolen) ↔
      ¬ (256 ^ (tolen - 1) ≤ a.toNat ∧ a.toNat < 256 ^ tolen ∧ a.toNat ≠ 2 ^ (8 * tolen - 1)) := by
  have hpos := ha.toNat_pos hneg
  have hint : a.toInt = -(a.toNat : Int) := by simp [toInt, hneg]
  have hbits : 0 < a.toNat.size := Nat.size_pos.2 hpos
  rw [hint, bnNumBytes, signExt, hneg, bnNumBytes, bnNumBits_eq_size hw ha, pow_bytes, pow_bytes,
    ← Nat.size_le, ← Nat.lt_size]
  -- a power of two has its exponent and one more bits
  have hpow : 0 < tolen → a.toNat = 2 ^ (8 * tolen - 1) → a.toNat.size = 8 * tolen := by
    intro htolen h
    rw [h, Nat.size_pow]
    omega
  have hfits : 0 < tolen → (Fits (-(a.toNat : Int)) tolen ↔
      a.toNat.size ≤ 8 * tolen - 1 ∨ a.toNat = 2 ^ (8 * tolen - 1)) := fits_neg_iff hpos
  cases tolen with
  | zero =>
    have hno := not_fits_zero (-(a.toNat : Int))
    apply iff_of_true (iff_of_false _ hno)
    · omega
    · split <;> omega
  | succ n =>
    rw [hfits n.succ_pos]
    have hpow := hpow n.succ_pos
    generalize a.toNat = v at hpow hbits ⊢
    split
    · simp only [Bool.not_true, Bool.false_eq_true, if_false]
      by_cases hv : v = 2 ^ (8 * (n + 1) - 1)
      · rw [← hv]
        omega
      · omega
    · simp only [if_true]
      by_cases hv : v = 2 ^ (8 * (n + 1) - 1)
      · omega
      · omega

theorem exported_pos (hw : WordSize w) (ha : a.Normal) : 0 < bnNumBytes a + signExt a .signed := by
  cases hneg : a.neg with
  | false =>
    have h := exported_iff_of_not_neg hw ha hneg 0
    have hno := not_fits_zero a.toInt
    rw [iff_false_right hno] at h
    omega
  | true =>
    have hbits : 0 < a.toNat.size := Nat.size_pos.2 (ha.toNat_pos hneg)
    rw [bnNumBytes, bnNumBits_eq_size hw ha]
    omega

/-- **A signed export and the import are inverse, and an export fails only if the number does not
fit, unless the number is negative and its absolute value has exactly `tolen` bytes.** The most
negative number of `tolen` bytes is right. -/
theorem signed_export_import_iff (hw : WordSize w) (h8 : 8 ∣ w) {a : Bignum w} (ha : a.Normal)
    (spare : Words w) (tolen : Nat) (e : Endianness) :
    ((∀ bytes, bn2binpad a spare (some tolen) e .signed = some bytes →
        bytes.length = tolen ∧ bin2bn bytes zero e .signed = a) ∧
      (bn2binpad a spare (some tolen) e .signed = none → ¬ Fits a.toInt tolen)) ↔
    ¬ (a.toInt < 0 ∧ 256 ^ (tolen - 1) ≤ a.toInt.natAbs ∧ a.toInt.natAbs < 256 ^ tolen ∧
      a.toInt ≠ -2 ^ (8 * tolen - 1)) := by
  have hexport : bn2binpad a spare (some tolen) e .signed =
      if tolen < bnNumBytes a + signExt a .signed then none
      else some (exportBytes e a.neg a.toNat tolen) := by
    rw [bn2binpad_eq hw h8 ha, exportLen_some ha]
    split <;> simp
  have hpos := exported_pos hw ha
  -- what was exported is read back exactly if it fits
  have hround : 0 < tolen → (bin2bn (exportBytes e a.neg a.toNat tolen) zero e .signed = a ↔
      Fits a.toInt tolen) := by
    intro htolen
    rw [← signed_exportBytes_iff e a htolen]
    have hval := toInt_bin2bn hw h8 (exportBytes e a.neg a.toNat tolen) zero e .signed
    constructor
    · intro h
      rw [h] at hval
      exact hval.symm
    · intro h
      exact (normal_bin2bn hw h8 _ e _).eq_of_toInt hw.pos ha (hval.trans h)
  -- both parts say that the length is right
  have hlength : ((∀ bytes, bn2binpad a spare (some tolen) e .signed = some bytes →
        bytes.length = tolen ∧ bin2bn bytes zero e .signed = a) ∧
      (bn2binpad a spare (some tolen) e .signed = none → ¬ Fits a.toInt tolen)) ↔
      (bnNumBytes a + signExt a .signed ≤ tolen ↔ Fits a.toInt tolen) := by
    rw [hexport]
    split
    · have hno : ¬ bnNumBytes a + signExt a .signed ≤ tolen := by omega
      simp [hno]
    · have hle : bnNumBytes a + signExt a .signed ≤ tolen := by omega
      rw [iff_true_left hle, ← hround (by omega)]
      simp
  rw [hlength]
  cases hneg : a.neg with
  | false =>
    have hnonneg : ¬ a.toInt < 0 := by
      rw [toInt_of_not_neg hneg]
      omega
    exact iff_of_true (exported_iff_of_not_neg hw ha hneg tolen) fun h => hnonneg h.1
  | true =>
    have hint : a.toInt = -(a.toNat : Int) := by simp [toInt, hneg]
    have hlt : a.toInt < 0 := by
      have := ha.toNat_pos hneg
      omega
    have hmost : a.toInt ≠ -2 ^ (8 * tolen - 1) ↔ a.toNat ≠ 2 ^ (8 * tolen - 1) := by
      rw [hint, ne_eq, neg_inj]
      norm_cast
    rw [exported_iff_of_neg hw ha hneg, natAbs_toInt, hmost]
    simp [hlt]

/-- -128 is written in one byte, and read back. -/
theorem signed_export_import_most_negative :
    (∀ bytes, bn2binpad (⟨[128#64], true⟩ : Bignum 64) [] (some 1) .big .signed = some bytes →
        bytes.length = 1 ∧ bin2bn bytes zero .big .signed = (⟨[128#64], true⟩ : Bignum 64)) ∧
      (bn2binpad (⟨[128#64], true⟩ : Bignum 64) [] (some 1) .big .signed = none →
        ¬ Fits (⟨[128#64], true⟩ : Bignum 64).toInt 1) :=
  (signed_export_import_iff ⟨by decide, by decide⟩ (by decide) (by decide) [] 1 .big).2 (by decide)

/-- -200 is written in one byte and read back as 56; -1 is refused for one byte. -/
theorem signed_export_import_slips :
    (bnSignedBn2bin (⟨[200#64], true⟩ : Bignum 64) [] 1).map (bnSignedBin2bn · none) =
        some (⟨[56#64], false⟩ : Bignum 64) ∧
      bnSignedBn2bin (⟨[1#64], true⟩ : Bignum 64) [] 1 = none ∧ Fits (-1) 1 := by
  decide

end QuicTls.Bn
