import QuicTls.Crypto.Bn.Mul
import QuicTls.Verify.Bn.Comba
import QuicTls.Verify.Bn.Div

/-!
# Multiplication and squaring are exact, whichever algorithm is chosen

The comba routines, the loop over the words and the recursions give the product (`IsProduct`);
`mul_independent_of_algorithm` puts them together.
-/

namespace QuicTls.Bn

open Limbs LongDivision Bignum List

variable {w : Nat} {r a lo hi mid b : Words w} {n a0 a1 b0 b1 m : Nat} {neg : Bool}

/-! ### Schoolbook multiplication -/

theorem mulWords_carry (v : Word w) (a : Words w) :
    val ((bnMulWords a v).1 ++ [(bnMulWords a v).2]) = val a * v.toNat ∧
      ((bnMulWords a v).1 ++ [(bnMulWords a v).2]).length = a.length + 1 := by
  obtain ⟨hval, hlen⟩ := bnMulWords_spec v a
  rw [val_concat, length_append, hlen, hval]
  exact ⟨rfl, rfl⟩

theorem mulAddWords_carry {k : Nat} (hr : r.length = k + a.length) (v : Word w)
    {next : Words w × Word w} (hnext : bnMulAddWords (r.drop k) a v = next) :
    (r.take k).length = k ∧ (next.1 ++ [next.2]).length = a.length + 1 ∧
      val (r.take k) + (2 ^ w) ^ k * val (next.1 ++ [next.2]) =
        val r + (2 ^ w) ^ k * (val a * v.toNat) := by
  have htake : (r.take k).length = k := by
    rw [length_take]
    omega
  have hdrop : (r.drop k).length = a.length := by
    rw [length_drop]
    omega
  have hsplit := val_take_add_drop k r
  obtain ⟨hadd, hlen⟩ := hnext ▸ bnMulAddWords_spec v hdrop
  rw [htake] at hsplit
  refine ⟨htake, ?_, ?_⟩
  · rw [length_append, hlen, length_singleton]
  · rw [val_concat, hlen, hadd]
    linear_combination -hsplit

theorem mulNormalLoop_spec (hr : r.length = a.length + 1) (b : Words w) :
    val (mulNormalLoop a r b) = val r + 2 ^ w * (val a * val b) ∧
      (mulNormalLoop a r b).length = a.length + 1 + b.length := by
  induction b generalizing r with
  | nil => simp [mulNormalLoop, hr]
  | cons v b ih =>
    rw [mulNormalLoop]
    obtain ⟨htake, hlen, hadd⟩ := mulAddWords_carry (k := 1) (r := r) (a := a) (by omega) v rfl
    obtain ⟨hval, hlength⟩ := ih hlen
    constructor
    · rw [val_append, htake, hval, val_cons]
      linear_combination hadd
    · rw [length_append, length_cons]
      omega

theorem mulNormalLonger_spec (a b : Words w) :
    IsProduct (mulNormalLonger a b) (a.length + b.length) (val a) (val b) := by
  cases b with
  | nil =>
    obtain ⟨hval, hlen⟩ := bnMulWords_spec 0#w a
    exact ⟨by simpa [mulNormalLonger] using (Nat.add_eq_zero_iff.1 hval).1, hlen⟩
  | cons v b =>
    obtain ⟨hfirst, hlen⟩ := mulWords_carry v a
    obtain ⟨hval, hlength⟩ := mulNormalLoop_spec hlen b
    rw [mulNormalLonger]
    constructor
    · rw [hval, hfirst, val_cons]
      ring
    · rw [hlength, length_cons]
      omega

theorem bnMulNormal_spec (a b : Words w) :
    IsProduct (bnMulNormal a b) (a.length + b.length) (val a) (val b) := by
  rw [bnMulNormal]
  split
  · have h := mulNormalLonger_spec b a
    exact ⟨by rw [h.val, Nat.mul_comm], by rw [h.length, Nat.add_comm]⟩
  · exact mulNormalLonger_spec a b

/-- A carry out of a word leaves room for it in the words above. -/
theorem carry_lt {lo ln : Word w} {p : Words w} {c : Nat} (hsum : lo.toNat + c = ln.toNat + 2 ^ w)
    (h : val (lo :: p) + c < (2 ^ w) ^ (lo :: p).length) : val p + 1 < (2 ^ w) ^ p.length := by
  rw [val_cons, length_cons, Nat.pow_succ'] at h
  apply Nat.lt_of_mul_lt_mul_left (a := 2 ^ w)
  rw [Nat.mul_add]
  omega

theorem carryOver_spec (hpos : 0 < w) {p : Words w} (h : val p + 1 < (2 ^ w) ^ p.length) :
    ∃ p', carryOver p = some p' ∧ val p' = val p + 1 ∧ p'.length = p.length := by
  induction p with
  | nil => simp at h
  | cons lo p ih =>
    rw [carryOver]
    rcases add_one_cases hpos lo with ⟨hzero, hfull⟩ | ⟨hne, hadd⟩
    · rw [if_pos hzero]
      obtain ⟨p', hp', hval, hlen⟩ := ih (@carry_lt w lo 0#w p 1 (by simp; omega) h)
      refine ⟨_, by rw [hp']; rfl, ?_, ?_⟩
      · rw [val_cons, val_cons, hzero, hval, BitVec.toNat_ofNat, Nat.zero_mod, Nat.mul_add]
        omega
      · rw [length_cons, length_cons, hlen]
    · rw [if_neg hne]
      refine ⟨_, rfl, ?_, by simp⟩
      rw [val_cons, val_cons]
      omega

/-- The carry stays in the words above the middle term if the sum does. -/
theorem addCarry_spec (hpos : 0 < w) {c1 : Nat} (hc1 : c1 < 2 ^ w) {p : Words w}
    (h : val p + c1 < (2 ^ w) ^ p.length) :
    ∃ p', addCarry c1 p = some p' ∧ val p' = val p + c1 ∧ p'.length = p.length := by
  rw [addCarry.eq_def, if_neg (by omega)]
  split
  · exact ⟨p, rfl, by omega, rfl⟩
  cases p with
  | nil =>
    rw [length_nil, Nat.pow_zero] at h
    omega
  | cons lo p =>
    have hcw : (BitVec.ofInt w c1).toNat = c1 := by
      rw [BitVec.ofInt_natCast, BitVec.toNat_ofNat, Nat.mod_eq_of_lt hc1]
    have hsum := add_spec lo (BitVec.ofInt w c1)
    dsimp only
    split_ifs with hover
    · rw [if_pos hover, Nat.mul_one, hcw] at hsum
      obtain ⟨p', hp', hval, hlen⟩ := carryOver_spec hpos (carry_lt hsum h)
      refine ⟨_, by rw [hp']; rfl, ?_, ?_⟩
      · rw [val_cons, val_cons, hval, Nat.mul_add]
        omega
      · rw [length_cons, length_cons, hlen]
    · rw [if_neg hover] at hsum
      refine ⟨_, rfl, ?_, by simp⟩
      rw [val_cons, val_cons]
      omega

/-- `m` is the product `(a0 - a1) * (b1 - b0)` up to the sign, which makes `a0 * b1 + a1 * b0` of
the two other products. -/
def IsMiddle (a0 a1 b0 b1 m : Nat) (neg : Bool) : Prop :=
  if neg then a0 * b0 + a1 * b1 = a0 * b1 + a1 * b0 + m
  else a0 * b0 + a1 * b1 + m = a0 * b1 + a1 * b0

/-- The middle term of the product, from the products of the halves and of their differences. -/
theorem middleTerm_spec (hpos : 0 < w) (hlo : IsProduct lo n a0 b0) (hhi : IsProduct hi n a1 b1)
    (hlen : mid.length = n) (hmid : IsMiddle a0 a1 b0 b1 (val mid) neg) :
    ∃ c : Nat, (middleTerm lo hi mid neg).2 = c ∧ c ≤ 2 ∧
      val (middleTerm lo hi mid neg).1 + (2 ^ w) ^ n * c = a0 * b1 + a1 * b0 ∧
      (middleTerm lo hi mid neg).1.length = n := by
  have hlohi : lo.length = hi.length := by rw [hlo.length, hhi.length]
  obtain ⟨hadd, hc, haddlen⟩ := bnAddWords_spec hpos hlohi
  rw [hlo.length] at hadd haddlen
  rw [hlo.val, hhi.val] at hadd
  rw [middleTerm]
  generalize bnAddWords lo hi = t at *
  cases neg with
  | true =>
    have htmid : t.1.length = mid.length := by rw [haddlen, hlen]
    obtain ⟨hsub, hb, hsublen⟩ := bnSubWords_spec hpos htmid
    rw [haddlen] at hsub hsublen
    simp only [if_true]
    generalize bnSubWords t.1 mid = d at *
    simp only [IsMiddle, if_true] at hmid
    have hlt := val_lt d.1
    rw [hsublen] at hlt
    -- the difference is not negative, so a borrow uses up the carry of the sum
    have hle : d.2.toNat ≤ t.2.toNat := by
      by_contra hgt
      have h0 : t.2.toNat = 0 := by omega
      have h1 : d.2.toNat = 1 := by omega
      rw [h0, Nat.mul_zero] at hadd
      rw [h1] at hsub
      omega
    refine ⟨t.2.toNat - d.2.toNat, by omega, by omega, ?_, hsublen⟩
    obtain ⟨e, he⟩ := Nat.exists_eq_add_of_le hle
    rw [he] at hadd ⊢
    rw [Nat.add_sub_cancel_left]
    linear_combination hadd - hsub + hmid
  | false =>
    have htmid : mid.length = t.1.length := by rw [haddlen, hlen]
    obtain ⟨hsum, hc', hsumlen⟩ := bnAddWords_spec hpos htmid
    rw [hlen] at hsum hsumlen
    simp only [Bool.false_eq_true, if_false]
    generalize bnAddWords mid t.1 = d at *
    simp only [IsMiddle, Bool.false_eq_true, if_false] at hmid
    refine ⟨t.2.toNat + d.2.toNat, by omega, by omega, ?_, hsumlen⟩
    linear_combination hadd + hsum + hmid

/-- **The carry is never negative and never leaves the result.** -/
theorem combine_spec (hw : WordSize w) (hlo : IsProduct lo (2 * n) a0 b0)
    (hhi : IsProduct hi (2 * n) a1 b1) (hlen : mid.length = 2 * n)
    (hmid : IsMiddle a0 a1 b0 b1 (val mid) neg) (ha : a0 + (2 ^ w) ^ n * a1 < (2 ^ w) ^ (2 * n))
    (hb : b0 + (2 ^ w) ^ n * b1 < (2 ^ w) ^ (2 * n)) :
    ∃ r, combine n lo hi mid neg = some r ∧
      IsProduct r (2 * (2 * n)) (a0 + (2 ^ w) ^ n * a1) (b0 + (2 ^ w) ^ n * b1) := by
  obtain ⟨c, hc, hc2, hmval, hmlen⟩ := middleTerm_spec hw.pos hlo hhi hlen hmid
  have hrlen : (lo ++ hi).length = 4 * n := by
    rw [length_append, hlo.length, hhi.length]
    omega
  have hslice : (((lo ++ hi).drop n).take (2 * n)).length = 2 * n := by
    rw [length_take, length_drop]
    omega
  have htake : ((lo ++ hi).take n).length = n := by
    rw [length_take]
    omega
  have htop : ((lo ++ hi).drop (n + 2 * n)).length = n := by
    rw [length_drop]
    omega
  have hr := val_append lo hi
  rw [hlo.val, hhi.val, hlo.length, val_take_add_drop n (lo ++ hi), htake,
    val_take_add_drop (2 * n) ((lo ++ hi).drop n), hslice, drop_drop] at hr
  rw [combine]
  generalize middleTerm lo hi mid neg = m at *
  obtain ⟨hadd, hc', haddlen⟩ := bnAddWords_spec hw.pos (hslice.trans hmlen.symm)
  rw [hslice] at hadd haddlen
  dsimp only
  generalize bnAddWords (((lo ++ hi).drop n).take (2 * n)) m.1 = s at *
  have hpow : (2 ^ w) ^ (2 * n) = (2 ^ w) ^ n * (2 ^ w) ^ n := by
    rw [Nat.two_mul, Nat.pow_add]
  have htotal : val ((lo ++ hi).take n) + (2 ^ w) ^ n * (val s.1 + (2 ^ w) ^ (2 * n) *
        (val ((lo ++ hi).drop (n + 2 * n)) + (c + s.2.toNat))) =
      (a0 + (2 ^ w) ^ n * a1) * (b0 + (2 ^ w) ^ n * b1) := by
    linear_combination hr + (2 ^ w) ^ n * hadd + (2 ^ w) ^ n * hmval
  have hroom : val ((lo ++ hi).drop (n + 2 * n)) + (c + s.2.toNat) <
      (2 ^ w) ^ ((lo ++ hi).drop (n + 2 * n)).length := by
    have hlt := Nat.mul_lt_mul'' ha hb
    rw [← htotal] at hlt
    rw [htop]
    apply Nat.lt_of_mul_lt_mul_left
    calc _ ≤ _ := ?_
      _ < (2 ^ w) ^ (2 * n) * (2 ^ w) ^ (2 * n) := hlt
      _ = (2 ^ w) ^ n * (2 ^ w) ^ (2 * n) * (2 ^ w) ^ n := by rw [hpow]; ring
    rw [Nat.mul_assoc]
    exact (Nat.mul_le_mul_left _ (Nat.le_add_left _ _)).trans (Nat.le_add_left _ _)
  have hsmall := hw.lt_two_pow (n := 4) (by decide)
  have hword : c + s.2.toNat < 2 ^ w := by omega
  obtain ⟨p, hp, hpval, hplen⟩ := addCarry_spec hw.pos hword hroom
  rw [Nat.cast_add] at hp
  refine ⟨(lo ++ hi).take n ++ s.1 ++ p, by rw [hc, hp]; rfl, ?_, ?_⟩
  · rw [← htotal, append_assoc, val_append, val_append, htake, haddlen, hpval]
  · simp only [length_append]
    omega

theorem isMiddle_zero (h : a0 = a1 ∨ b0 = b1) (neg : Bool) : IsMiddle a0 a1 b0 b1 0 neg := by
  rcases h with rfl | rfl <;> cases neg <;> simp [IsMiddle] <;> ring

/-- The sign follows from which differences are turned around. -/
theorem isMiddle_mul {s t : Nat} :
    (s + a0 = a1 → t + b1 = b0 → IsMiddle a0 a1 b0 b1 (s * t) false) ∧
    (s + a0 = a1 → t + b0 = b1 → IsMiddle a0 a1 b0 b1 (s * t) true) ∧
    (s + a1 = a0 → t + b1 = b0 → IsMiddle a0 a1 b0 b1 (s * t) true) ∧
    (s + a1 = a0 → t + b0 = b1 → IsMiddle a0 a1 b0 b1 (s * t) false) := by
  refine ⟨?_, ?_, ?_, ?_⟩ <;> rintro rfl rfl <;> simp [IsMiddle] <;> ring

theorem differences_eq (a0 a1 b0 b1 : Words w) : differences a0 a1 b0 b1 =
    if bnCmpPartWords a0 a1 = 0 ∨ bnCmpPartWords b1 b0 = 0 then none
    else some (partDifferences a0 a1 b0 b1) := by
  rcases bnCmpPartWords_spec a0 a1 with ⟨hc1, _⟩ | ⟨hc1, _⟩ | ⟨hc1, _⟩ <;>
    rcases bnCmpPartWords_spec b1 b0 with ⟨hc2, _⟩ | ⟨hc2, _⟩ | ⟨hc2, _⟩ <;>
    simp [differences, partDifferences, hc1, hc2]

section Halves

variable {a0 a1 b0 b1 : Words w} (ha0 : a0.length = n) (ha1 : a1.length ≤ n)
  (hb0 : b0.length = n) (hb1 : b1.length ≤ n)
include ha0 ha1 hb0 hb1

/-- In the switch of `bn_mul_part_recursive` one of the differences is zero where the other one is
turned around the wrong way. -/
theorem partDifferences_spec (hpos : 0 < w) :
    (partDifferences a0 a1 b0 b1).1.length = n ∧ (partDifferences a0 a1 b0 b1).2.1.length = n ∧
      IsMiddle (val a0) (val a1) (val b0) (val b1)
        (val (partDifferences a0 a1 b0 b1).1 * val (partDifferences a0 a1 b0 b1).2.1)
        (partDifferences a0 a1 b0 b1).2.2 := by
  have ha01 := bnSubPartWords_spec hpos a0 a1
  have ha10 := bnSubPartWords_spec hpos a1 a0
  have hb01 := bnSubPartWords_spec hpos b0 b1
  have hb10 := bnSubPartWords_spec hpos b1 b0
  rw [ha0, Nat.max_eq_left ha1] at ha01
  rw [ha0, Nat.max_eq_right ha1] at ha10
  rw [hb0, Nat.max_eq_left hb1] at hb01
  rw [hb0, Nat.max_eq_right hb1] at hb10
  rw [partDifferences]
  rcases bnCmpPartWords_spec a0 a1 with ⟨hc1, ha⟩ | ⟨hc1, ha⟩ | ⟨hc1, ha⟩
  · have hs := ha01.2 ha.le
    rcases bnCmpPartWords_spec b1 b0 with ⟨hc2, hb⟩ | ⟨hc2, hb⟩ | ⟨hc2, hb⟩ <;> rw [hc1, hc2]
    · exact ⟨ha01.1, hb10.1, isMiddle_mul.2.2.2 hs (hb10.2 hb.le)⟩
    · exact ⟨ha01.1, hb10.1, isMiddle_mul.2.2.2 hs (hb10.2 hb.ge)⟩
    · exact ⟨ha01.1, hb01.1, isMiddle_mul.2.2.1 hs (hb01.2 hb.le)⟩
  · have hs := ha01.2 ha.ge
    have hzero : val (bnSubPartWords a0 a1).1 = 0 := by omega
    rcases bnCmpPartWords_spec b1 b0 with ⟨hc2, _⟩ | ⟨hc2, _⟩ | ⟨hc2, _⟩
    all_goals
      rw [hc1, hc2]
      refine ⟨ha01.1, hb01.1, ?_⟩
      show IsMiddle _ _ _ _ (val (bnSubPartWords a0 a1).1 * _) true
      rw [hzero, Nat.zero_mul]
      exact isMiddle_zero (.inl ha) true
  · have hs := ha10.2 ha.le
    rcases bnCmpPartWords_spec b1 b0 with ⟨hc2, hb⟩ | ⟨hc2, hb⟩ | ⟨hc2, hb⟩ <;> rw [hc1, hc2]
    · exact ⟨ha10.1, hb10.1, isMiddle_mul.2.1 hs (hb10.2 hb.le)⟩
    · exact ⟨ha10.1, hb10.1, isMiddle_mul.2.1 hs (hb10.2 hb.ge)⟩
    · exact ⟨ha10.1, hb01.1, isMiddle_mul.1 hs (hb01.2 hb.le)⟩

theorem differences_cases (hpos : 0 < w) :
    (differences a0 a1 b0 b1 = none ∧ ∀ neg, IsMiddle (val a0) (val a1) (val b0) (val b1) 0 neg) ∨
      ∃ t0 t1 neg, differences a0 a1 b0 b1 = some (t0, t1, neg) ∧ t0.length = n ∧
        t1.length = n ∧ IsMiddle (val a0) (val a1) (val b0) (val b1) (val t0 * val t1) neg := by
  have hpart := partDifferences_spec ha0 ha1 hb0 hb1 hpos
  rw [differences_eq]
  split
  · rename_i hzero
    refine .inl ⟨rfl, isMiddle_zero (hzero.imp ?_ fun hb => Eq.symm ?_)⟩
    · exact (bnCmpPartWords_spec a0 a1).eq_of_zero
    · exact (bnCmpPartWords_spec b1 b0).eq_of_zero hb
  · exact .inr ⟨_, _, _, rfl, hpart⟩

end Halves

/-! ### Recursive multiplication -/

theorem halves (hge : n ≤ a.length) (hle : a.length ≤ 2 * n) :
    (a.take n).length = n ∧ (a.drop n).length ≤ n ∧
      val (a.take n) + (2 ^ w) ^ n * val (a.drop n) = val a ∧ val a < (2 ^ w) ^ (2 * n) := by
  have htake : (a.take n).length = n := by
    rw [length_take]
    omega
  have hsplit := val_take_add_drop n a
  rw [htake] at hsplit
  refine ⟨htake, ?_, hsplit.symm, (val_lt a).trans_le ?_⟩
  · rw [length_drop]
    omega
  · exact Nat.pow_le_pow_right (Nat.two_pow_pos w) hle

theorem IsProduct.pad {a b : Nat} (h : IsProduct r n a b) (hle : n ≤ m) :
    IsProduct (r ++ List.replicate (m - n) 0#w) m a b := by
  refine ⟨?_, ?_⟩
  · rw [val_append, val_replicate_zero, Nat.mul_zero, Nat.add_zero, h.val]
  · rw [length_append, length_replicate, h.length]
    omega

theorem IsProduct.clear {a b : Nat} (h : IsProduct r m a b) (hle : m ≤ 2 * n) :
    IsProduct (r ++ List.replicate (n * 2 - r.length) 0#w) (2 * n) a b := by
  rw [h.length, Nat.mul_comm n 2]
  exact h.pad hle

theorem IsProduct.take {a b : Nat} (h : IsProduct r n a b) (hle : m ≤ n)
    (hlt : a * b < (2 ^ w) ^ m) : IsProduct (r.take m) m a b := by
  refine ⟨by rw [val_take_of_lt (h.val ▸ hlt), h.val], ?_⟩
  rw [length_take, h.length]
  omega

/-- The product is computed, in `n` words. -/
def Computes (x : Option (Words w)) (n a b : Nat) : Prop :=
  ∃ r, x = some r ∧ IsProduct r n a b

theorem IsProduct.computes {a b : Nat} (h : IsProduct r n a b) : Computes (some r) n a b :=
  ⟨r, rfl, h⟩

variable {x : Option (Words w)}

theorem Computes.map {f : Words w → Words w} {a b : Nat}
    (h : Computes x n a b) (hf : ∀ {r}, IsProduct r n a b → IsProduct (f r) m a b) :
    Computes (x.map f) m a b := by
  obtain ⟨r, rfl, hr⟩ := h
  exact ⟨f r, rfl, hf hr⟩

/-- The middle product is computed. -/
def Middle (x : Option (Words w)) (n a0 a1 b0 b1 : Nat) (neg : Bool) : Prop :=
  ∃ mid, x = some mid ∧ mid.length = 2 * n ∧ IsMiddle a0 a1 b0 b1 (val mid) neg

theorem middle_zeros (h : IsMiddle a0 a1 b0 b1 0 neg) :
    Middle (some (List.replicate (2 * n) 0#w)) n a0 a1 b0 b1 neg :=
  ⟨_, rfl, length_replicate, by rwa [val_replicate_zero]⟩

theorem Computes.middle {s t : Nat} (h : Computes x (2 * n) s t)
    (hm : IsMiddle a0 a1 b0 b1 (s * t) neg) : Middle x n a0 a1 b0 b1 neg := by
  obtain ⟨r, rfl, hr⟩ := h
  exact ⟨r, rfl, hr.length, hr.val ▸ hm⟩

theorem combine_halves (hw : WordSize w) {mid lo hi : Option (Words w)} (ha : n ≤ a.length)
    (ha2 : a.length ≤ 2 * n) (hb : n ≤ b.length) (hb2 : b.length ≤ 2 * n)
    (hlo : Computes lo (2 * n) (val (a.take n)) (val (b.take n)))
    (hhi : Computes hi (2 * n) (val (a.drop n)) (val (b.drop n)))
    (hmid : Middle mid n (val (a.take n)) (val (a.drop n)) (val (b.take n)) (val (b.drop n)) neg) :
    Computes (match mid, lo, hi with
      | some mid, some lo, some hi => combine n lo hi mid neg
      | _, _, _ => none) (2 * (2 * n)) (val a) (val b) := by
  obtain ⟨_, rfl, hlo⟩ := hlo
  obtain ⟨_, rfl, hhi⟩ := hhi
  obtain ⟨_, rfl, hlen, hmid⟩ := hmid
  obtain ⟨_, _, haval, halt⟩ := halves ha ha2
  obtain ⟨_, _, hbval, hblt⟩ := halves hb hb2
  have h := combine_spec hw hlo hhi hlen hmid (haval ▸ halt) (hbval ▸ hblt)
  rwa [haval, hbval] at h

theorem bnMulRecursive_small (hw : WordSize w) {n2 : Nat} (hn : n2 < 16) (ha : a.length ≤ n2)
    (hb : b.length ≤ n2) : Computes (bnMulRecursive n2 a b) (2 * n2) (val a) (val b) := by
  rw [bnMulRecursive]
  split
  · rename_i h8
    obtain ⟨rfl, ha8, hb8⟩ := h8
    exact (bnMulComba8_spec hw ha8 hb8).computes
  · exact ((bnMulNormal_spec a b).pad (by omega)).computes

/-- **`bn_mul_recursive` at every depth**: fewer than eight words are missing. -/
theorem bnMulRecursive_spec (hw : WordSize w) (k : Nat) (ha : a.length ≤ 2 ^ k)
    (ha8 : 2 ^ k < a.length + 8) (hb : b.length ≤ 2 ^ k) (hb8 : 2 ^ k < b.length + 8) :
    Computes (bnMulRecursive (2 ^ k) a b) (2 * 2 ^ k) (val a) (val b) := by
  induction k generalizing a b with
  | zero => exact bnMulRecursive_small hw (by decide) ha hb
  | succ k ih =>
    by_cases hn : 2 ^ (k + 1) < 16
    · exact bnMulRecursive_small hw hn ha hb
    have hpow : 2 ^ (k + 1) = 2 * 2 ^ k := by rw [Nat.pow_succ, Nat.mul_comm]
    rw [hpow] at ha ha8 hb hb8 hn ⊢
    generalize 2 ^ k = n at *
    have hhalf : 2 * n / 2 = n := by omega
    obtain ⟨ha0, ha1, _⟩ := halves (by omega) ha
    obtain ⟨hb0, hb1, _⟩ := halves (by omega) hb
    have hdiff := differences_cases ha0 ha1 hb0 hb1 hw.pos
    rw [bnMulRecursive, if_neg (by omega), if_neg hn]
    simp only [hhalf]
    rw [if_neg (by omega)]
    split
    · rename_i h8
      obtain ⟨rfl, ha16, hb16⟩ := h8
      have hcombine {mid neg} := @combine_halves w a b 8 neg hw mid _ _ (by omega) ha (by omega) hb
        (bnMulComba8_spec hw ha0 hb0).computes (bnMulComba8_spec hw
          (by rw [length_drop]; omega) (by rw [length_drop]; omega)).computes
      obtain ⟨hd, hmid⟩ | ⟨t0, t1, neg, hd, h0, h1, hmid⟩ := hdiff <;> rw [hd]
      · exact hcombine (middle_zeros (hmid false))
      · exact hcombine ((bnMulComba8_spec hw h0 h1).computes.middle hmid)
    · have hcombine {mid neg} := @combine_halves w a b n neg hw mid _ _ (by omega) ha (by omega) hb
        (ih (by omega) (by omega) (by omega) (by omega))
        (ih ha1 (by rw [length_drop]; omega) hb1 (by rw [length_drop]; omega))
      obtain ⟨hd, hmid⟩ | ⟨t0, t1, neg, hd, h0, h1, hmid⟩ := hdiff <;> rw [hd]
      · exact hcombine (middle_zeros (hmid false))
      · have hm := ih (a := t0) (b := t1) (by omega) (by omega) (by omega) (by omega)
        exact hcombine (hm.middle hmid)

/-- The size at which the loop stops is the power of two below the longer length. -/
theorem partSize_spec {tna tnb : Nat} (hpos : 0 < tna ∨ 0 < tnb) (ha : tna < 2 ^ m)
    (hb : tnb < 2 ^ m) :
    ∃ k < m, partSize tna tnb (2 ^ m) = 2 ^ k ∧ (2 ^ k ≤ tna ∨ 2 ^ k ≤ tnb) ∧
      tna < 2 * 2 ^ k ∧ tnb < 2 * 2 ^ k := by
  induction m with
  | zero => omega
  | succ m ih =>
    have hhalf : 2 ^ (m + 1) / 2 = 2 ^ m := by omega
    rw [partSize, hhalf]
    split
    · rename_i hle
      exact ⟨m, by omega, rfl, hle, by omega, by omega⟩
    · obtain ⟨k, hk, hsize, hrest⟩ := ih (by omega) (by omega)
      exact ⟨k, by omega, hsize, hrest⟩

/-- The sizes that `bn_mul_part_recursive` hands down. -/
theorem upperHalf_cases {tna tnb : Nat} (hm : 8 ≤ 2 ^ m) (ha : tna < 2 * 2 ^ m)
    (hb : tnb < 2 * 2 ^ m) (hab : tna ≤ tnb + 1) (hba : tnb ≤ tna + 1) :
    upperHalf (2 * 2 ^ m) tna tnb = .normal ∨
    (∃ k ≤ m, upperHalf (2 * 2 ^ m) tna tnb = .recursive (2 ^ k) ∧ tna ≤ 2 ^ k ∧ tnb ≤ 2 ^ k ∧
      2 ^ k ≤ tna + 1 ∧ 2 ^ k ≤ tnb + 1) ∨
    (∃ k ≤ m, (upperHalf (2 * 2 ^ m) tna tnb = .part (2 ^ k) ∨
        upperHalf (2 * 2 ^ m) tna tnb = .smallPart (2 ^ k)) ∧ 8 ≤ 2 ^ k ∧
      2 ^ k ≤ tna ∧ tna < 2 * 2 ^ k ∧ 2 ^ k ≤ tnb ∧ tnb < 2 * 2 ^ k) := by
  have hhalf : 2 * 2 ^ m / 2 = 2 ^ m := by omega
  rw [upperHalf, hhalf]
  dsimp only
  have hj : (if tna > tnb then (tna : Int) - (2 ^ m : Nat) else tnb - (2 ^ m : Nat)) =
      (max tna tnb : Nat) - (2 ^ m : Nat) := by
    split <;> omega
  rw [hj]
  split
  · exact .inr (.inl ⟨m, le_rfl, rfl, by omega, by omega, by omega, by omega⟩)
  split
  · exact .inr (.inr ⟨m, le_rfl, .inl rfl, hm, by omega, ha, by omega, hb⟩)
  split
  · exact .inl rfl
  obtain ⟨k, hk, hsize, hle, hta, htb⟩ := @partSize_spec m tna tnb (by omega) (by omega) (by omega)
  rw [hsize]
  split
  · exact .inr (.inr ⟨k, hk.le, .inr rfl, by omega, by omega, hta, by omega, htb⟩)
  · exact .inr (.inl ⟨k, hk.le, rfl, by omega, by omega, by omega, by omega⟩)

/-- The product of the upper halves in `bn_mul_part_recursive`, for `n > 8`. -/
def upperProduct (n : Nat) (a1 b1 : Words w) : Option (Words w) :=
  let clear := fun hi : Words w => hi ++ List.replicate (n * 2 - hi.length) 0#w
  match upperHalf n a1.length b1.length with
  | .recursive i => (bnMulRecursive i a1 b1).map clear
  | .part i => (bnMulPartRecursive i a1 b1).map fun hi => clear (hi.take (a1.length + b1.length))
  | .smallPart i => (bnMulPartRecursive i a1 b1).map clear
  | .normal => some (clear (bnMulNormal a1 b1))

theorem bnMulPartRecursive_eq (hn : 8 < n) (a b : Words w) :
    bnMulPartRecursive n a b =
      let t := partDifferences (a.take n) (a.drop n) (b.take n) (b.drop n)
      match bnMulRecursive n t.1 t.2.1, bnMulRecursive n (a.take n) (b.take n),
        upperProduct n (a.drop n) (b.drop n) with
      | some mid, some lo, some hi => combine n lo hi mid t.2.2
      | _, _, _ => none := by
  rw [bnMulPartRecursive, dif_neg (by omega)]
  dsimp only
  rw [if_neg (by omega)]
  rw [upperProduct]
  cases upperHalf n (a.drop n).length (b.drop n).length <;> rfl

/-- What `bn_mul_part_recursive` does at the size `2 ^ k`: the lengths of the arrays differ by at
most one word. -/
def PartSpec (w k : Nat) : Prop :=
  ∀ a b : Words w, 2 ^ k ≤ a.length → a.length < 2 * 2 ^ k → 2 ^ k ≤ b.length →
    b.length < 2 * 2 ^ k → a.length ≤ b.length + 1 → b.length ≤ a.length + 1 →
    ∃ r, bnMulPartRecursive (2 ^ k) a b = some r ∧
      IsProduct r (if 2 ^ k < 8 then a.length + b.length else 2 * (2 * 2 ^ k)) (val a) (val b)

/-- The product of the upper halves, by induction on the size. -/
theorem upperProduct_spec (hw : WordSize w) (hm : 8 ≤ 2 ^ m) (ih : ∀ k ≤ m, PartSpec w k)
    {a1 b1 : Words w} (ha : a1.length < 2 * 2 ^ m) (hb : b1.length < 2 * 2 ^ m)
    (hab : a1.length ≤ b1.length + 1) (hba : b1.length ≤ a1.length + 1) :
    Computes (upperProduct (2 * 2 ^ m) a1 b1) (2 * (2 * 2 ^ m)) (val a1) (val b1) := by
  have hle : ∀ k ≤ m, 2 ^ k ≤ 2 ^ m := fun k hk => Nat.pow_le_pow_right (by decide) hk
  rw [upperProduct]
  rcases upperHalf_cases hm ha hb hab hba with
    hup | ⟨k, hk, hup, ha1, hb1, ha2, hb2⟩ | ⟨k, hk, hup, hk8, ha1, ha2, hb1, hb2⟩
  · rw [hup]
    exact ((bnMulNormal_spec a1 b1).clear (by omega)).computes
  · rw [hup]
    exact (bnMulRecursive_spec hw k ha1 (by omega) hb1 (by omega)).map (·.clear (by omega))
  have := hle k hk
  have hpart := ih k hk a1 b1 ha1 ha2 hb1 hb2 hab hba
  rw [if_neg (by omega)] at hpart
  rcases hup with hup | hup
  · rw [hup]
    exact Computes.map hpart fun h => (h.take (by omega) (mul_val_lt a1 b1)).clear (by omega)
  · rw [hup]
    exact Computes.map hpart (·.clear (by omega))

/-- **`bn_mul_part_recursive` at every depth.** -/
theorem bnMulPartRecursive_spec (hw : WordSize w) (k : Nat) : PartSpec w k := by
  induction k using Nat.strongRecOn with
  | ind k ih =>
    intro a b ha ha2 hb hb2 hab hba
    by_cases hn : 2 ^ k < 8
    · rw [bnMulPartRecursive, dif_pos hn, if_pos hn]
      exact ⟨_, rfl, bnMulNormal_spec a b⟩
    rw [if_neg hn]
    obtain ⟨ha0, ha1, _⟩ := halves ha ha2.le
    obtain ⟨hb0, hb1, _⟩ := halves hb hb2.le
    obtain ⟨ht0, ht1, hmid⟩ := partDifferences_spec ha0 ha1 hb0 hb1 hw.pos
    have hcombine {mid lo hi neg} := @combine_halves w a b (2 ^ k) neg hw mid lo hi ha ha2.le hb
      hb2.le
    by_cases h8 : 2 ^ k = 8
    · rw [bnMulPartRecursive]
      rw [h8] at ha0 hb0 ht0 ht1 ha1 ha2 hb1 hb2 hmid hcombine ⊢
      exact hcombine (bnMulComba8_spec hw ha0 hb0).computes
        ((bnMulNormal_spec (a.drop 8) (b.drop 8)).clear (by omega)).computes
        ((bnMulComba8_spec hw ht0 ht1).computes.middle hmid)
    cases k with
    | zero => simp at hn
    | succ m =>
      have hmul := bnMulRecursive_spec hw (m + 1) ht0.le (by omega) ht1.le (by omega)
      have hlo := bnMulRecursive_spec hw (m + 1) ha0.le (by omega) hb0.le (by omega)
      have hpow : 2 ^ (m + 1) = 2 * 2 ^ m := by rw [Nat.pow_succ, Nat.mul_comm]
      have hm3 : 3 < m + 1 :=
        (Nat.pow_lt_pow_iff_right (by decide)).1 (show 2 ^ 3 < 2 ^ (m + 1) by omega)
      have hm8 : 2 ^ 3 ≤ 2 ^ m := Nat.pow_le_pow_right (by decide) (by omega)
      have hhi := @upperProduct_spec w m hw hm8 (fun k hk => ih k (by omega))
        (a.drop (2 ^ (m + 1))) (b.drop (2 ^ (m + 1))) (by rw [length_drop]; omega)
        (by rw [length_drop]; omega) (by simp only [length_drop]; omega)
        (by simp only [length_drop]; omega)
      rw [← hpow] at hhi
      rw [bnMulPartRecursive_eq (by omega)]
      exact hcombine hlo hhi (hmul.middle hmid)

/-! ### Squaring -/

/-- The sum of the products of different words, each taken once, divided by the base. -/
def crossSum : Words w → Nat
  | [] => 0
  | v :: ap => v.toNat * val ap + 2 ^ w * (2 ^ w * crossSum ap)

theorem crossSum_cons (v : Word w) (ap : Words w) :
    crossSum (v :: ap) = v.toNat * val ap + 2 ^ w * (2 ^ w * crossSum ap) := rfl

/-- A square is the squares of the words and twice the products of different ones. -/
theorem val_mul_self (a : Words w) :
    val a * val a = val (bnSqrWords a) + 2 * (2 ^ w * crossSum a) := by
  induction a with
  | nil => rfl
  | cons v ap ih =>
    have hsqr := sqr_spec v
    rw [bnSqrWords, val_cons, val_cons, val_cons, crossSum]
    linear_combination (2 ^ w) ^ 2 * ih - hsqr

theorem sqrCrossLoop_cons (r : Words w) (v u : Word w) (ap : Words w) :
    sqrCrossLoop r (v :: u :: ap) = r.take 2 ++ sqrCrossLoop
      ((bnMulAddWords (r.drop 2) (u :: ap) v).1 ++ [(bnMulAddWords (r.drop 2) (u :: ap) v).2])
      (u :: ap) := rfl

theorem sqrCrossLoop_spec (hr : r.length = a.length + 1) :
    val (sqrCrossLoop r a) = val r + 2 ^ w * (2 ^ w * crossSum a) ∧
      (a ≠ [] → (sqrCrossLoop r a).length = 2 * a.length) := by
  induction a generalizing r with
  | nil => simp [sqrCrossLoop, crossSum]
  | cons v ap ih =>
    cases ap with
    | nil =>
      simp [sqrCrossLoop, crossSum, hr]
    | cons u ap =>
      rw [sqrCrossLoop_cons]
      obtain ⟨htake, hlen, hadd⟩ := mulAddWords_carry (k := 2) (r := r) (a := u :: ap)
        (by simp only [length_cons] at hr ⊢; omega) v rfl
      obtain ⟨hval, hlength⟩ := ih hlen
      refine ⟨?_, fun _ => ?_⟩
      · rw [val_append, htake, hval, crossSum_cons v]
        linear_combination hadd
      · rw [length_append, hlength (by simp)]
        simp only [length_cons]
        omega

theorem sqrCross_cons (v u : Word w) (ap : Words w) :
    sqrCross (v :: u :: ap) =
      sqrCrossLoop ((bnMulWords (u :: ap) v).1 ++ [(bnMulWords (u :: ap) v).2]) (u :: ap) := rfl

theorem sqrCross_spec (hne : a ≠ []) :
    val (sqrCross a) = crossSum a ∧ (sqrCross a).length + 2 = 2 * a.length := by
  cases a with
  | nil => exact absurd rfl hne
  | cons v ap =>
    cases ap with
    | nil => simp [sqrCross, crossSum]
    | cons u ap =>
      obtain ⟨hfirst, hlen⟩ := mulWords_carry v (u :: ap)
      obtain ⟨hval, hlength⟩ := sqrCrossLoop_spec hlen
      rw [sqrCross_cons]
      refine ⟨?_, ?_⟩
      · rw [hval, hfirst, crossSum_cons v]
        ring
      · rw [hlength (by simp)]
        simp only [length_cons]
        omega

theorem val_bnAddWords_of_lt (hpos : 0 < w) {as bs : Words w}
    (hlen : as.length = bs.length) (hlt : val as + val bs < (2 ^ w) ^ as.length) :
    val (bnAddWords as bs).1 = val as + val bs := by
  obtain ⟨hadd, _⟩ := bnAddWords_spec hpos hlen
  have hcarry : (bnAddWords as bs).2.toNat = 0 := by
    by_contra hne
    have := Nat.le_mul_of_pos_right ((2 ^ w) ^ as.length) (Nat.pos_of_ne_zero hne)
    omega
  rw [hcarry] at hadd
  omega

/-- The schoolbook square. -/
theorem bnSqrNormal_spec (hpos : 0 < w) (hne : a ≠ []) :
    IsProduct (bnSqrNormal a) (2 * a.length) (val a) (val a) := by
  obtain ⟨hcross, hclen⟩ := sqrCross_spec hne
  have hself := val_mul_self a
  have hlt := mul_val_lt a a
  rw [← Nat.two_mul] at hlt
  have hrlen : ([0#w] ++ sqrCross a ++ [0#w]).length = 2 * a.length := by
    simp only [length_append, length_singleton]
    omega
  have hrval : val ([0#w] ++ sqrCross a ++ [0#w]) = 2 ^ w * crossSum a := by
    rw [val_concat, val_append, hcross]
    simp
  rw [bnSqrNormal]
  generalize [0#w] ++ sqrCross a ++ [0#w] = r at *
  have hdouble : val (bnAddWords r r).1 = val r + val r :=
    val_bnAddWords_of_lt hpos rfl (by rw [hrlen]; omega)
  have hdlen := (bnAddWords_spec hpos (rfl : r.length = r.length)).2.2
  generalize (bnAddWords r r).1 = r2 at *
  have hslen : r2.length = (bnSqrWords a).length := by rw [hdlen, hrlen, length_bnSqrWords]
  refine ⟨?_, ?_⟩
  · rw [val_bnAddWords_of_lt hpos hslen (by rw [hdlen, hrlen]; omega)]
    omega
  · rw [(bnAddWords_spec hpos hslen).2.2, hdlen, hrlen]

theorem bnSqrRecursive_small (hw : WordSize w) {n2 : Nat} (hn : n2 < 16) (ha : a.length = n2)
    (hne : a ≠ []) : Computes (bnSqrRecursive n2 a) (2 * n2) (val a) (val a) := by
  rw [bnSqrRecursive]
  split_ifs with h4 h8
  · subst h4
    exact (bnSqrComba4_spec hw ha).computes
  · subst h8
    exact (bnSqrComba8_spec hw ha).computes
  exact (ha ▸ bnSqrNormal_spec hw.pos hne).computes

/-- **`bn_sqr_recursive` at every depth.** -/
theorem bnSqrRecursive_spec (hw : WordSize w) (k : Nat) (ha : a.length = 2 ^ k) :
    Computes (bnSqrRecursive (2 ^ k) a) (2 * 2 ^ k) (val a) (val a) := by
  have hne : ∀ {n} {x : Words w}, x.length = 2 ^ n → x ≠ [] := by
    rintro n x hx rfl
    exact absurd hx (Nat.two_pow_pos n).ne
  induction k generalizing a with
  | zero => exact bnSqrRecursive_small hw (by decide) ha (hne ha)
  | succ k ih =>
    by_cases hn : 2 ^ (k + 1) < 16
    · exact bnSqrRecursive_small hw hn ha (hne ha)
    have hpow : 2 ^ (k + 1) = 2 * 2 ^ k := by rw [Nat.pow_succ, Nat.mul_comm]
    rw [hpow] at ha hn ⊢
    have hhalf : 2 * 2 ^ k / 2 = 2 ^ k := by omega
    obtain ⟨ha0, _⟩ := halves (by omega) ha.le
    have ha1 : (a.drop (2 ^ k)).length = 2 ^ k := by
      rw [length_drop]
      omega
    rw [bnSqrRecursive, if_neg (by omega), if_neg (by omega), if_neg hn]
    simp only [hhalf]
    refine combine_halves hw (by omega) ha.le (by omega) ha.le (ih ha0) (ih ha1) ?_
    rcases bnCmpWords_spec (ha0.trans ha1.symm) with ⟨hc, hlt⟩ | ⟨hc, heq⟩ | ⟨hc, hlt⟩
    · obtain ⟨hs, hslen⟩ := bnSubWords_of_le hw.pos (ha0.trans ha1.symm) hlt.le
      rw [hc]
      exact (ih (hslen.trans ha0)).middle (isMiddle_mul.2.2.1 hs hs)
    · rw [hc, if_neg (by decide)]
      exact middle_zeros (isMiddle_zero (.inl heq) true)
    · obtain ⟨hs, hslen⟩ := bnSubWords_of_le hw.pos (ha1.trans ha0.symm) hlt.le
      rw [hc, if_neg (by decide)]
      exact (ih (hslen.trans ha1)).middle (isMiddle_mul.2.1 hs hs)

/-! ### Numbers -/

/-- The power of two chosen for a number of words, which fits in a word as it is an `int`. -/
theorem wordsPower_spec (hw : WordSize w) {al : Nat} (hpos : 0 < al) (hal : al < 2 ^ w) :
    ∃ k, wordsPower w al = 2 ^ k ∧ 2 ^ k ≤ al ∧ al < 2 * 2 ^ k := by
  have htoNat : (BitVec.ofNat w al).toNat = al := by
    rw [BitVec.toNat_ofNat, Nat.mod_eq_of_lt hal]
  have hne : BitVec.ofNat w al ≠ 0#w := by
    intro hzero
    rw [hzero] at htoNat
    simp at htoNat
    omega
  obtain ⟨hle, hlt, hbits⟩ := bnNumBitsWord_spec hw hne
  rw [htoNat] at hle hlt
  refine ⟨bnNumBitsWord (BitVec.ofNat w al) - 1, ?_, hle, ?_⟩
  · rw [wordsPower, Nat.shiftLeft_eq, Nat.one_mul]
  · rwa [Nat.mul_comm, ← Nat.pow_succ, Nat.succ_eq_add_one, Nat.sub_add_cancel hbits]

/-- Every multiplication that the lengths can choose computes the product. -/
theorem mulWords_spec (hw : WordSize w) (ha : a.length < 2 ^ w) (hb : b.length < 2 ^ w) :
    Computes (mulWords a b) (a.length + b.length) (val a) (val b) := by
  rw [mulWords]
  split
  · rename_i h
    have hb8 : b.length = 8 := by omega
    rw [h.2, hb8]
    exact (bnMulComba8_spec hw h.2 hb8).computes
  split
  · have hmax : (if (a.length : Int) - b.length ≥ 0 then a.length else b.length) =
        max a.length b.length := by
      split <;> omega
    obtain ⟨k, hj, hle, hlt⟩ := @wordsPower_spec w hw (max a.length b.length) (by omega) (by omega)
    rw [hmax, hj, if_neg (by omega)]
    split
    · have hpart := bnMulPartRecursive_spec hw k a b (by omega) (by omega) (by omega)
        (by omega) (by omega) (by omega)
      rw [if_neg (by omega)] at hpart
      exact Computes.map hpart (·.take (by omega) (mul_val_lt a b))
    · exact (bnMulRecursive_spec hw k (by omega) (by omega) (by omega) (by omega)).map
        (·.take (by omega) (mul_val_lt a b))
  · exact (bnMulNormal_spec a b).computes

theorem sqrWords_spec (hw : WordSize w) (hne : a ≠ []) :
    Computes (sqrWords a) (2 * a.length) (val a) (val a) := by
  have hnormal := bnSqrNormal_spec hw.pos hne
  rw [sqrWords]
  split_ifs with h4 h8 _ hj
  · rw [h4]
    exact (bnSqrComba4_spec hw h4).computes
  · rw [h8]
    exact (bnSqrComba8_spec hw h8).computes
  · exact hnormal.computes
  · rw [wordsPower, Nat.shiftLeft_eq, Nat.one_mul] at hj
    have hrec := bnSqrRecursive_spec hw _ hj
    rwa [← hj] at hrec
  · exact hnormal.computes

theorem mul_sign (b c : Bool) (x y : Nat) :
    (if b ^^ c then -((x * y : Nat) : Int) else (x * y : Nat)) =
      (if b then -(x : Int) else x) * (if c then -(y : Int) else y) := by
  cases b <;> cases c <;> simp

theorem bnMulFixedTop_spec (hw : WordSize w) {a b : Bignum w} (ha : a.top < 2 ^ w)
    (hb : b.top < 2 ^ w) :
    ∃ r, bnMulFixedTop a b = some r ∧ r.toInt = a.toInt * b.toInt ∧ r.top ≤ a.top + b.top := by
  rw [bnMulFixedTop]
  split
  · rename_i hzero
    refine ⟨_, rfl, ?_, Nat.zero_le _⟩
    have hval : a.toInt = 0 ∨ b.toInt = 0 := by
      rcases hzero with h | h <;> simp [toInt, Bignum.toNat, eq_nil_of_length_eq_zero h]
    rw [Int.mul_eq_zero.2 hval]
    rfl
  · obtain ⟨r, hr, hprod⟩ := mulWords_spec hw ha hb
    rw [hr]
    refine ⟨_, rfl, ?_, hprod.length.le⟩
    rw [toInt, Bignum.toNat, hprod.val, mul_sign]
    rfl

theorem bnSqrFixedTop_spec (hw : WordSize w) (a : Bignum w) :
    ∃ r, bnSqrFixedTop a = some r ∧ r.toInt = a.toInt * a.toInt ∧ r.top ≤ 2 * a.top := by
  rw [bnSqrFixedTop]
  split_ifs with hzero
  · refine ⟨_, rfl, ?_, Nat.zero_le _⟩
    simp [toInt, Bignum.toNat, eq_nil_of_length_eq_zero (Nat.le_zero.1 hzero), Bignum.zero]
  obtain ⟨r, hr, hprod⟩ := sqrWords_spec hw (a := a.d) (by
    intro hnil
    apply hzero
    simp [Bignum.top, hnil])
  rw [hr]
  refine ⟨_, rfl, ?_, hprod.length.le⟩
  have hneg := mul_sign a.neg a.neg a.toNat a.toNat
  rw [Bool.xor_self] at hneg
  rw [toInt, Bignum.toNat, hprod.val]
  exact hneg

section Variables

variable {ι : Type} [DecidableEq ι]

/-- **Multiplication and squaring do not depend on the algorithm.** Each of the three ways to
multiply arrays gives the product, at every depth of the recursion; `BN_mul` and `BN_sqr` give it
to a variable that may be an operand. -/
theorem mul_independent_of_algorithm (hw : WordSize w) (σ : ι → Bignum w) (r a b : ι)
    (ha : (σ a).top < 2 ^ w) (hb : (σ b).top < 2 ^ w) :
    (∃ σ', bnMul r a b σ = some σ' ∧ (σ' r).toInt = (σ a).toInt * (σ b).toInt ∧ (σ' r).Normal ∧
      ∀ v, v ≠ r → σ' v = σ v) ∧
    (∃ σ', bnSqr r a σ = some σ' ∧ bnMul r a a σ = some σ' ∧
      (σ' r).toInt = (σ a).toInt * (σ a).toInt) ∧
    (∀ x y : Words w, IsProduct (bnMulNormal x y) (x.length + y.length) (val x) (val y)) ∧
    (∀ k, ∀ x y : Words w, x.length ≤ 2 ^ k → 2 ^ k < x.length + 8 → y.length ≤ 2 ^ k →
      2 ^ k < y.length + 8 →
      ∃ p, bnMulRecursive (2 ^ k) x y = some p ∧ IsProduct p (2 * 2 ^ k) (val x) (val y)) ∧
    (∀ k, PartSpec w k) ∧
    (∀ x : Words w, x ≠ [] → IsProduct (bnSqrNormal x) (2 * x.length) (val x) (val x)) ∧
    ∀ k, ∀ x : Words w, x.length = 2 ^ k →
      ∃ p, bnSqrRecursive (2 ^ k) x = some p ∧ IsProduct p (2 * 2 ^ k) (val x) (val x) := by
  obtain ⟨ab, hab, habval, _⟩ := bnMulFixedTop_spec hw ha hb
  obtain ⟨aa, haa, haaval, _⟩ := bnMulFixedTop_spec hw ha ha
  obtain ⟨sq, hsq, hsqval, _⟩ := bnSqrFixedTop_spec hw (σ a)
  have hsame : bnCorrectTop aa = bnCorrectTop sq := by
    apply (normal_bnCorrectTop aa).eq_of_toInt hw.pos (normal_bnCorrectTop sq)
    rw [toInt_bnCorrectTop, toInt_bnCorrectTop, haaval, hsqval]
  refine ⟨⟨store (some r) (bnCorrectTop ab) σ, by rw [bnMul, hab]; rfl, ?_, ?_, ?_⟩,
    ⟨store (some r) (bnCorrectTop sq) σ, by rw [bnSqr, hsq]; rfl,
      by rw [bnMul, haa, ← hsame]; rfl, ?_⟩, bnMulNormal_spec,
    fun k x y => bnMulRecursive_spec hw k, bnMulPartRecursive_spec hw,
    fun x => bnSqrNormal_spec hw.pos, fun k x => bnSqrRecursive_spec hw k⟩
  · rw [store_self, toInt_bnCorrectTop, habval]
  · rw [store_self]
    exact normal_bnCorrectTop ab
  · intro v hv
    simp [store, hv]
  · rw [store_self, toInt_bnCorrectTop, hsqval]

/-- A product of 17 words and 17, by recursion, that overwrites its first operand. -/
theorem mul_independent_of_algorithm_in_place :
    let σ : Bool → Bignum 64 := fun v => ⟨List.replicate 17 (BitVec.allOnes 64), v⟩
    ∃ σ', bnMul true true false σ = some σ' ∧ (σ' true).toInt = -(2 ^ 1088 - 1) ^ 2 ∧
      σ' false = σ false := by
  intro σ
  obtain ⟨⟨σ', hmul, hval, _, hother⟩, _⟩ :=
    mul_independent_of_algorithm ⟨by decide, by decide⟩ σ true true false (by decide) (by decide)
  exact ⟨σ', hmul, hval.trans (by decide +kernel), hother false (by decide)⟩

end Variables

end QuicTls.Bn
