import QuicTls.Verify.Bn.Lib

/-!
# Signed addition is exact

`BN_uadd` and `BN_usub` work on absolute values; `bnAdd_spec` is about the signs.
-/

namespace QuicTls.Bn

open Limbs Bignum List

variable {w : Nat} {a b : Bignum w}

/-- The carry is added to the rest of the longer number. -/
theorem carryLoop_spec (hpos : 0 < w) {carry : Word w} (hc : carry.toNat ≤ 1) (ap : Words w) :
    val (carryLoop carry ap).1 + (2 ^ w) ^ ap.length * (carryLoop carry ap).2.toNat =
        val ap + carry.toNat ∧
      (carryLoop carry ap).2.toNat ≤ 1 ∧ (carryLoop carry ap).1.length = ap.length := by
  induction ap generalizing carry with
  | nil => simp [carryLoop, hc]
  | cons t ap ih =>
    have hone := toNat_one hpos
    -- the sum is zero exactly if the word was all ones
    have hstep : (t + carry).toNat + 2 ^ w * (carry &&& bit (t + carry == 0#w)).toNat =
        t.toNat + carry.toNat ∧ (carry &&& bit (t + carry == 0#w)).toNat ≤ 1 := by
      obtain ⟨b, rfl⟩ := exists_eq_bit hpos hc
      cases b with
      | false => simp [bit]
      | true =>
        rcases add_one_cases hpos t with ⟨hzero, hfull⟩ | ⟨hne, hadd⟩
        · simp only [hzero, beq_self_eq_true, bit, if_true, BitVec.and_self, hone]
          simp only [BitVec.toNat_ofNat, Nat.zero_mod]
          omega
        · simp [bit, hne, hadd, hone]
    obtain ⟨hval, hle, hlen⟩ := ih hstep.2
    simp only [carryLoop, val_cons, length_cons, hlen, hle, and_true]
    linear_combination hstep.1 + 2 ^ w * hval

/-- The sum of two arrays, the first of which is at least as long. -/
theorem uaddLonger_spec (hpos : 0 < w) {a b : Words w} (hlen : b.length ≤ a.length) :
    val (uaddLonger a b) = val a + val b ∧ a.length ≤ (uaddLonger a b).length ∧
      ((uaddLonger a b).length ≠ a.length → (uaddLonger a b).getLast? ≠ some 0#w) := by
  have htake : (a.take b.length).length = b.length := length_take_of_le hlen
  obtain ⟨hlo, hc, hlolen⟩ := bnAddWords_spec hpos htake
  obtain ⟨hhi, -, hhilen⟩ := carryLoop_spec hpos hc (a.drop b.length)
  have hsplit := val_take_add_drop b.length a
  rw [htake] at hlo hlolen hsplit
  have hdrop : b.length + (a.drop b.length).length = a.length := by
    rw [length_drop]
    omega
  have hsum : val (bnAddWords (a.take b.length) b).1 + (2 ^ w) ^ b.length *
      (val (carryLoop (bnAddWords (a.take b.length) b).2 (a.drop b.length)).1 +
        (2 ^ w) ^ (a.drop b.length).length *
          (carryLoop (bnAddWords (a.take b.length) b).2 (a.drop b.length)).2.toNat) =
      val a + val b := by
    rw [hhi]
    linear_combination hlo - hsplit
  simp only [uaddLonger]
  split_ifs with hzero
  · rw [hzero] at hsum
    simp only [BitVec.toNat_ofNat, Nat.zero_mod, Nat.mul_zero, Nat.add_zero] at hsum
    refine ⟨?_, ?_, fun hne => absurd ?_ hne⟩
    · rw [append_nil, val_append, hlolen, hsum]
    all_goals rw [append_nil, length_append, hhilen]; omega
  · refine ⟨?_, ?_, fun _ => ?_⟩
    · rw [append_assoc, val_append, hlolen, val_append, hhilen, val_singleton, hsum]
    · rw [length_append, length_append, hhilen]
      omega
    · simpa using hzero

/-- A number too large for one word less has a highest word. -/
theorem getLast?_ne_zero_of_le {xs : Words w} (h : (2 ^ w) ^ (xs.length - 1) ≤ val xs) :
    xs.getLast? ≠ some 0#w := by
  intro hlast
  have hne : xs ≠ [] := by
    rintro rfl
    simp at hlast
  have hlt := val_lt_of_getLast hne
  rw [getLast?_eq_some_getLast hne, Option.some.injEq] at hlast
  rw [hlast] at hlt
  simp at hlt
  omega

theorem normal_uaddLonger (hpos : 0 < w) {a b : Words w} (ha : a.getLast? ≠ some 0#w)
    (hlen : b.length ≤ a.length) : (uaddLonger a b).getLast? ≠ some 0#w := by
  obtain ⟨hval, -, hlast⟩ := uaddLonger_spec hpos hlen
  by_cases hl : (uaddLonger a b).length = a.length
  · by_cases hne : a = []
    · subst hne
      rw [length_eq_zero_iff.1 hl]
      simp
    · apply getLast?_ne_zero_of_le
      rw [hl, hval]
      exact (pow_le_val hne ha).trans (Nat.le_add_right ..)
  · exact hlast hl

theorem bnUadd_spec (hpos : 0 < w) (ha : a.Normal) (hb : b.Normal) :
    (bnUadd a b).toNat = a.toNat + b.toNat ∧ (bnUadd a b).d.getLast? ≠ some 0#w := by
  rw [bnUadd]
  split_ifs with hlt
  · refine ⟨?_, normal_uaddLonger hpos hb.last hlt.le⟩
    rw [Nat.add_comm]
    exact (uaddLonger_spec hpos hlt.le).1
  · have hge := Nat.not_lt.1 hlt
    exact ⟨(uaddLonger_spec hpos hge).1, normal_uaddLonger hpos ha.last hge⟩

theorem usubLoop_eq (hpos : 0 < w) {borrow : Word w} (hb : borrow.toNat ≤ 1)
    (ap : Words w) : usubLoop borrow ap = (borrowLoop borrow ap).1 := by
  induction ap generalizing borrow with
  | nil => rfl
  | cons t ap ih =>
    have hnext : borrow &&& bit (t == 0#w) = if t ≠ 0#w then 0#w else borrow := by
      obtain ⟨b, rfl⟩ := exists_eq_bit hpos hb
      by_cases ht : t = 0#w <;> cases b <;> simp [bit, ht]
    have hle : (if t ≠ 0#w then 0#w else borrow).toNat ≤ 1 := by
      split
      · simp
      · exact hb
    rw [usubLoop, hnext, ih hle, borrowLoop]

theorem bnUsub_spec (hpos : 0 < w) (hlen : b.top ≤ a.top) (hle : b.toNat ≤ a.toNat) :
    ∃ c, bnUsub a b = some c ∧ c.toNat + b.toNat = a.toNat ∧ c.neg = false ∧
      c.d.getLast? ≠ some 0#w := by
  have htake : (a.d.take b.top).length = b.d.length := length_take_of_le hlen
  have hdef : bnUsub a b = some ⟨trim (bnSubPartWords a.d b.d).1, false⟩ := by
    have hnlt : ¬ a.d.length < b.d.length := Nat.not_lt.2 hlen
    have htop : b.d.take a.d.length = b.d := take_of_length_le hlen
    simp only [bnUsub, bnSubPartWords, htop, hnlt, Nat.not_lt.2 hlen,
      usubLoop_eq hpos (bnSubWords_spec hpos htake).2.1]
    rfl
  refine ⟨_, hdef, ?_, rfl, getLast?_trim _⟩
  rw [Bignum.toNat, val_trim]
  exact (bnSubPartWords_spec hpos a.d b.d).2 hle

/-- Absolute values are compared, and a larger one has at least as many words. -/
theorem bnUcmp_spec (ha : a.Normal) (hb : b.Normal) :
    0 < bnUcmp a b ∧ b.toNat < a.toNat ∧ b.top ≤ a.top ∨ bnUcmp a b = 0 ∧ a.toNat = b.toNat ∨
      bnUcmp a b < 0 ∧ a.toNat < b.toNat ∧ a.top ≤ b.top := by
  -- the number with more words is larger
  have hlonger : ∀ {x y : Bignum w}, y.Normal → x.top < y.top → x.toNat < y.toNat := by
    intro x y hy hlt
    by_contra hge
    have hx : x.toNat < (2 ^ w) ^ x.top := val_lt x.d
    have := hy.top_le ((Nat.le_of_not_lt hge).trans_lt hx)
    omega
  rw [bnUcmp]
  split_ifs with hne
  · rcases Nat.lt_or_gt_of_ne hne with hlt | hlt
    · exact .inr (.inr ⟨by omega, hlonger hb hlt, hlt.le⟩)
    · exact .inl ⟨by omega, hlonger ha hlt, hlt.le⟩
  have heq := not_ne_iff.1 hne
  rcases bnCmpWords_spec heq with ⟨hc, h⟩ | ⟨hc, h⟩ | ⟨hc, h⟩
  · exact .inl ⟨by omega, h, heq.ge⟩
  · exact .inr (.inl ⟨hc, h⟩)
  · exact .inr (.inr ⟨by omega, h, heq.le⟩)

/-- A number made of an absolute value that is zero only without sign. -/
theorem Bignum.Normal.of_pos (h : a.d.getLast? ≠ some 0#w) (hneg : a.neg = true → 0 < a.toNat) :
    a.Normal := by
  refine ⟨h, fun hn hnil => ?_⟩
  have := hneg hn
  rw [Bignum.toNat, hnil] at this
  exact absurd this (Nat.lt_irrefl 0)

/-- `BN_add` adds. -/
theorem bnAdd_spec (hpos : 0 < w) (ha : a.Normal) (hb : b.Normal) :
    ∃ c, bnAdd a b = some c ∧ c.Normal ∧ c.toInt = a.toInt + b.toInt := by
  rw [bnAdd]
  split_ifs with hsign
  · obtain ⟨hval, hlast⟩ := bnUadd_spec hpos ha hb
    refine ⟨_, rfl, .of_pos hlast fun hneg => ?_, ?_⟩
    · have := ha.toNat_pos hneg
      show 0 < (bnUadd a b).toNat
      omega
    · have htoNat : ({ bnUadd a b with neg := a.neg } : Bignum w).toNat = a.toNat + b.toNat := hval
      rw [toInt, toInt, toInt, htoNat, ← hsign]
      cases a.neg <;> simp only [if_true, Bool.false_eq_true, if_false] <;> omega
  rw [subAbs]
  rcases bnUcmp_spec ha hb with ⟨hc, hlt, hlen⟩ | ⟨hc, heq⟩ | ⟨hc, hlt, hlen⟩
  · obtain ⟨c, hsub, hval, -, hlast⟩ := bnUsub_spec hpos hlen hlt.le
    have htoNat : ({ c with neg := a.neg } : Bignum w).toNat = c.toNat := rfl
    refine ⟨{ c with neg := a.neg }, ?_, .of_pos hlast fun _ => ?_, ?_⟩
    · rw [if_pos hc, hsub, Option.map_some]
    · omega
    · rw [toInt, toInt, toInt, htoNat]
      cases ha' : a.neg <;> cases hb' : b.neg <;> simp [ha', hb'] at hsign ⊢ <;> omega
  · refine ⟨zero, ?_, ⟨by simp [zero], by simp [zero]⟩, ?_⟩
    · rw [if_neg (by omega), if_neg (by omega)]
    · have hzero : (zero : Bignum w).toInt = 0 := rfl
      rw [hzero, toInt, toInt]
      cases ha' : a.neg <;> cases hb' : b.neg <;> simp [ha', hb'] at hsign ⊢ <;> omega
  · obtain ⟨c, hsub, hval, -, hlast⟩ := bnUsub_spec hpos hlen hlt.le
    have htoNat : ({ c with neg := b.neg } : Bignum w).toNat = c.toNat := rfl
    refine ⟨{ c with neg := b.neg }, ?_, .of_pos hlast fun _ => ?_, ?_⟩
    · rw [if_neg (by omega), if_pos hc, hsub, Option.map_some]
    · omega
    · rw [toInt, toInt, toInt, htoNat]
      cases ha' : a.neg <;> cases hb' : b.neg <;> simp [ha', hb'] at hsign ⊢ <;> omega

end QuicTls.Bn
