import QuicTls.Crypto.Bn.Mont
import QuicTls.Theory.Montgomery
import QuicTls.Verify.Bn.Gcd
import QuicTls.Verify.Bn.Mul

/-!
# Montgomery multiplication is exact

The reduction, word by word, divides by a power of two modulo `n`, and one subtraction makes the
result small enough (`montgomery_exact`).
-/

namespace QuicTls.Bn

open Limbs Bignum Montgomery List Int

variable {w : Nat} {x n0 : Word w} {rp as bs : Words w} {r : Bignum w} {v : Nat} {mod a : Bignum w}
  {carry : Word w} {np : Words w}

/-! ### Setting up a context -/

theorem toNat_modEq_head (a : Bignum w) : a.toNat ≡ (a.d.headD 0#w).toNat [MOD 2 ^ w] := by
  rw [Bignum.toNat]
  cases a.d with
  | nil => simp [Nat.ModEq]
  | cons x xs => rw [val_cons, headD_cons, Nat.ModEq, Nat.add_mul_mod_self_left]

theorem toNat_mod_two (hpos : 0 < w) : mod.toNat % 2 = (mod.d.headD 0#w).toNat % 2 :=
  (toNat_modEq_head mod).of_dvd (dvd_pow_self 2 (by omega))

/-- `n0` is the negated inverse of the modulus modulo the word size. -/
theorem montN0_spec (consttime : Bool) (hodd : x.toNat % 2 = 1) :
    ∃ n0, montN0 consttime x = some n0 ∧ 2 ^ w ∣ n0.toNat * x.toNat + 1 := by
  -- the quotient is `-1/N` before it is cut to a word
  have hcut : ∀ q : Nat, 2 ^ w ∣ q * x.toNat + 1 →
      2 ^ w ∣ (BitVec.ofNat w q).toNat * x.toNat + 1 := by
    intro q hq
    have hmod : q % 2 ^ w * x.toNat + 1 ≡ q * x.toNat + 1 [MOD 2 ^ w] :=
      ((Nat.mod_modEq _ _).mul_right _).add_right _
    exact (hmod.dvd_iff dvd_rfl).2 hq
  rw [montN0]
  split
  · rename_i hone
    refine ⟨_, rfl, hcut _ ?_⟩
    have hmask : (2 ^ w - 1 : Int) = (2 ^ w - 1 : Nat) := by
      push_cast [Nat.one_le_two_pow]
      rfl
    have hx1 : x.toNat = 1 := by exact_mod_cast hone
    rw [hone, zero_mul, if_neg (fun h => h rfl), Int.tdiv_one, hmask, natAbs_natCast, hx1,
      Nat.mul_one, Nat.sub_add_cancel Nat.one_le_two_pow]
  have hcop : Int.gcd (2 ^ w) x.toNat = 1 := by
    have hnat : Nat.Coprime (2 ^ w) x.toNat :=
      Nat.Coprime.pow_left w (Nat.coprime_two_left.2 (Nat.odd_iff.2 hodd))
    exact_mod_cast hnat
  obtain ⟨r, hr, h0, hlt, q, hq⟩ :=
    (Z.modInverse_spec consttime (2 ^ w) (by omega)).1 hcop
  rw [hr]
  refine ⟨_, rfl, hcut _ ?_⟩
  have hne : r * 2 ^ w ≠ 0 := by
    intro hzero
    rw [hzero] at hq
    have hdvd : (x.toNat : Int) ∣ 1 := ⟨-q, by linear_combination -hq⟩
    have := le_of_dvd one_pos hdvd
    omega
  rw [if_pos hne, hq, mul_tdiv_cancel_left _ (by omega)]
  have hr1 : 0 < r * 2 ^ w := lt_of_le_of_ne (by positivity) hne.symm
  have hq0 : 0 ≤ q := by
    by_contra hneg
    have : (x.toNat : Int) * q < 0 := mul_neg_of_pos_of_neg (by omega) (by omega)
    omega
  rw [← natCast_dvd_natCast]
  refine ⟨r, ?_⟩
  push_cast
  rw [abs_of_nonneg hq0]
  linear_combination -hq

theorem montN0_even (hpos : 0 < w) (consttime : Bool) (heven : x.toNat % 2 = 0) :
    montN0 consttime x = none := by
  rw [montN0]
  rw [if_neg (by omega)]
  by_cases hzero : x.toNat = 0
  · rw [Z.modInverse, if_pos (by omega)]
    rfl
  have hgcd : Int.gcd (2 ^ w) x.toNat ≠ 1 := by
    have h2 : 2 ∣ Int.gcd (2 ^ w) x.toNat := by
      exact Nat.dvd_gcd (dvd_pow_self 2 (by omega)) (Nat.dvd_of_mod_eq_zero heven)
    omega
  rw [(Z.modInverse_spec consttime (2 ^ w) (by omega)).2 hgcd]
  rfl

theorem toNat_bnSetBit (hpos : 0 < w) (n : Nat) : (bnSetBit n : Bignum w).toNat = 2 ^ n := by
  have hlt := Nat.mod_lt n hpos
  rw [Bignum.toNat, bnSetBit, val_concat, val_replicate_zero, length_replicate, Nat.zero_add,
    BitVec.toNat_shiftLeft, toNat_one hpos, Nat.shiftLeft_eq, Nat.one_mul,
    Nat.mod_eq_of_lt (Nat.pow_lt_pow_right Nat.one_lt_two hlt), ← Nat.pow_mul, ← Nat.pow_add,
    Nat.div_add_mod]

theorem bnMod_spec (hw : WordSize w) (llong : Bool) (m : Bignum w) {d : Bignum w} (hn : d.Normal)
    (hne : d.toInt ≠ 0) :
    ∃ r, bnMod llong m d = some r ∧ r.toInt = m.toInt.tmod d.toInt ∧ r.Normal := by
  have hd : d.d ≠ [] := by
    rintro hnil
    simp [toInt, Bignum.toNat, hnil] at hne
  obtain ⟨r, hr, _, hrm, _⟩ := bnDivFixedTop_spec hw llong m hd hn.last
  refine ⟨bnCorrectTop r.rm, ?_, by rw [toInt_bnCorrectTop, hrm], normal_bnCorrectTop _⟩
  rw [bnMod, if_neg (by simpa [Bignum.isZero, Bignum.top] using hd), if_neg, hr, Option.map_some]
  rw [getLastD_eq hd]
  exact hn.getLast_ne hd

theorem toNat_padTo (n : Nat) (a : Bignum w) : (padTo n a).toNat = a.toNat := by
  rw [padTo, Bignum.toNat, Bignum.toNat, val_append, val_replicate_zero, Nat.mul_zero, Nat.add_zero]

theorem toInt_padTo (n : Nat) (a : Bignum w) : (padTo n a).toInt = a.toInt := by
  rw [toInt, toNat_padTo]
  rfl

theorem top_padTo {n : Nat} (h : a.top ≤ n) : (padTo n a).top = n := by
  rw [Bignum.top] at h
  simp only [padTo, Bignum.top, length_append, length_replicate]
  omega

theorem bnNumBits_words (hw : WordSize w) (hn : a.Normal) (hne : a.d ≠ []) :
    (bnNumBits a + (w - 1)) / w = a.top := by
  have hpos := hw.pos
  have hlen := length_pos_of_ne_nil hne
  obtain ⟨hle, _, hbits⟩ := bnNumBitsWord_spec hw (hn.getLast_ne hne)
  have hlt := (Nat.pow_lt_pow_iff_right Nat.one_lt_two).1 (hle.trans_lt (a.d.getLast hne).isLt)
  rw [bnNumBits, getLast?_eq_getLast_of_ne_nil hne]
  obtain ⟨t, ht⟩ : ∃ t, a.top = t + 1 := ⟨a.top - 1, by rw [Bignum.top]; omega⟩
  rw [ht, Nat.add_sub_cancel, Nat.add_assoc, Nat.mul_comm t w, Nat.mul_add_div hpos]
  congr 1
  exact Nat.div_eq_of_lt_le (by omega) (by omega)

/-- The context of a modulus. -/
structure MontCtx.For (mont : MontCtx w) (m : Nat) : Prop where
  N : mont.N.toNat = m
  neg : mont.N.neg = false
  normal : mont.N.Normal
  pos : 0 < mont.N.top
  ri : 2 ^ mont.ri = (2 ^ w) ^ mont.N.top
  n0 : 2 ^ w ∣ mont.n0.toNat * m + 1
  RR : mont.RR.toInt = ((2 ^ mont.ri) ^ 2 % m : Nat)
  RR_top : mont.RR.top = mont.N.top

/-- A context for an odd modulus. -/
theorem bnMontCtxSet_spec (hw : WordSize w) (llong consttime : Bool) (hn : mod.Normal)
    (hodd : mod.toNat % 2 = 1) :
    ∃ mont, bnMontCtxSet llong consttime mod = some mont ∧ mont.For mod.toNat := by
  have hpos := hw.pos
  have hne : mod.d ≠ [] := by
    rintro hnil
    simp [Bignum.toNat, hnil] at hodd
  have hN : ({ mod with neg := false } : Bignum w).Normal := ⟨hn.last, by rintro ⟨⟩⟩
  have hNint : ({ mod with neg := false } : Bignum w).toInt = mod.toNat := rfl
  obtain ⟨n0, hn0, hdvd⟩ := montN0_spec consttime (toNat_mod_two hpos ▸ hodd)
  have hri := bnNumBits_words hw hn hne
  obtain ⟨RR, hRR, hRRval, hRRn⟩ := bnMod_spec hw llong
    (bnSetBit ((bnNumBits mod + (w - 1)) / w * w * 2)) hN (by rw [hNint]; omega)
  have hRRnat : RR.toInt = (2 ^ ((bnNumBits mod + (w - 1)) / w * w * 2) % mod.toNat : Nat) := by
    rw [hRRval, hNint, toInt_of_not_neg rfl, toNat_bnSetBit hpos, ofNat_tmod]
  refine ⟨⟨(bnNumBits mod + (w - 1)) / w * w, padTo mod.top RR, { mod with neg := false }, n0⟩,
    ?_, rfl, rfl, hN, length_pos_of_ne_nil hne, ?_, ?_, ?_, ?_⟩
  · rw [bnMontCtxSet, if_neg (by simpa [Bignum.isZero, Bignum.top] using hne), hn0]
    dsimp only
    rw [hRR]
    rfl
  · rw [hri, ← Nat.pow_mul, Nat.mul_comm]
    rfl
  · apply (Nat.ModEq.dvd_iff ?_ dvd_rfl).1 hdvd
    exact ((toNat_modEq_head mod).symm.mul_left _).add_right _
  · rw [toInt_padTo, hRRnat, Nat.pow_mul]
  apply top_padTo
  apply hRRn.top_le
  have hlt : RR.toNat < mod.toNat := by
    rw [← natAbs_toInt, hRRnat]
    exact Nat.mod_lt _ (by omega)
  exact hlt.trans (val_lt mod.d)

theorem bnMontCtxSet_even (hpos : 0 < w) (llong consttime : Bool) (heven : mod.toNat % 2 = 0) :
    bnMontCtxSet llong consttime mod = none := by
  rw [bnMontCtxSet]
  split
  · rfl
  · rw [montN0_even hpos consttime (toNat_mod_two hpos ▸ heven)]

/-! ### Reduction -/

theorem bit_or (a b : Bool) : (bit a ||| bit b : Word w) = bit (a || b) := by
  cases a <;> cases b <;> simp [bit]

theorem bit_and (a b : Bool) : (bit a &&& bit b : Word w) = bit (a && b) := by
  cases a <;> cases b <;> simp [bit]

/-- The two comparisons find the carry of the sum of three words. -/
theorem montCarry_spec (hpos : 0 < w) (hc : carry.toNat ≤ 1) (v old : Word w) :
    (v + carry + old).toNat + 2 ^ w * ((carry ||| bit (v + carry + old ≠ old)) &&&
        bit (v + carry + old ≤ old) : Word w).toNat = v.toNat + carry.toNat + old.toNat ∧
      ((carry ||| bit (v + carry + old ≠ old)) &&& bit (v + carry + old ≤ old) : Word w).toNat ≤ 1
      := by
  obtain ⟨b, rfl⟩ := exists_eq_bit hpos hc
  have hsum : (v + bit b + old).toNat = (v.toNat + (bit b : Word w).toNat + old.toNat) % 2 ^ w := by
    rw [BitVec.toNat_add, BitVec.toNat_add, Nat.mod_add_mod]
  have hb : (bit b : Word w).toNat = if b then 1 else 0 := toNat_bit hpos b
  have hbit : ((b || decide (v + bit b + old ≠ old)) && decide (v + bit b + old ≤ old)) =
      decide (2 ^ w ≤ v.toNat + (bit b : Word w).toNat + old.toNat) := by
    rw [Bool.eq_iff_iff]
    simp only [Bool.and_eq_true, Bool.or_eq_true, decide_eq_true_eq, BitVec.le_def, ne_eq,
      ← BitVec.toNat_inj, hsum]
    by_cases hle : 2 ^ w ≤ v.toNat + (bit b : Word w).toNat + old.toNat
    · rw [Nat.mod_eq_sub_mod hle, Nat.mod_eq_of_lt (by omega)]
      refine iff_of_true ⟨?_, by omega⟩ hle
      cases b with
      | true => exact .inl rfl
      | false =>
        simp only [Bool.false_eq_true, if_false] at hb
        omega
    · rw [Nat.mod_eq_of_lt (by omega)]
      refine iff_of_false ?_ hle
      cases b with
      | true =>
        simp only [if_true] at hb
        omega
      | false =>
        rintro ⟨h | h, h'⟩
        · exact nomatch h
        · omega
  rw [bit_or, bit_and, hbit, toNat_bit hpos, hsum]
  by_cases hle : 2 ^ w ≤ v.toNat + (bit b : Word w).toNat + old.toNat
  · rw [decide_eq_true hle, if_pos rfl, Nat.mod_eq_sub_mod hle, Nat.mod_eq_of_lt (by omega)]
    omega
  · rw [decide_eq_false hle, if_neg nofun, Nat.mod_eq_of_lt (by omega)]
    omega

/-- The words from `rp` on together with the carry, which belongs above `nl` words. -/
def montVal (nl : Nat) (rp : Words w) (carry : Word w) : Nat :=
  val rp + (2 ^ w) ^ nl * carry.toNat

/-- **One round divides by the word size**, after a multiple of the modulus is added. -/
theorem montStep_spec (hpos : 0 < w) (hne : np ≠ []) (hn0 : 2 ^ w ∣ n0.toNat * val np + 1)
    (hlen : np.length < rp.length) (hc : carry.toNat ≤ 1) :
    (∃ m, m < 2 ^ w ∧
      montVal np.length (montStep np n0 rp carry).1 (montStep np n0 rp carry).2 * 2 ^ w =
        montVal np.length rp carry + val np * m) ∧
    (montStep np n0 rp carry).1.length + 1 = rp.length ∧ (montStep np n0 rp carry).2.toNat ≤ 1 := by
  have htake : (rp.take np.length).length = np.length := length_take_of_le hlen.le
  obtain ⟨k, hk⟩ : ∃ k, np.length = k + 1 := ⟨np.length - 1, by
    have := length_pos_of_ne_nil hne
    omega⟩
  rw [montStep]
  dsimp only
  generalize hm : rp.headD 0#w * n0 = m
  obtain ⟨hadd, haddLen⟩ := bnMulAddWords_spec m htake
  generalize bnMulAddWords (rp.take np.length) np m = added at hadd haddLen ⊢
  obtain ⟨lo, v⟩ := added
  obtain ⟨l0, lo, rfl⟩ : ∃ l0 lo', lo = l0 :: lo' := by
    cases lo with
    | nil => exact absurd haddLen.symm (by rw [hk]; exact Nat.succ_ne_zero k)
    | cons l0 lo' => exact ⟨l0, lo', rfl⟩
  obtain ⟨hsum, hcarry⟩ := montCarry_spec hpos hc v (rp.getD np.length 0#w)
  refine ⟨⟨m.toNat, m.isLt, ?_⟩, ?_, hcarry⟩
  · -- all words together, before the lowest one is dropped
    have hsplit := val_take_add_drop np.length rp
    have hold := val_drop_getD hlen
    have hlolen : lo.length = k := Nat.succ.inj (haddLen.trans hk)
    have hpow : (2 ^ w) ^ np.length = (2 ^ w) ^ k * 2 ^ w := by rw [hk, Nat.pow_succ]
    have hall : l0.toNat + 2 ^ w * montVal np.length
        ((l0 :: lo ++ (v + carry + rp.getD np.length 0#w) :: rp.drop (np.length + 1)).tail)
        ((carry ||| bit (v + carry + rp.getD np.length 0#w ≠ rp.getD np.length 0#w)) &&&
          bit (v + carry + rp.getD np.length 0#w ≤ rp.getD np.length 0#w)) =
        montVal np.length rp carry + val np * m.toNat := by
      rw [montVal, montVal, cons_append, tail_cons, val_append, val_cons, hlolen, hsplit,
        htake, hold]
      rw [val_cons] at hadd
      rw [hpow] at hadd ⊢
      linear_combination hadd + (2 ^ w) ^ k * 2 ^ w * hsum
    have hdvd : 2 ^ w ∣ montVal np.length rp carry + val np * m.toNat := by
      have hhead : montVal np.length rp carry ≡ (rp.headD 0#w).toNat [MOD 2 ^ w] := by
        rw [montVal, hk, Nat.pow_succ, Nat.mul_comm _ (2 ^ w), Nat.mul_assoc, Nat.ModEq,
          Nat.add_mul_mod_self_left]
        exact toNat_modEq_head ⟨rp, false⟩
      have hdigit : m.toNat = montVal np.length rp carry * n0.toNat % 2 ^ w := by
        rw [← hm]
        exact (hhead.mul_right _).symm
      rw [hdigit]
      exact dvd_add_mul hn0 _
    have hzero : l0.toNat = 0 := by
      rw [← hall, Nat.dvd_add_left (Nat.dvd_mul_right _ _)] at hdvd
      exact Nat.eq_zero_of_dvd_of_lt hdvd l0.isLt
    rw [← hall, hzero, Nat.zero_add, Nat.mul_comm]
  · rw [cons_append, tail_cons, length_append, length_cons, length_drop]
    rw [length_cons] at haddLen
    omega

theorem montLoop_spec (hpos : 0 < w) (hne : np ≠ []) (hn0 : 2 ^ w ∣ n0.toNat * val np + 1)
    {T i j : Nat} (h : Reduced (2 ^ w) (val np) T j (montVal np.length rp carry))
    (hlen : rp.length = np.length + i) (hc : carry.toNat ≤ 1) :
    Reduced (2 ^ w) (val np) T (j + i)
      (montVal np.length (montLoop np n0 i rp carry).1 (montLoop np n0 i rp carry).2) ∧
    (montLoop np n0 i rp carry).1.length = np.length ∧ (montLoop np n0 i rp carry).2.toNat ≤ 1 := by
  induction i generalizing j rp carry with
  | zero => exact ⟨h, hlen, hc⟩
  | succ i ih =>
    have hlt : np.length < rp.length := by omega
    obtain ⟨⟨m, hm, heq⟩, hlen', hc'⟩ := montStep_spec hpos hne hn0 hlt hc
    have hrun := ih (h.step hm heq) (by omega) hc'
    rw [Nat.add_assoc, Nat.add_comm 1 i] at hrun
    exact hrun

theorem mask_zero (hlen : as.length = bs.length) :
    List.zipWith (fun a b => 0#w &&& a ||| ~~~0#w &&& b) as bs = bs := by
  apply ext_getElem
  · simp [hlen]
  · simp

theorem mask_allOnes (hlen : as.length = bs.length) :
    List.zipWith (fun a b => -1#w &&& a ||| ~~~(-1#w) &&& b) as bs = as := by
  apply ext_getElem
  · simp [hlen]
  · simp [BitVec.neg_one_eq_allOnes]

/-- The final subtraction reduces a number below twice the modulus. -/
theorem montFinal_spec (hpos : 0 < w) {ap : Words w} (hlen : ap.length = np.length)
    (hc : carry.toNat ≤ 1) (hlt : montVal np.length ap carry < 2 * val np) :
    val (montFinal np ap carry) = montVal np.length ap carry % val np ∧
      (montFinal np ap carry).length = np.length := by
  obtain ⟨hsub, hborrow, hsubLen⟩ := bnSubWords_spec hpos hlen
  have hrlt := val_lt (bnSubWords ap np).1
  have hnlt := val_lt np
  rw [montVal] at hlt ⊢
  rw [montFinal]
  dsimp only
  generalize (bnSubWords ap np).2 = borrow at *
  rw [hlen] at hsub hsubLen
  rw [hsubLen] at hrlt
  refine ⟨?_, by rw [length_zipWith, hlen, hsubLen, Nat.min_self]⟩
  obtain ⟨c, rfl⟩ := exists_eq_bit hpos hc
  obtain ⟨b, rfl⟩ := exists_eq_bit hpos hborrow
  rw [toNat_bit hpos] at hsub hlt ⊢
  have hsame : ∀ d : Bool, (bit d - bit d : Word w) = 0#w := fun d => BitVec.sub_self _
  cases b with
  | false =>
    simp only [Bool.false_eq_true, if_false] at hsub
    cases c with
    | false =>
      simp only [Bool.false_eq_true, if_false] at hlt ⊢
      rw [hsame, mask_zero (hlen.trans hsubLen.symm), Nat.mod_eq_sub_mod (by omega),
        Nat.mod_eq_of_lt (by omega)]
      omega
    | true =>
      -- the subtraction would not fit in the words of the modulus
      simp only [if_true] at hlt
      omega
  | true =>
    simp only [if_true, Nat.mul_one] at hsub
    cases c with
    | false =>
      have hmask : (bit false - bit true : Word w) = -1#w := by simp [bit]
      simp only [Bool.false_eq_true, if_false, Nat.mul_zero, Nat.add_zero] at hlt ⊢
      rw [hmask, mask_allOnes (hlen.trans hsubLen.symm), Nat.mod_eq_of_lt (by omega)]
    | true =>
      simp only [if_true, Nat.mul_one] at hlt ⊢
      rw [hsame, mask_zero (hlen.trans hsubLen.symm), hsub, Nat.add_mod_right,
        Nat.mod_eq_of_lt (by omega)]

section Context

variable {mont : MontCtx w} {m : Nat}

theorem MontCtx.For.exists_inverse (hf : mont.For m) : ∃ v, v * 2 ^ mont.ri ≡ 1 [MOD m] := by
  rw [hf.ri]
  exact Montgomery.exists_inverse (Nat.two_pow_pos w) hf.n0 _

theorem MontCtx.For.lt (hf : mont.For m) : m < 2 ^ mont.ri := by
  rw [hf.ri, ← hf.N]
  exact val_lt mont.N.d

/-- The reduction divides by the Montgomery radix. -/
theorem bnFromMontgomeryWord_spec (hpos : 0 < w) (hf : mont.For m)
    (hlt : r.toNat < m * 2 ^ mont.ri) :
    (bnFromMontgomeryWord r mont).toNat < m ∧
      (bnFromMontgomeryWord r mont).toNat * 2 ^ mont.ri ≡ r.toNat [MOD m] ∧
      (bnFromMontgomeryWord r mont).top = mont.N.top ∧
      (bnFromMontgomeryWord r mont).neg = r.neg := by
  have hne : mont.N.d ≠ [] := ne_nil_of_length_pos hf.pos
  have hNval : val mont.N.d = m := hf.N
  have hlen : ((padTo (2 * mont.N.d.length) r).d.take (2 * mont.N.d.length)).length =
      mont.N.d.length + mont.N.d.length := by
    rw [length_take, padTo, length_append, length_replicate, Bignum.top]
    omega
  -- the words above twice the length of the modulus are zero
  have hval : val ((padTo (2 * mont.N.d.length) r).d.take (2 * mont.N.d.length)) = r.toNat := by
    have hpad : val (padTo (2 * mont.N.d.length) r).d = r.toNat := toNat_padTo _ r
    rw [val_take_eq_mod, hpad]
    · apply Nat.mod_eq_of_lt
      refine hlt.trans_le ?_
      rw [hf.ri, ← hf.N, Nat.two_mul, Nat.pow_add]
      exact Nat.mul_le_mul_right _ (val_lt _).le
    · rw [padTo, length_append, length_replicate, Bignum.top]
      omega
  have hstart : Reduced (2 ^ w) (val mont.N.d) r.toNat 0 (montVal mont.N.d.length
      ((padTo (2 * mont.N.d.length) r).d.take (2 * mont.N.d.length)) 0#w) := by
    rw [montVal, hval]
    exact .zero
  obtain ⟨hred, haplen, hc⟩ :=
    montLoop_spec hpos hne (by rw [hNval]; exact hf.n0) hstart hlen (by simp)
  rw [Nat.zero_add] at hred
  have hri : 2 ^ mont.ri = (2 ^ w) ^ mont.N.d.length := hf.ri
  obtain ⟨hfinal, hfinalLen⟩ := montFinal_spec hpos haplen hc
    (hred.lt (by rw [hNval, ← hri]; exact hlt))
  rw [bnFromMontgomeryWord, if_neg (by simpa using hne)]
  rw [Bignum.toNat, hfinal, hNval, hri]
  refine ⟨?_, ?_, hfinalLen, by rw [hf.neg, Bool.xor_false]⟩
  · apply Nat.mod_lt
    by_contra hzero
    rw [Nat.eq_zero_of_not_pos hzero, Nat.zero_mul] at hlt
    exact absurd hlt (Nat.not_lt_zero _)
  · rw [hNval] at hred
    exact ((Nat.mod_modEq _ _).mul_right _).trans hred.modEq

/-- **The quotient by `R`**, with the sign of the number. -/
theorem toInt_bnFromMontgomeryWord (hpos : 0 < w) (hf : mont.For m)
    (hv : v * 2 ^ mont.ri ≡ 1 [MOD m]) (hlt : r.toNat < m * 2 ^ mont.ri) :
    (bnFromMontgomeryWord r mont).toInt = (r.toInt * v).tmod m ∧
      (bnFromMontgomeryWord r mont).top = mont.N.top := by
  obtain ⟨hzlt, hmod, htop, hneg⟩ := bnFromMontgomeryWord_spec hpos hf hlt
  refine ⟨?_, htop⟩
  rw [toInt, hneg, eq_mul_inverse hzlt hmod hv, toInt]
  split
  · rw [neg_mul, neg_tmod, natCast_mod, Nat.cast_mul, tmod_eq_emod_of_nonneg (by positivity)]
  · rw [natCast_mod, Nat.cast_mul, tmod_eq_emod_of_nonneg (by positivity)]

/-- **The product with the inverse of `R`**, of numbers in any representation that fits. -/
theorem bnMulMontFixedTop_spec (hw : WordSize w) (hf : mont.For m)
    (hv : v * 2 ^ mont.ri ≡ 1 [MOD m]) (hsize : 2 * mont.N.top < 2 ^ w) {same : Bool} {b : Bignum w}
    (hsame : same = true → b = a) (htop : a.top + b.top ≤ 2 * mont.N.top)
    (hlt : a.toNat * b.toNat < m * 2 ^ mont.ri) :
    ∃ r, bnMulMontFixedTop same a b mont = some r ∧ r.top = mont.N.top ∧
      r.toInt = (a.toInt * b.toInt * v).tmod m := by
  have hprod : ∃ tmp, (if same then bnSqrFixedTop a else bnMulFixedTop a b) = some tmp ∧
      tmp.toInt = a.toInt * b.toInt := by
    split
    · rename_i h
      obtain ⟨tmp, htmp, hval, _⟩ := bnSqrFixedTop_spec hw a
      exact ⟨tmp, htmp, by rw [hval, hsame h]⟩
    · obtain ⟨tmp, htmp, hval, _⟩ := bnMulFixedTop_spec hw (a := a) (b := b) (by omega) (by omega)
      exact ⟨tmp, htmp, hval⟩
  obtain ⟨tmp, htmp, hval⟩ := hprod
  have habs : tmp.toNat = a.toNat * b.toNat := by
    rw [← natAbs_toInt, hval, natAbs_mul, natAbs_toInt, natAbs_toInt]
  obtain ⟨hr, hrtop⟩ := toInt_bnFromMontgomeryWord hw.pos hf hv (habs ▸ hlt)
  refine ⟨bnFromMontgomeryWord tmp mont, ?_, hrtop, by rw [hr, hval]⟩
  rw [bnMulMontFixedTop, if_neg (by omega), htmp, Option.map_some]

/-- Into Montgomery form. -/
theorem bnToMontFixedTop_spec (hw : WordSize w) (hf : mont.For m) (hsize : 2 * mont.N.top < 2 ^ w)
    (htop : a.top ≤ mont.N.top) (hx : a.toNat < 2 ^ mont.ri) (hm : 0 < m) :
    ∃ r, bnToMontFixedTop a mont = some r ∧ r.top = mont.N.top ∧
      r.toInt = (a.toInt * 2 ^ mont.ri).tmod m := by
  obtain ⟨v, hv⟩ := hf.exists_inverse
  have hRR : mont.RR.toNat = (2 ^ mont.ri) ^ 2 % m := by
    rw [← natAbs_toInt, hf.RR, natAbs_natCast]
  have hlt : a.toNat * mont.RR.toNat < m * 2 ^ mont.ri := by
    rw [hRR, Nat.mul_comm]
    exact Nat.mul_lt_mul_of_lt_of_le (Nat.mod_lt _ hm) hx.le (Nat.two_pow_pos _)
  have hsame : false = true → mont.RR = a := nofun
  obtain ⟨r, hr, hrtop, hval⟩ := bnMulMontFixedTop_spec hw hf hv hsize hsame
    (by rw [hf.RR_top]; omega) hlt
  refine ⟨r, hr, hrtop, ?_⟩
  have hmod : (2 ^ mont.ri) ^ 2 % m * v ≡ 2 ^ mont.ri [MOD m] :=
    calc (2 ^ mont.ri) ^ 2 % m * v ≡ (2 ^ mont.ri) ^ 2 * v [MOD m] :=
          (Nat.mod_modEq _ _).mul_right v
      _ = 2 ^ mont.ri * (v * 2 ^ mont.ri) := by ring
      _ ≡ 2 ^ mont.ri * 1 [MOD m] := hv.mul_left _
      _ = 2 ^ mont.ri := Nat.mul_one _
  rw [hval, hf.RR, mul_assoc, ← Nat.cast_mul, mul_tmod, ← ofNat_tmod, hmod, ofNat_tmod, ← mul_tmod]
  norm_cast

theorem toInt_bnFromMontgomery (hpos : 0 < w) (hf : mont.For m) (hm : 0 < m) {x : Int}
    (ha : a.toInt = (x * 2 ^ mont.ri).tmod m) : (bnFromMontgomery a mont).toInt = x.tmod m := by
  obtain ⟨v, hv⟩ := hf.exists_inverse
  have hlt : a.toNat < m := by
    rw [← natAbs_toInt, ha, natAbs_tmod]
    exact Nat.mod_lt _ (by simpa using hm)
  have hone : ((2 ^ mont.ri * v : Nat) : Int).tmod m = (1 : Int).tmod m := by
    rw [← ofNat_tmod, Nat.mul_comm, hv, ofNat_tmod, Nat.cast_one]
  rw [bnFromMontgomery, bnFromMontFixedTop, toInt_bnCorrectTop,
    (toInt_bnFromMontgomeryWord hpos hf hv (hlt.trans_le (Nat.le_mul_of_pos_right m
      (Nat.two_pow_pos _)))).1, ha, mul_tmod, tmod_tmod, ← mul_tmod, mul_assoc]
  rw [mul_tmod]
  push_cast at hone
  rw [hone, ← mul_tmod, mul_one]

end Context

/-- **Montgomery arithmetic is exact.** -/
theorem montgomery_exact {ι : Type} [DecidableEq ι] (hw : WordSize w) (llong consttime : Bool)
    {N : Bignum w} (hn : N.Normal) (hsize : 2 * N.top < 2 ^ w) :
    (Odd N.toNat → ∃ mont, bnMontCtxSet llong consttime N = some mont ∧
      mont.n0.toNat * N.toNat ≡ 2 ^ w - 1 [MOD 2 ^ w] ∧
      mont.RR.toInt = ((2 ^ mont.ri) ^ 2 % N.toNat : Nat) ∧
      ∃ Rinv, Rinv * 2 ^ mont.ri ≡ 1 [MOD N.toNat] ∧
        (∀ (σ : ι → Bignum w) (r a b : ι), 0 ≤ (σ a).toInt → 0 ≤ (σ b).toInt →
          (σ a).toInt * (σ b).toInt < N.toNat * 2 ^ mont.ri →
          (σ a).top + (σ b).top ≤ 2 * N.top →
          ∃ σ', bnModMulMontgomery r a b mont σ = some σ' ∧ (σ' r).Normal ∧
            (σ' r).toInt = (σ a).toInt * (σ b).toInt * Rinv % N.toNat ∧
            ∀ v, v ≠ r → σ' v = σ v) ∧
        ∀ a : Bignum w, 0 ≤ a.toInt → a.toInt < N.toNat → a.Normal ∨ a.top ≤ N.top →
          ∃ aR, bnToMontgomery a mont = some aR ∧ (bnFromMontgomery aR mont).toInt = a.toInt) ∧
    (Even N.toNat → bnMontCtxSet llong consttime N = none) := by
  constructor
  · intro hodd
    obtain ⟨mont, hset, hf⟩ := bnMontCtxSet_spec hw llong consttime hn (Nat.odd_iff.1 hodd)
    obtain ⟨v, hv⟩ := hf.exists_inverse
    have hm : 0 < N.toNat := hodd.pos
    have htopN : mont.N.top = N.top :=
      congrArg List.length (eq_of_val_eq hf.normal.last hn.last hw.pos hf.N)
    have hsizeN : 2 * mont.N.top < 2 ^ w := by rw [htopN]; exact hsize
    refine ⟨mont, hset, ?_, hf.RR, v, hv, ?_, ?_⟩
    · apply Nat.ModEq.add_right_cancel' 1
      rw [Nat.sub_add_cancel Nat.one_le_two_pow]
      exact (Nat.modEq_zero_iff_dvd.2 hf.n0).trans (Nat.modEq_zero_iff_dvd.2 dvd_rfl).symm
    · intro σ r a b ha hb hlt htop
      have hsame : (a == b) = true → σ b = σ a := fun h => by rw [beq_iff_eq.1 h]
      have hnat : (σ a).toNat * (σ b).toNat < N.toNat * 2 ^ mont.ri := by
        rw [← natAbs_toInt, ← natAbs_toInt, ← natAbs_mul]
        zify
        rwa [abs_of_nonneg (mul_nonneg ha hb)]
      obtain ⟨p, hp, _, hval⟩ := bnMulMontFixedTop_spec hw hf hv hsizeN hsame
        (by rw [htopN]; exact htop) hnat
      refine ⟨store (some r) (bnCorrectTop p) σ, by rw [bnModMulMontgomery, hp]; rfl, ?_, ?_, ?_⟩
      · rw [store_self]
        exact normal_bnCorrectTop p
      · rw [store_self, toInt_bnCorrectTop, hval, tmod_eq_emod_of_nonneg (by positivity)]
      · intro v hv
        simp [store, hv]
    · intro a ha hlt hrep
      have hxm : a.toNat < N.toNat := by
        rw [← natAbs_toInt]
        omega
      have htop : a.top ≤ mont.N.top := by
        rw [htopN]
        exact hrep.elim (fun hnorm => hnorm.top_le (hxm.trans (val_lt N.d))) id
      obtain ⟨p, hp, _, hval⟩ := bnToMontFixedTop_spec hw hf hsizeN htop (hxm.trans hf.lt) hm
      refine ⟨bnCorrectTop p, by rw [bnToMontgomery, hp]; rfl, ?_⟩
      rw [toInt_bnFromMontgomery hw.pos hf hm (by rw [toInt_bnCorrectTop, hval]),
        tmod_eq_of_lt ha hlt]
  · intro heven
    exact bnMontCtxSet_even hw.pos llong consttime (Nat.even_iff.1 heven)

/-- The modulus 15, with a low word that is not one, and a number of one word. -/
theorem montgomery_exact_fifteen :
    ∃ mont, bnMontCtxSet true false (⟨[15#64], false⟩ : Bignum 64) = some mont ∧
      mont.n0.toNat * 15 ≡ 2 ^ 64 - 1 [MOD 2 ^ 64] ∧
      ∃ aR, bnToMontgomery ⟨[7#64], false⟩ mont = some aR ∧
        (bnFromMontgomery aR mont).toInt = 7 := by
  obtain ⟨mont, hset, hn0, _, _, _, _, hround⟩ :=
    (@montgomery_exact 64 Bool _ ⟨by decide, by decide⟩ true false ⟨[15#64], false⟩ (by decide)
      (by decide)).1 (by decide)
  exact ⟨mont, hset, hn0, hround ⟨[7#64], false⟩ (by decide) (by decide) (.inl (by decide))⟩

end QuicTls.Bn
