import Mathlib.NumberTheory.LegendreSymbol.JacobiSymbol
import QuicTls.Crypto.Bn.Kron
import QuicTls.Verify.Bn.Gcd

/-!
# `BN_kronecker` computes the Kronecker symbol

The loop takes out powers of two and uses reciprocity; it ends, too (`kronecker_symbol`).
-/

namespace QuicTls.Bn.Z

/-- The symbol at a prime. -/
def kroneckerAt (a : Int) (p : Nat) : Int := if p = 2 then ZMod.χ₈ (a : ZMod 8) else jacobiSym a p

/-- The Kronecker symbol `(a/b)`, by the factorisation of `b`. -/
def kroneckerSym (a b : Int) : Int :=
  if b = 0 then if a.natAbs = 1 then 1 else 0
  else (if a < 0 ∧ b < 0 then -1 else 1) * (b.natAbs.primeFactorsList.map (kroneckerAt a)).prod

variable {B : Nat}

theorem prod_kroneckerAt (a : Int) (i : Nat) (hB : Odd B) :
    ((2 ^ i * B).primeFactorsList.map (kroneckerAt a)).prod =
      ZMod.χ₈ (a : ZMod 8) ^ i * jacobiSym a B := by
  have hodd : B.primeFactorsList.map (kroneckerAt a) =
      B.primeFactorsList.map fun p => jacobiSym a p := by
    apply List.map_congr_left
    intro p hp
    refine if_neg fun h2 => ?_
    exact Nat.not_even_iff_odd.2 hB (even_iff_two_dvd.2 (h2 ▸ Nat.dvd_of_mem_primeFactorsList hp))
  have hprod := jacobiSym.list_prod_right (a := a) (l := B.primeFactorsList) fun p hp =>
    (Nat.prime_of_mem_primeFactorsList hp).ne_zero
  rw [Nat.prod_primeFactorsList hB.pos.ne'] at hprod
  rw [((Nat.perm_primeFactorsList_mul (Nat.two_pow_pos i).ne' hB.pos.ne').map _).prod_eq,
    List.map_append, List.prod_append, hodd, ← hprod, Nat.prime_two.primeFactorsList_pow]
  simp [kroneckerAt]

variable {fuel : Nat}

theorem lowBit_spec {a c : Int} {i : Nat} (ha : a = 2 ^ i * c) (hc : c ≠ 0)
    (hfuel : c.natAbs < 2 ^ fuel) : ∃ k d, lowBit a fuel i = some k ∧ Odd d ∧ a = 2 ^ k * d := by
  induction fuel generalizing i c with
  | zero => exact absurd (Int.natAbs_pos.2 hc) (by omega)
  | succ fuel ih =>
    have hbit : a.natAbs.testBit i = decide (c.natAbs % 2 = 1) := by
      rw [Nat.testBit_eq_decide_div_mod_eq, ha, Int.natAbs_mul]
      exact congrArg (fun n => decide (n % 2 = 1)) (Nat.mul_div_cancel_left _ (Nat.two_pow_pos i))
    rw [lowBit, hbit]
    split_ifs with hodd
    · exact ⟨i, c, rfl, Int.natAbs_odd.1 (Nat.odd_iff.2 (of_decide_eq_true hodd)), ha⟩
    · obtain ⟨e, rfl⟩ : ∃ e, c = 2 * e := ⟨c / 2, by simp at hodd; omega⟩
      refine ih (c := e) ?_ (by omega) (by rw [Nat.pow_succ] at hfuel; omega)
      rw [ha, Int.pow_succ, Int.mul_assoc]

theorem lowBit_numBits {a : Int} (ha : a ≠ 0) :
    ∃ k d, lowBit a (numBits a) 0 = some k ∧ Odd d ∧ a = 2 ^ k * d :=
  lowBit_spec (by rw [Int.pow_zero, Int.one_mul]) ha (Nat.lt_size_self _)

theorem tdiv_lowBit (k : Nat) (d : Int) : (2 ^ k * d).tdiv (2 ^ k) = d :=
  Int.mul_tdiv_cancel_left _ (pow_ne_zero k (by decide))

theorem kronTab_eq (a : Int) : kronTab a = ZMod.χ₈ (a : ZMod 8) := by
  rw [ZMod.χ₈_int_eq_if_mod_eight, kronTab]
  obtain ⟨n, hn⟩ : ∃ n, a.natAbs % 8 = n := ⟨_, rfl⟩
  have hlt : n < 8 := hn ▸ Nat.mod_lt _ (by decide)
  rw [hn]
  interval_cases n <;> simp <;> omega

/-- An even number of factors two does not change the symbol, an odd number is one factor. -/
theorem sign_pow {x : Int} (hx : x = 1 ∨ x = -1) (i : Nat) :
    x ^ i = if i % 2 = 1 then x else 1 := by
  split
  · rename_i hodd
    obtain rfl | rfl := hx
    · exact one_pow i
    · exact (Nat.odd_iff.2 hodd).neg_one_pow
  · obtain rfl | rfl := hx
    · exact one_pow i
    · exact (Nat.even_iff.2 (by omega)).neg_one_pow

theorem χ₈_odd {d : Int} (hd : Odd d) : ZMod.χ₈ (d : ZMod 8) = 1 ∨ ZMod.χ₈ (d : ZMod 8) = -1 := by
  rw [ZMod.χ₈_int_eq_if_mod_eight, if_neg (by rw [Int.odd_iff.1 hd]; decide)]
  split
  · exact .inl rfl
  · exact .inr rfl

/-- The reciprocity law with a negative numerator. -/
theorem jacobiSym_reciprocity {A : Int} (hA : Odd A) (hB : Odd B) :
    jacobiSym A B = (if kronSign A B then -1 else 1) * jacobiSym B A.natAbs := by
  have hlow (n : Nat) (hn : Odd n) : n.testBit 1 = decide (n % 4 = 3) := by
    rw [Nat.testBit_eq_decide_div_mod_eq]
    have := Nat.odd_iff.1 hn
    exact decide_eq_decide.2 (by omega)
  have hn := Int.natAbs_odd.2 hA
  have hrec := jacobiSym.quadratic_reciprocity_if (Nat.odd_iff.1 hn) (Nat.odd_iff.1 hB)
  rw [kronSign, Int.natAbs_natCast, hlow _ hn, hlow _ hB]
  obtain hneg | hpos := lt_or_ge A 0
  · -- the sign of `-1` and that of the reciprocity law are both those of residue three
    have hA' : A = -(A.natAbs : Int) := by omega
    conv_lhs => rw [hA', jacobiSym.neg _ hB, ← hrec]
    obtain hB1 | hB3 := Nat.odd_mod_four_iff.1 (Nat.odd_iff.1 hB)
    · rw [ZMod.χ₄_nat_one_mod_four hB1]
      simp [hB1]
    · rw [ZMod.χ₄_nat_three_mod_four hB3]
      by_cases hA3 : A.natAbs % 4 = 3 <;> simp [hneg, hB3]
  · have hA' : A = (A.natAbs : Int) := by omega
    conv_lhs => rw [hA', ← hrec]
    simp [not_lt.2 hpos]

/-- The loop multiplies the result by the Jacobi symbol, for an odd lower number. -/
theorem kroneckerLoop_spec {A ret : Int} (hB : Odd B)
    (hfuel : A.natAbs < fuel) : kroneckerLoop fuel A B ret = some (ret * jacobiSym A B) := by
  induction fuel generalizing A B ret with
  | zero => omega
  | succ fuel ih =>
    rw [kroneckerLoop]
    split
    · rename_i hA
      rw [hA]
      split
      · rename_i hone
        rw [Nat.cast_eq_one.1 hone, jacobiSym.one_right, mul_one]
      · have : 1 < B := by have := hB.pos; omega
        rw [jacobiSym.zero_left this, mul_zero]
    rename_i hA
    obtain ⟨k, d, hlow, hd, rfl⟩ := lowBit_numBits hA
    rw [hlow]
    dsimp only
    have hd0 : d ≠ 0 := fun h => hA (by rw [h, Int.mul_zero])
    have hlt : (nnmod B d).natAbs < d.natAbs := by
      rw [nnmod_eq hd0]
      have := Int.emod_lt (B : Int) hd0
      have := Int.emod_nonneg (B : Int) hd0
      omega
    have hle : d.natAbs ≤ (2 ^ k * d).natAbs := by
      rw [Int.natAbs_mul]
      exact Nat.le_mul_of_pos_left _ (Int.natAbs_pos.2 (pow_ne_zero k (by decide)))
    have htwo : jacobiSym (2 ^ k) B = if k % 2 = 1 then kronTab B else 1 := by
      rw [jacobiSym.pow_left, jacobiSym.at_two hB, kronTab_eq]
      exact sign_pow (χ₈_odd ((Int.odd_coe_nat B).2 hB)) k
    rw [tdiv_lowBit, ih (Int.natAbs_odd.2 hd) (by omega), nnmod_eq hd0, jacobiSym.mul_left,
      jacobiSym_reciprocity hd hB, htwo, jacobiSym.mod_left (B : Int) d.natAbs,
      Int.natCast_natAbs, Int.emod_abs]
    split <;> split <;> ring_nf

/-- `BN_kronecker` ends and returns the Kronecker symbol. -/
theorem kronecker_symbol (a b : Int) : kronecker a b = some (kroneckerSym a b) := by
  rw [kronecker, kroneckerSym]
  split
  · rfl
  rename_i hb
  obtain ⟨k, d, hlow, hd, rfl⟩ := lowBit_numBits hb
  have hd' := Int.natAbs_odd.2 hd
  have habs : (2 ^ k * d).natAbs = 2 ^ k * d.natAbs := by rw [Int.natAbs_mul]; rfl
  rw [hlow, habs, prod_kroneckerAt a k hd']
  dsimp only
  have hsign : 2 ^ k * d < 0 ↔ d < 0 := by
    rw [← not_le, ← not_le, mul_nonneg_iff_of_pos_left (pow_pos two_pos k)]
  rw [tdiv_lowBit, kroneckerLoop_spec hd' (Nat.lt_succ_self _)]
  split
  · rename_i heven
    -- the denominator has a factor two and the numerator is even
    have hk : k ≠ 0 := by
      rintro rfl
      have := Nat.odd_iff.1 hd'
      omega
    have hzero : ZMod.χ₈ (a : ZMod 8) = 0 := by
      rw [ZMod.χ₈_int_eq_if_mod_eight]
      exact if_pos (by omega)
    rw [hzero, zero_pow hk, zero_mul, mul_zero]
  · have htwo : ZMod.χ₈ (a : ZMod 8) ^ k = if k % 2 = 1 then kronTab a else 1 := by
      obtain rfl | hk := Nat.eq_zero_or_pos k
      · exact pow_zero _
      · have hdvd : 2 ∣ 2 ^ k * d.natAbs := Dvd.dvd.mul_right (dvd_pow_self 2 hk.ne') _
        rw [kronTab_eq]
        exact sign_pow (χ₈_odd (Int.natAbs_odd.1 (Nat.odd_iff.2 (by omega)))) k
    simp only [htwo, hsign, and_comm]
    split <;> ring_nf

/-- A negative numerator over an even denominator. -/
example : kronecker (-5) 6 = some (-1) := by decide

end QuicTls.Bn.Z
