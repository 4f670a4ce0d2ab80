import Mathlib.Data.Nat.Prime.Basic
import Mathlib.Tactic.LinearCombination
import Mathlib.Tactic.Linarith
import Mathlib.Tactic.Ring
import QuicTls.Crypto.Bn.Gcd

/-!
# Modular inversion is exact on all three paths

The loops keep the congruences of the extended algorithm (`EuclidInv`, `BinaryInv`);
`modInverse_spec` is about the loop that is taken.
-/

namespace QuicTls.Bn.Z

open Int

theorem nnmod_eq {d : Int} (hd : d ≠ 0) (m : Int) : nnmod m d = m % d := by
  have hsplit := mul_tdiv_add_tmod m d
  have habs : (m.tmod d).natAbs < d.natAbs := by
    rw [natAbs_tmod]
    exact Nat.mod_lt _ (natAbs_pos.2 hd)
  symm
  rw [nnmod, emod_eq_iff hd]
  split
  · split
    · exact ⟨by omega, by omega, -(m.tdiv d) - 1, by linear_combination hsplit⟩
    · exact ⟨by omega, by omega, -(m.tdiv d) + 1, by linear_combination hsplit⟩
  · exact ⟨by omega, by omega, -(m.tdiv d), by linear_combination hsplit⟩

/-- What holds before each round of the Euclidean loops, modulo `m`; `g` is the greatest common
divisor that the algorithm finds. -/
structure EuclidInv (a m : Int) (g : Nat) (st : Euclid) : Prop where
  sign : st.sign = 1 ∨ st.sign = -1
  nonneg : 0 ≤ st.B
  lt : st.B < st.A
  b : m ∣ -st.sign * st.X * a - st.B
  a : m ∣ st.sign * st.Y * a - st.A
  gcd : Int.gcd st.A st.B = g

variable {a m : Int}

theorem EuclidInv.step {g : Nat} {st : Euclid} (h : EuclidInv a m g st) (hB : st.B ≠ 0) :
    EuclidInv a m g { A := st.B, B := st.A % st.B, X := st.A / st.B * st.X + st.Y, Y := st.X,
                      sign := -st.sign } := by
  have hdiv := mul_ediv_add_emod st.A st.B
  have hpos : 0 < st.B := lt_of_le_of_ne h.nonneg (Ne.symm hB)
  obtain ⟨i, hi⟩ := h.b
  obtain ⟨j, hj⟩ := h.a
  refine ⟨?_, emod_nonneg _ hB, emod_lt_of_pos _ hpos, ?_, ?_, ?_⟩
  · rcases h.sign with hs | hs <;> simp [hs]
  · refine ⟨j - st.A / st.B * i, ?_⟩
    linear_combination hj - st.A / st.B * hi - hdiv
  · refine ⟨i, ?_⟩
    linear_combination hi
  · rw [gcd_comm, gcd_emod, ← h.gcd]

theorem noBranchLoop_spec {g : Nat} {fuel : Nat} {st : Euclid}
    (h : EuclidInv a m g st) (hfuel : st.B < fuel) :
    ∃ st', noBranchLoop fuel st = some st' ∧ EuclidInv a m g st' ∧ st'.B = 0 := by
  induction fuel generalizing st with
  | zero =>
    have := h.nonneg
    omega
  | succ fuel ih =>
    rw [noBranchLoop]
    split_ifs with hB
    · exact ⟨st, rfl, h, hB⟩
    have hnext := h.step hB
    have hA : 0 ≤ st.A := h.nonneg.trans h.lt.le
    rw [← tdiv_eq_ediv_of_nonneg hA, ← tmod_eq_emod_of_nonneg hA] at hnext
    have hlt := hnext.lt
    exact ih hnext (by dsimp only at hlt ⊢; omega)

theorem numBits_spec {x : Int} (hx : 0 < x) :
    (2 : Int) ^ (numBits x - 1) ≤ x ∧ x < 2 ^ numBits x ∧ 0 < numBits x := by
  have hpos : 0 < numBits x := Nat.size_pos.2 (by omega)
  have hle : 2 ^ (numBits x - 1) ≤ x.natAbs := Nat.lt_size.1 (Nat.sub_one_lt hpos.ne')
  have hlt : x.natAbs < 2 ^ numBits x := Nat.size_le.1 le_rfl
  have hle' : ((2 ^ (numBits x - 1) : Nat) : Int) ≤ x.natAbs := ofNat_le.2 hle
  have hlt' : (x.natAbs : Int) < (2 ^ numBits x : Nat) := ofNat_lt.2 hlt
  rw [natAbs_of_nonneg hx.le] at hle' hlt'
  exact ⟨hle', hlt', hpos⟩

theorem ediv_emod_of {A B q r : Int} (hA : A = B * q + r) (hr : 0 ≤ r) (hrB : r < B) :
    (q, r) = (A / B, A % B) := by
  obtain ⟨hdiv, hmod⟩ : A / B = q ∧ A % B = r :=
    (Int.ediv_emod_unique (by omega)).2 ⟨by rw [hA, add_comm], hr, hrB⟩
  rw [hdiv, hmod]

theorem quotRem_eq {A B : Int} (hB : 0 < B) (hlt : B < A) : quotRem A B = (A / B, A % B) := by
  obtain ⟨hAlo, hAhi, hAbits⟩ := numBits_spec (hB.trans hlt)
  obtain ⟨hBlo, hBhi, hBbits⟩ := numBits_spec hB
  have hpow : (2 : Int) ^ numBits B = 2 * 2 ^ (numBits B - 1) := by
    rw [← pow_succ', Nat.sub_add_cancel hBbits]
  rw [quotRem]
  split_ifs with heq heq
  · rw [heq] at hAhi
    exact ediv_emod_of (by ring) (by omega) (by omega)
  · rw [heq] at hAhi
    dsimp only
    split_ifs <;> exact ediv_emod_of (by ring) (by omega) (by omega)
  · rw [tdiv_eq_ediv_of_nonneg (by omega), tmod_eq_emod_of_nonneg (by omega)]

theorem mulAdd_eq (D X Y : Int) : mulAdd D X Y = D * X + Y := by
  rw [mulAdd]
  split_ifs with h h h
  · rw [h, one_mul]
  · rw [h]
  · rw [h]
    ring
  · rfl

theorem generalLoop_spec {g : Nat} {fuel : Nat} {st : Euclid}
    (h : EuclidInv a m g st) (hfuel : st.B < fuel) :
    ∃ st', generalLoop fuel st = some st' ∧ EuclidInv a m g st' ∧ st'.B = 0 := by
  induction fuel generalizing st with
  | zero =>
    have := h.nonneg
    omega
  | succ fuel ih =>
    rw [generalLoop]
    split_ifs with hB
    · exact ⟨st, rfl, h, hB⟩
    have hnext := h.step hB
    have hlt := hnext.lt
    rw [quotRem_eq (lt_of_le_of_ne h.nonneg (Ne.symm hB)) h.lt]
    dsimp only
    rw [mulAdd_eq]
    exact ih hnext (by dsimp only at hlt ⊢; omega)

/-- `2 ^ shift` is the largest power of two in `B`, and `X` has been divided by it modulo `n`. -/
theorem halvings_spec {n B : Int} (hn : n.natAbs % 2 = 1) {fuel shift : Nat} {X : Int}
    (hX : 0 ≤ X) (hdvd : 2 ^ shift ∣ B.natAbs) (hB : B.natAbs < 2 ^ (shift + fuel)) (hne : B ≠ 0) :
    ∃ s X', halvings n B fuel shift X = some (s, X') ∧ shift ≤ s ∧ 0 ≤ X' ∧ 2 ^ s ∣ B.natAbs ∧
      B.natAbs / 2 ^ s % 2 = 1 ∧ n ∣ 2 ^ (s - shift) * X' - X := by
  induction fuel generalizing shift X with
  | zero =>
    have hle := Nat.le_of_dvd (natAbs_pos.2 hne) hdvd
    exact absurd hB (Nat.not_lt.2 hle)
  | succ fuel ih =>
    rw [halvings]
    split
    · rename_i hbit
      refine ⟨shift, X, rfl, le_rfl, hX, hdvd, ?_, 0, by rw [Nat.sub_self]; ring⟩
      rw [Nat.testBit_eq_decide_div_mod_eq] at hbit
      simpa using hbit
    rename_i hbit
    rw [Nat.testBit_eq_decide_div_mod_eq] at hbit
    obtain ⟨c, hc⟩ := hdvd
    have hnext : 2 ^ (shift + 1) ∣ B.natAbs := by
      rw [hc] at hbit
      obtain ⟨e, he⟩ : ∃ e, c = 2 * e := ⟨c / 2, by simp at hbit; omega⟩
      exact ⟨e, by rw [hc, he, Nat.pow_succ, Nat.mul_assoc]⟩
    -- the number that is halved is even and congruent to `X`
    have heven : ∃ y : Int, 0 ≤ y ∧ n ∣ 2 * y - X ∧
        (if X.natAbs % 2 = 1 then (X.natAbs : Int) + n.natAbs else X).tdiv 2 = y := by
      split
      · refine ⟨(X.natAbs + n.natAbs) / 2, by omega, ?_, tdiv_eq_ediv_of_nonneg (by omega)⟩
        have hsum : 2 * ((X.natAbs + n.natAbs : Int) / 2) - X = n.natAbs := by omega
        rw [hsum]
        exact dvd_natAbs_self
      · refine ⟨X / 2, by omega, ?_, tdiv_eq_ediv_of_nonneg hX⟩
        rw [show 2 * (X / 2) - X = 0 by omega]
        exact dvd_zero n
    obtain ⟨y, hy, ⟨i, hi⟩, hhalf⟩ := heven
    obtain ⟨s, X', hrun, hle, hX', hs, hodd, j, hj⟩ := ih hy hnext (by
      rw [show shift + 1 + fuel = shift + (fuel + 1) by omega]
      exact hB)
    dsimp only
    rw [hhalf]
    refine ⟨s, X', hrun, by omega, hX', hs, hodd, 2 * j + i, ?_⟩
    have hpow : (2 : Int) ^ (s - shift) = 2 * 2 ^ (s - (shift + 1)) := by
      rw [← pow_succ']
      congr 1
      omega
    rw [hpow]
    linear_combination 2 * hj + hi

/-- What holds before each round of the binary algorithm; `g` is odd. -/
structure BinaryInv (a n : Int) (g : Nat) (st : Euclid) : Prop where
  sign : st.sign = -1
  pos : 0 < st.A
  nonneg : 0 ≤ st.B
  x : 0 ≤ st.X
  y : 0 ≤ st.Y
  b : n ∣ st.X * a - st.B
  a : n ∣ st.Y * a + st.A
  gcd : Int.gcd st.A st.B = g

theorem gcd_two_pow {n : Int} (hn : n.natAbs % 2 = 1) (s : Nat) : Int.gcd n (2 ^ s) = 1 := by
  apply Nat.Coprime.pow_right
  exact Nat.coprime_two_right.2 (Nat.odd_iff.2 hn)

/-- A number is halved as often as it is even; `Z` is its factor modulo `n`. -/
theorem halvings_numBits {n V Z : Int} (hn : n.natAbs % 2 = 1) (hV : 0 < V) (hZ : 0 ≤ Z)
    (a c : Int) (h : n ∣ Z * a + c * V) :
    ∃ s Z', halvings n V (numBits V) 0 Z = some (s, Z') ∧ 0 ≤ Z' ∧ 0 < V.tdiv (2 ^ s) ∧
      V.tdiv (2 ^ s) ≤ V ∧ V = 2 ^ s * V.tdiv (2 ^ s) ∧ n ∣ Z' * a + c * V.tdiv (2 ^ s) := by
  have hbits : V.natAbs < 2 ^ (0 + numBits V) := by
    rw [Nat.zero_add]
    exact Nat.size_le.1 le_rfl
  obtain ⟨s, Z', hrun, _, hZ', ⟨q, hq⟩, _, i, hi⟩ :=
    halvings_spec hn hZ (by rw [Nat.pow_zero]; exact one_dvd _) hbits hV.ne'
  have hpow : (0 : Int) < 2 ^ s := by positivity
  have hVq : V = 2 ^ s * (q : Int) := by
    rw [← natAbs_of_nonneg hV.le, hq]
    rfl
  have hdiv : V.tdiv (2 ^ s) = q := by
    rw [hVq, mul_tdiv_cancel_left _ hpow.ne']
  have hqpos : 0 < (q : Int) := by
    rw [hVq] at hV
    exact pos_of_mul_pos_right hV hpow.le
  refine ⟨s, Z', hrun, hZ', ?_⟩
  rw [hdiv]
  refine ⟨hqpos, ?_, hVq, ?_⟩
  · rw [hVq]
    exact le_mul_of_one_le_left hqpos.le (by omega)
  · obtain ⟨j, hj⟩ := h
    apply dvd_of_dvd_mul_right_of_gcd_one _ (gcd_two_pow hn s)
    refine ⟨i * a + j, ?_⟩
    rw [hVq] at hj
    linear_combination a * hi + hj

theorem gcd_stripped {A B A' B' : Int} {s t : Nat} (hA : A = 2 ^ s * A') (hB : B = 2 ^ t * B')
    (hodd : Int.gcd A B % 2 = 1) : Int.gcd A' B' = Int.gcd A B := by
  apply Nat.dvd_antisymm
  · apply Int.dvd_gcd
    · rw [hA]
      exact Dvd.dvd.mul_left (Int.gcd_dvd_left _ _) _
    · rw [hB]
      exact Dvd.dvd.mul_left (Int.gcd_dvd_right _ _) _
  · have hcop : ∀ k, Int.gcd (Int.gcd A B) (2 ^ k) = 1 := gcd_two_pow (by simpa using hodd)
    apply Int.dvd_gcd
    · apply dvd_of_dvd_mul_right_of_gcd_one _ (hcop s)
      rw [← hA]
      exact Int.gcd_dvd_left _ _
    · apply dvd_of_dvd_mul_right_of_gcd_one _ (hcop t)
      rw [← hB]
      exact Int.gcd_dvd_right _ _

/-- The binary loop ends, and its invariant holds at the end. -/
theorem binaryLoop_spec {n : Int} {g : Nat} (hn : n.natAbs % 2 = 1) (hg : g % 2 = 1)
    {fuel : Nat} {st : Euclid} (h : BinaryInv a n g st) (hfuel : st.A + st.B < fuel) :
    ∃ st', binaryLoop n fuel st = some st' ∧ BinaryInv a n g st' ∧ st'.B = 0 := by
  induction fuel generalizing st with
  | zero =>
    have := h.nonneg
    have := h.pos
    omega
  | succ fuel ih =>
    rw [binaryLoop]
    split
    · rename_i hB
      exact ⟨st, rfl, h, hB⟩
    rename_i hB
    have hBpos : 0 < st.B := lt_of_le_of_ne h.nonneg (Ne.symm hB)
    obtain ⟨sb, X, hX, hX0, hB', hBle, hBeq, i, hi⟩ := halvings_numBits hn hBpos h.x a (-1)
      (by rw [neg_one_mul]; exact h.b)
    obtain ⟨sa, Y, hY, hY0, hA', hAle, hAeq, j, hj⟩ := halvings_numBits hn h.pos h.y a 1
      (by rw [one_mul]; exact h.a)
    have hgcd := gcd_stripped hAeq hBeq (by rw [h.gcd]; exact hg)
    rw [h.gcd] at hgcd
    rw [hX, hY]
    dsimp only
    rw [natAbs_of_nonneg hB'.le, natAbs_of_nonneg hA'.le, natAbs_of_nonneg hX0,
      natAbs_of_nonneg hY0]
    split
    · refine ih ⟨h.sign, hA', ?_, ?_, hY0, ?_, ?_, ?_⟩ ?_
      · dsimp only; omega
      · dsimp only; omega
      · exact ⟨i + j, by dsimp only; linear_combination hi + hj⟩
      · exact ⟨j, by dsimp only; linear_combination hj⟩
      · simpa using hgcd
      · dsimp only; omega
    · refine ih ⟨h.sign, ?_, hB'.le, hX0, ?_, ?_, ?_, ?_⟩ ?_
      · dsimp only; omega
      · dsimp only; omega
      · exact ⟨i, by dsimp only; linear_combination hi⟩
      · exact ⟨i + j, by dsimp only; linear_combination hi + hj⟩
      · simpa using hgcd
      · dsimp only; omega

/-- The inverse at the end of the loops, if there is one. -/
theorem inverseOf_spec {n : Int} {g : Nat} {st : Euclid} (hn : n ≠ 0)
    (hsign : st.sign = 1 ∨ st.sign = -1) (hA : st.A = g) (ha : n ∣ st.sign * st.Y * a - st.A) :
    (g = 1 → ∃ r, inverseOf n st = some r ∧ 0 ≤ r ∧ r < n.natAbs ∧ n ∣ r * a - 1) ∧
      (g ≠ 1 → inverseOf n st = none) := by
  have hY : n ∣ (if st.sign < 0 then n - st.Y else st.Y) * a - st.A := by
    obtain ⟨i, hi⟩ := ha
    rcases hsign with hs | hs
    · rw [hs] at hi ⊢
      exact ⟨i, by simpa using hi⟩
    · rw [hs] at hi ⊢
      refine ⟨i + a, ?_⟩
      rw [if_pos (by decide)]
      linear_combination hi
  rw [inverseOf]
  generalize (if st.sign < 0 then n - st.Y else st.Y) = Y at *
  constructor
  · rintro rfl
    rw [hA, Nat.cast_one] at hY ⊢
    rw [if_pos rfl]
    split
    · rename_i hsmall
      exact ⟨Y, rfl, hsmall.1, by omega, hY⟩
    refine ⟨_, rfl, ?_⟩
    rw [nnmod_eq hn]
    refine ⟨emod_nonneg _ hn, emod_lt _ hn, ?_⟩
    obtain ⟨i, hi⟩ := hY
    refine ⟨i - Y / n * a, ?_⟩
    have hdiv := mul_ediv_add_emod Y n
    linear_combination hi + a * hdiv
  · intro hne
    rw [if_neg (by omega)]

theorem init_spec {n : Int} (hn : n ≠ 0) :
    0 ≤ (Euclid.init a n).B ∧ (Euclid.init a n).B < n.natAbs ∧ n ∣ a - (Euclid.init a n).B ∧
      Int.gcd (Euclid.init a n).A (Euclid.init a n).B = Int.gcd a n := by
  have hB : (Euclid.init a n).B = a % n := by
    have habs : a % (n.natAbs : Int) = a % n := by
      rcases natAbs_eq n with h | h
      · rw [← h]
      · rw [show (n.natAbs : Int) = -n by omega, emod_neg]
    rw [Euclid.init]
    split
    · rw [nnmod_eq (by omega), habs]
    · rw [← habs, emod_eq_of_lt (by omega) (by omega)]
  rw [hB]
  refine ⟨emod_nonneg _ hn, emod_lt _ hn, ⟨a / n, ?_⟩, ?_⟩
  · linear_combination -(mul_ediv_add_emod a n)
  · rw [← gcd_emod a n, gcd_comm]
    show Nat.gcd (a % n).natAbs (n.natAbs : Int).natAbs = Nat.gcd (a % n).natAbs n.natAbs
    rw [natAbs_natCast]

theorem EuclidInv.init {n : Int} (hn : n ≠ 0) : EuclidInv a n (Int.gcd a n) (Euclid.init a n) := by
  obtain ⟨hnonneg, hlt, hb, hgcd⟩ := @init_spec a n hn
  refine ⟨.inr rfl, hnonneg, hlt, ?_, ?_, hgcd⟩
  · simpa [Euclid.init] using hb
  · show n ∣ -1 * 0 * a - n.natAbs
    rw [mul_zero, zero_mul, zero_sub, Int.dvd_neg]
    exact dvd_natAbs_self

theorem BinaryInv.init {n : Int} (hn : n ≠ 0) : BinaryInv a n (Int.gcd a n) (Euclid.init a n) := by
  obtain ⟨hnonneg, hlt, hb, hgcd⟩ := @init_spec a n hn
  have hA : (Euclid.init a n).A = n.natAbs := rfl
  refine ⟨rfl, by omega, hnonneg, zero_le_one, le_rfl, ?_, ?_, hgcd⟩
  · simpa [Euclid.init] using hb
  · show n ∣ 0 * a + n.natAbs
    rw [zero_mul, zero_add]
    exact dvd_natAbs_self

/-- Each loop ends with the greatest common divisor and a cofactor of it. -/
theorem loops_spec (consttime : Bool) (a : Int) {n : Int} (hn : n ≠ 0) {fuel fuel' : Nat}
    (hfuel : n.natAbs < fuel) (hfuel' : 2 * n.natAbs < fuel') :
    ∃ st, (if consttime then noBranchLoop fuel (Euclid.init a n)
      else if n.natAbs % 2 = 1 ∧ numBits n ≤ 2048 then binaryLoop n fuel' (Euclid.init a n)
      else generalLoop fuel (Euclid.init a n)) = some st ∧
      (st.sign = 1 ∨ st.sign = -1) ∧ st.A = Int.gcd a n ∧ n ∣ st.sign * st.Y * a - st.A := by
  obtain ⟨_, hlt, _⟩ := @init_spec a n hn
  have hinit := @EuclidInv.init a n hn
  have hA : (Euclid.init a n).A = n.natAbs := rfl
  have hdone : ∀ st, EuclidInv a n (Int.gcd a n) st → st.B = 0 → st.A = Int.gcd a n := by
    intro st h hB
    have hg := h.gcd
    have hlt := h.lt
    rw [hB, gcd_zero_right] at hg
    omega
  split_ifs with _ hodd
  · obtain ⟨st, hrun, h, hB⟩ := @noBranchLoop_spec a n _ fuel _ hinit (by omega)
    exact ⟨st, hrun, h.sign, hdone st h hB, h.a⟩
  · have hgodd : Int.gcd a n % 2 = 1 := by
      rcases Nat.mod_two_eq_zero_or_one (Int.gcd a n) with h | h
      · have htwo := (Nat.dvd_of_mod_eq_zero h).trans (gcd_dvd_natAbs_right a n)
        omega
      · exact h
    obtain ⟨st, hrun, h, hB⟩ := @binaryLoop_spec a n _ hodd.1 hgodd fuel' _
      (BinaryInv.init hn) (by rw [hA]; omega)
    refine ⟨st, hrun, .inr h.sign, ?_, ?_⟩
    · have hg := h.gcd
      have hpos := h.pos
      rw [hB, gcd_zero_right] at hg
      omega
    · obtain ⟨i, hi⟩ := h.a
      rw [h.sign]
      exact ⟨-i, by linear_combination -hi⟩
  · obtain ⟨st, hrun, h, hB⟩ := @generalLoop_spec a n _ fuel _ hinit (by omega)
    exact ⟨st, hrun, h.sign, hdone st h hB, h.a⟩

/-- **Inversion is exact**, with or without `BN_FLG_CONSTTIME`: the loops end, and there is an
inverse exactly if the numbers are coprime. -/
theorem modInverse_spec (consttime : Bool) (a : Int) {n : Int} (hn : 1 < n.natAbs) :
    (Int.gcd a n = 1 → ∃ r, modInverse consttime a n = some (some r) ∧ 0 ≤ r ∧ r < n.natAbs ∧
      n ∣ r * a - 1) ∧ (Int.gcd a n ≠ 1 → modInverse consttime a n = some none) := by
  have hne : n ≠ 0 := by omega
  have hlarge : ¬ (n.natAbs = 1 ∨ n = 0) := by omega
  obtain ⟨st, hrun, hsign, hgcd, hdvd⟩ := loops_spec consttime a hne (Nat.lt_succ_self n.natAbs)
    (Nat.lt_succ_self (2 * n.natAbs))
  obtain ⟨hinv, hno⟩ := inverseOf_spec hne hsign hgcd hdvd
  rw [modInverse, if_neg hlarge]
  dsimp only
  rw [hrun, Option.map_some]
  constructor
  · intro h
    obtain ⟨r, hr, hrest⟩ := hinv h
    exact ⟨r, by rw [hr], hrest⟩
  · intro h
    rw [hno h]

end QuicTls.Bn.Z
