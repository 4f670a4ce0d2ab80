import QuicTls.Crypto.Bn.Prime
import QuicTls.Verify.Bn.Kron

/-!
# The verdicts of the Miller-Rabin test

`Verdict` is what a status says about the number, and `miller_rabin_sound` that it is true.
-/

namespace QuicTls.Bn.Z

variable {w x b a m : Nat}

/-- A square root of one that is not one or minus one. -/
theorem root_of_one (hx : x < w) (h1 : x ≠ 1) (hneg : x ≠ w - 1) (hsq : x * x % w = 1) :
    ¬ w.Prime ∧ Int.gcd (x - 1) w ≠ 1 := by
  have hw : 1 < w := hsq ▸ Nat.mod_lt _ (by omega)
  have hmod : 1 ≡ x * x [MOD w] := by rw [Nat.ModEq, hsq, Nat.mod_eq_of_lt hw]
  have hdvd : (w : Int) ∣ (x - 1) * (x + 1) := by
    have h := Nat.modEq_iff_dvd.1 hmod
    rwa [show ((x * x : Nat) : Int) - (1 : Nat) = (x - 1) * (x + 1) by push_cast; ring] at h
  have hnot : ¬ (w : Int) ∣ x + 1 := fun h => by
    have := Int.le_of_dvd (by omega) h
    omega
  refine ⟨fun hp => ?_, fun hg => hnot ?_⟩
  swap
  · exact (Int.isCoprime_iff_gcd_eq_one.2 hg).symm.dvd_of_dvd_mul_left hdvd
  obtain h | h := (Nat.prime_iff_prime_int.1 hp).dvd_or_dvd hdvd
  · have := Int.eq_zero_of_abs_lt_dvd h (by rw [abs_lt]; omega)
    omega
  · exact hnot h

/-- Fermat's theorem modulo the prime of a prime power. -/
theorem pow_pred_primePow {p k : Nat} (hp : p.Prime) (hb : b.Coprime p) :
    b ^ (p ^ k - 1) ≡ 1 [MOD p] := by
  obtain ⟨c, hc⟩ : p - 1 ∣ p ^ k - 1 := by simpa using Nat.sub_dvd_pow_sub_pow p 1 k
  have hone := Nat.ModEq.pow_totient hb
  rw [Nat.totient_prime hp] at hone
  rw [hc, pow_mul]
  simpa using hone.pow c

/-- At the label `composite`, `x` is a root of one or the power `w - 1` of the base. -/
theorem squarings_spec {n z : Nat} (hz : z < w) (h1 : z ≠ 1) (hneg : z ≠ w - 1)
    (hx : squarings w n z = some x) : x < w ∧ x ≠ 1 ∧
      (x ≠ w - 1 ∧ x * x % w = 1 ∨ x ≡ z ^ 2 ^ (n + 1) [MOD w]) := by
  have hmod (k : Nat) : k % w < w := Nat.mod_lt _ (by omega)
  fun_induction squarings w n z with
  | case1 =>
    rw [Option.some.injEq] at hx
    split at hx <;> rename_i hsq <;> subst hx
    · exact ⟨hz, h1, .inl ⟨hneg, hsq⟩⟩
    · exact ⟨hmod _, hsq, .inr (by rw [pow_one, pow_two]; exact Nat.mod_modEq _ _)⟩
  | case2 => cases hx
  | case3 n z _ _ hsq =>
    cases hx
    exact ⟨hz, h1, .inl ⟨hneg, hsq⟩⟩
  | case4 n z _ hneg' h1' ih =>
    obtain ⟨hxlt, hx1, hroot | hpow⟩ := ih (hmod _) h1' hneg' hx
    · exact ⟨hxlt, hx1, .inl hroot⟩
    · refine ⟨hxlt, hx1, .inr (hpow.trans ?_)⟩
      rw [pow_succ' 2 (n + 1), pow_mul, pow_two]
      exact (Nat.mod_modEq _ _).pow _

/-- What the results say about `w`. -/
structure Verdict (w : Nat) (r : PrimeTest × Nat) : Prop where
  prime : w.Prime → r.1 = .probablyPrime
  factor : r.1 = .compositeWithFactor → 1 < r.2 ∧ r.2 < w ∧ r.2 ∣ w
  power : r.1 = .compositeNotPowerOfPrime → ¬ IsPrimePow w

theorem verdict_probablyPrime (g : Nat) : Verdict w (.probablyPrime, g) :=
  ⟨fun _ => rfl, by rintro ⟨⟩, by rintro ⟨⟩⟩

/-- The base and `w` have a factor in common. -/
theorem verdict_gcd (hb : b + 1 < w) (hpos : 0 < b) (hg : b.gcd w ≠ 1) :
    Verdict w (.compositeWithFactor, b.gcd w) := by
  refine ⟨fun hp => absurd (Nat.coprime_of_lt_prime hpos.ne' (by omega) hp).symm hg,
    fun _ => ⟨?_, ?_, Nat.gcd_dvd_right ..⟩, by rintro ⟨⟩⟩
  · have := Nat.gcd_pos_of_pos_left w hpos
    omega
  · have := Nat.gcd_le_left w hpos
    omega

/-- The number that reaches the label `composite` is not prime, and what its greatest common divisor
with `w` says. -/
theorem composite_spec (hw : 2 ^ a * m = w - 1) (ha : 0 < a) (hb : b + 1 < w) (hpos : 0 < b)
    (h1 : b ^ m % w ≠ 1) (hneg : b ^ m % w ≠ w - 1)
    (hx : squarings w (a - 1) (b ^ m % w) = some x) :
    ¬ w.Prime ∧ (Int.gcd (x - 1) w ≠ 1 →
        1 < Int.gcd (x - 1) w ∧ Int.gcd (x - 1) w < w ∧ Int.gcd (x - 1) w ∣ w) ∧
      (b.Coprime w → Int.gcd (x - 1) w = 1 → ¬ IsPrimePow w) := by
  obtain ⟨hlt, hx1, hcases⟩ := squarings_spec (Nat.mod_lt _ (by omega)) h1 hneg hx
  have hgcd : 0 < Int.gcd (x - 1) w ∧ Int.gcd (x - 1) w < w := by
    refine ⟨Int.gcd_pos_of_ne_zero_right _ (by omega), ?_⟩
    have := Nat.le_of_dvd (Int.natAbs_pos.2 (by omega))
      (Int.natCast_dvd.1 (Int.gcd_dvd_left (x - 1 : Int) w))
    omega
  have hfactor : Int.gcd (x - 1) w ≠ 1 →
      1 < Int.gcd (x - 1) w ∧ Int.gcd (x - 1) w < w ∧ Int.gcd (x - 1) w ∣ w := fun hg =>
    ⟨by omega, hgcd.2, Int.natCast_dvd_natCast.1 (Int.gcd_dvd_right ..)⟩
  obtain ⟨hneg', hsq⟩ | hpow := hcases
  · obtain ⟨hprime, hg⟩ := root_of_one hlt hx1 hneg' hsq
    exact ⟨hprime, hfactor, fun _ hone => absurd hone hg⟩
  -- `x` is the power `w - 1` of the base
  rw [Nat.sub_add_cancel ha] at hpow
  have hfermat : x ≡ b ^ (w - 1) [MOD w] := by
    refine hpow.trans (((Nat.mod_modEq _ _).pow _).trans ?_)
    rw [← hw, Nat.mul_comm, pow_mul]
  have hdvd {p k : Nat} (hp : p.Prime) (hbp : b.Coprime p) (hpk : p ^ k = w) (hk : 0 < k) :
      (p : Int) ∣ x - 1 := by
    have h := (hfermat.of_dvd (hpk ▸ dvd_pow_self p hk.ne')).trans
      (hpk ▸ pow_pred_primePow hp hbp)
    simpa using Nat.modEq_iff_dvd.1 h.symm
  refine ⟨fun hp => ?_, hfactor, fun hcop hone hprimePow => ?_⟩
  · have h := hdvd hp (Nat.coprime_of_lt_prime hpos.ne' (by omega) hp).symm (pow_one w) one_pos
    have := Int.eq_zero_of_abs_lt_dvd h (by rw [abs_lt]; omega)
    omega
  obtain ⟨p, k, hp, hk, hpk⟩ := (isPrimePow_nat_iff w).1 hprimePow
  have hpw : p ∣ w := hpk ▸ dvd_pow_self p hk.ne'
  have h := Int.dvd_coe_gcd (hdvd hp (hcop.coprime_dvd_right hpw) hpk hk)
    (Int.natCast_dvd_natCast.2 hpw)
  rw [hone] at h
  exact hp.one_lt.ne' (Nat.dvd_one.1 (Int.natCast_dvd_natCast.1 h))

section MillerRabin

variable {draw : Nat → Option Nat} {cb : Nat → Bool} {enhanced : Bool} {left i g : Nat}

/-- What the result of the rounds says about the number. -/
theorem millerRabinLoop_verdict (hw : 2 ^ a * m = w - 1) (ha : 0 < a)
    (hdraw : ∀ i, ∀ r ∈ draw i, r + 3 < w) {r : PrimeTest × Nat}
    (hr : millerRabinLoop draw cb enhanced w a m left i g = some r) : Verdict w r := by
  fun_induction millerRabinLoop draw cb enhanced w a m left i g with
  | case1 _ g =>
    cases hr
    exact verdict_probablyPrime g
  | case2 => cases hr
  | case3 _ i _ c hd b g' hne =>
    have hb := hdraw i c hd
    have hg : g' = b.gcd w := if_pos hne.1
    cases hr
    exact hg ▸ verdict_gcd (by omega) (by omega) (hg ▸ hne.2)
  | case4 _ _ _ _ _ _ _ _ next _ _ ih | case5 _ _ _ _ _ _ _ _ next _ _ _ ih =>
    unfold next at hr
    split at hr
    · exact ih hr
    · cases hr
  | case6 _ i _ c hd b g' hone z hz x hx henh d =>
    have hb := hdraw i c hd
    rw [not_or] at hz
    obtain ⟨hprime, hfactor, hpower⟩ := composite_spec hw ha (by omega) (by omega) hz.1 hz.2 hx
    have hg : g' = b.gcd w := if_pos henh
    cases hr
    refine ⟨fun hp => absurd hp hprime, fun hs => hfactor ?_, fun hs => hpower ?_ ?_⟩
    · simpa [d] using hs
    · exact hg.symm.trans (not_not.1 fun hne => hone ⟨henh, hne⟩)
    · simpa [d] using hs
  | case7 _ i _ c hd b _ _ z hz x hx =>
    have hb := hdraw i c hd
    rw [not_or] at hz
    cases hr
    exact ⟨fun hp => absurd hp (composite_spec hw ha (by omega) (by omega) hz.1 hz.2 hx).1, nofun,
      nofun⟩

theorem isSome_millerRabinLoop (hdraw : ∀ i, (draw i).isSome) (hcb : ∀ i, cb i = true) :
    (millerRabinLoop draw cb enhanced w a m left i g).isSome := by
  induction left generalizing i g with
  | zero => rfl
  | succ left ih =>
    obtain ⟨c, hc⟩ := Option.isSome_iff_exists.1 (hdraw i)
    rw [millerRabinLoop, hc]
    dsimp only
    rw [if_pos (hcb i)]
    repeat' split
    all_goals first | exact ih | rfl

/-- With bases between two and `w - 2`, a prime is reported as probably prime unless a draw fails or
the callback stops the test, a factor that is reported is one, and a number reported as no power of
a prime is none. -/
theorem miller_rabin_sound (hodd : w % 2 = 1) (hw : 3 < w) (iterations : Int)
    (hdraw : ∀ i, ∀ r ∈ draw i, r < w - 3) :
    (w.Prime → ∀ s g, millerRabinIsPrime draw cb enhanced w iterations = some (s, g) →
      s = .probablyPrime) ∧
    ((∀ i, (draw i).isSome) → (∀ i, cb i = true) →
      (millerRabinIsPrime draw cb enhanced w iterations).isSome) ∧
    (∀ g, millerRabinIsPrime draw cb enhanced w iterations = some (.compositeWithFactor, g) →
      1 < g ∧ g < w ∧ g ∣ w) ∧
    ∀ g, millerRabinIsPrime draw cb enhanced w iterations = some (.compositeNotPowerOfPrime, g) →
      ¬ IsPrimePow w := by
  have heven : (w : Int) - 1 = 2 ^ 1 * ((w - 1) / 2) := by omega
  have hlow : ∃ a d, lowBit (w - 1) (numBits (w - 1)) 1 = some a ∧ Odd d ∧
      (w : Int) - 1 = 2 ^ a * d :=
    lowBit_spec heven (by omega) (lt_of_le_of_lt (by omega) (Nat.lt_size_self _))
  obtain ⟨a, d, hlow, ⟨e, rfl⟩, hw1⟩ := hlow
  have ha : 0 < a := by
    by_contra h0
    rw [Nat.eq_zero_of_not_pos h0] at hw1
    omega
  have hm : 2 ^ a * (((w : Int) - 1).natAbs / 2 ^ a) = w - 1 := by
    rw [Nat.mul_div_cancel']
    · omega
    · rw [hw1, Int.natAbs_mul]
      exact Nat.dvd_mul_right ..
  have hverdict : ∀ r, millerRabinIsPrime draw cb enhanced w iterations = some r → Verdict w r := by
    intro r hr
    rw [millerRabinIsPrime, if_neg (by omega), if_neg (by omega), hlow] at hr
    exact millerRabinLoop_verdict hm ha (fun i r hr => by have := hdraw i r hr; omega) hr
  refine ⟨fun hp s g hs => (hverdict _ hs).prime hp, fun hsome hcb => ?_,
    fun g hg => (hverdict _ hg).factor rfl, fun g hg => (hverdict _ hg).power rfl⟩
  rw [millerRabinIsPrime, if_neg (by omega), if_neg (by omega), hlow]
  exact isSome_millerRabinLoop hsome hcb

/-- The base two shows no factor of thirty-five, but that it is no power of a prime. -/
theorem miller_rabin_sound_thirtyfive :
    millerRabinIsPrime (fun _ => some 0) (fun _ => true) true 35 1 =
      some (.compositeNotPowerOfPrime, 1) ∧ ¬ IsPrimePow 35 := by
  have heval : millerRabinIsPrime (fun _ => some 0) (fun _ => true) true 35 1 =
      some (.compositeNotPowerOfPrime, 1) := by decide +kernel
  exact ⟨heval, (miller_rabin_sound rfl (by decide) 1 (by simp)).2.2.2 1 heval⟩

end MillerRabin

end QuicTls.Bn.Z
