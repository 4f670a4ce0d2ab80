import QuicTls.Verify.Bn.Divstep
import QuicTls.Verify.Bn.Inverse
import QuicTls.Verify.Bn.Mul

/-!
# The functions on numbers agree

What `BN_div` takes apart `BN_mul` and `BN_add` put together (`bn_div_mul_add_restores`), and
`BN_gcd` and `BN_mod_inverse` agree on what is coprime (`bn_gcd_one_iff_inverse`).
-/

namespace QuicTls.Bn

open Limbs Bignum Int

variable {w : Nat} {ι : Type} [DecidableEq ι] {σ : ι → Bignum w}

/-- Also when the quotient or the remainder overwrites the dividend: `BN_mul` and `BN_add` give it
back, word for word. -/
theorem bn_div_mul_add_restores (hw : WordSize w) (llong : Bool) {q r a d : ι} (hqr : q ≠ r)
    (hdq : d ≠ q) (hdr : d ≠ r) (ha : (σ a).Normal) (hd : (σ d).Normal) (hne : (σ d).toInt ≠ 0)
    (hsize : (σ a).top < 2 ^ w ∧ (σ d).top < 2 ^ w) :
    ∃ σ₁ σ₂, bnDiv llong (some q) (some r) a d σ = some σ₁ ∧ bnMul q q d σ₁ = some σ₂ ∧
      bnAdd (σ₂ q) (σ₂ r) = some (σ a) := by
  have hdne : (σ d).d ≠ [] := fun hnil => hne (by simp [toInt, Bignum.toNat, hnil])
  obtain ⟨res, hres, hq, hr, -⟩ := bnDivFixedTop_spec hw llong (σ a) hdne hd.last
  -- the quotient has no more words than the dividend
  have hquot : (bnCorrectTop res.dv).toNat ≤ (σ a).toNat := by
    rw [toNat_bnCorrectTop, ← natAbs_toInt, ← natAbs_toInt, hq, natAbs_tdiv]
    exact Nat.div_le_self ..
  have htop := (normal_bnCorrectTop res.dv).top_le (Nat.lt_of_le_of_lt hquot (val_lt (σ a).d))
  obtain ⟨p, hp, hprod, -⟩ := bnMulFixedTop_spec hw (Nat.lt_of_le_of_lt htop hsize.1) hsize.2
  obtain ⟨c, hc, hcn, hsum⟩ := bnAdd_spec hw.pos (normal_bnCorrectTop p)
    (normal_bnCorrectTop res.rm)
  have hca : c = σ a := by
    refine hcn.eq_of_toInt hw.pos ha ?_
    rw [hsum, toInt_bnCorrectTop, toInt_bnCorrectTop, hprod, toInt_bnCorrectTop, hq, hr]
    exact tdiv_mul_add_tmod ..
  let σ₁ := store (some r) (bnCorrectTop res.rm) (store (some q) (bnCorrectTop res.dv) σ)
  have hσq : σ₁ q = bnCorrectTop res.dv := (store_of_ne hqr ..).trans (store_self ..)
  have hσd : σ₁ d = σ d := (store_of_ne hdr ..).trans (store_of_ne hdq ..)
  refine ⟨σ₁, store (some q) (bnCorrectTop p) σ₁, ?_, ?_, ?_⟩
  · rw [bnDiv, if_neg (by simpa [isZero, top] using hdne), if_neg, hres]
    rw [getLastD_eq hdne]
    exact hd.getLast_ne hdne
  · rw [bnMul, hσq, hσd, hp]
    rfl
  · rw [store_self, store_of_ne hqr.symm, show σ₁ r = _ from store_self .., hc, hca]

theorem bn_div_mul_add_restores_in_place :
    let σ : Fin 3 → Bignum 32 := fun v => if v = 0 then ⟨[7#32, 5#32], true⟩ else ⟨[3#32], false⟩
    ∃ σ₁ σ₂, bnDiv true (some 0) (some 2) 0 1 σ = some σ₁ ∧ bnMul 0 0 1 σ₁ = some σ₂ ∧
      bnAdd (σ₂ 0) (σ₂ 2) = some (σ 0) := by
  exact bn_div_mul_add_restores ⟨by decide, by decide⟩ true (by decide) (by decide) (by decide)
    (by decide) (by decide) (by decide) (by decide)

/-- For a modulus other than 0, 1 and -1: `BN_gcd` finds one exactly when `BN_mod_inverse` finds an
inverse, on each of its paths. -/
theorem bn_gcd_one_iff_inverse (hw : WordSize w) {r a n : ι} (spare : Gcd.Spare w)
    (ha : (σ a).Normal) (hn : (σ n).Normal) (hn1 : 1 < (σ n).toNat)
    {Obj : Type} [DecidableEq Obj] {ptr : Inverse.Var → Obj} (hinj : Function.Injective ptr)
    (mem : Obj → Int) (aConst nConst : Bool) {fuel : Nat} (hfuel : 2 * (σ n).toNat < fuel) :
    ∃ σ', bnGcd r a n spare σ = some σ' ∧ ((σ' r).toInt = 1 ↔
      ∃ x, Inverse.intBnModInverse fuel ptr mem aConst nConst (σ a).toInt (σ n).toInt =
        some (some x, false)) := by
  rw [← natAbs_toInt] at hn1 hfuel
  have hne : (σ n).toInt ≠ 0 := by omega
  have hlarge : ¬((σ n).toInt.natAbs = 1 ∨ (σ n).toInt = 0) := by omega
  obtain ⟨σ', hgcd, -, hval, -⟩ := bnGcd_spec hw r a n spare ha hn
  obtain ⟨st, hrun, hsign, hA, hdvd⟩ := Z.loops_spec (aConst || nConst) (σ a).toInt hne
    (show _ < fuel by omega) hfuel
  obtain ⟨hinv, hno⟩ := Z.inverseOf_spec hne hsign hA hdvd
  refine ⟨σ', hgcd, ?_⟩
  rw [hval, Inverse.intBnModInverse_eq hinj fuel mem aConst nConst hlarge, hrun]
  by_cases hone : Int.gcd (σ a).toInt (σ n).toInt = 1
  · obtain ⟨x, hx, -⟩ := hinv hone
    simp [hone, hx]
  · simpa [hno hone] using hone

theorem bn_gcd_one_iff_inverse_negative :
    let σ : Bool → Bignum 16 := fun v => if v then ⟨[21#16], false⟩ else ⟨[8#16], true⟩
    ∃ σ', bnGcd true false true ⟨[], [], []⟩ σ = some σ' ∧ ((σ' true).toInt = 1 ↔
      ∃ x, Inverse.intBnModInverse 43 (id : Inverse.Var → _) (fun _ => 0) false false (-8) 21 =
        some (some x, false)) := by
  intro σ
  exact @bn_gcd_one_iff_inverse 16 Bool _ σ ⟨by decide, by decide⟩ true false true ⟨[], [], []⟩
    (by decide) (by decide) (by decide) _ _ id (fun _ _ h => h) (fun _ => 0) false false 43
    (by decide)

end QuicTls.Bn
