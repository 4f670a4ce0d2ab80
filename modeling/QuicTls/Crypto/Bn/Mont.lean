import QuicTls.Crypto.Bn.Gcd
import QuicTls.Crypto.Bn.Mul

/-!
# Montgomery multiplication (crypto/bn/bn_mont.c)

The C path of a build with `MONT_WORD` and without `OPENSSL_BN_ASM_MONT`. `Ni` and the second word
of `n0` are not used in it.
-/

namespace QuicTls.Bn

variable {w : Nat}

structure MontCtx (w : Nat) where
  /-- number of bits in `R` -/
  ri : Nat
  /-- used to convert to Montgomery form -/
  RR : Bignum w
  /-- the modulus -/
  N : Bignum w
  /-- the lowest word of `-1/N` -/
  n0 : Word w
  deriving DecidableEq

/-- `Ni = (R*Ri-1)/N`, from the lowest word of the modulus -/
def montN0 (consttime : Bool) (buf0 : Word w) : Option (Word w) :=
  let tmod : Int := buf0.toNat
  let Ri : Option Int :=
    if tmod = 1 then some 0
    else
      match Z.modInverse consttime (2 ^ w) tmod with
      | some Ri => Ri
      | none => none
  Ri.map fun Ri =>
    let Ri := Ri * 2 ^ w
    -- `BN_sub_word(Ri, 1)`, or `BN_MASK2` if N mod word size == 1
    let Ri := if Ri ≠ 0 then Ri - 1 else 2 ^ w - 1
    BitVec.ofNat w (Ri.tdiv tmod).natAbs

def bnMod (llong : Bool) (m d : Bignum w) : Option (Bignum w) :=
  if d.isZero then none
  else if d.d.getLastD 0#w = 0#w then none
  else (bnDivFixedTop llong m d).map fun r => bnCorrectTop r.rm

/-- Zero words on top of a number, up to a length. -/
def padTo (n : Nat) (a : Bignum w) : Bignum w :=
  { a with d := a.d ++ List.replicate (n - a.top) 0#w }

def bnMontCtxSet (llong consttime : Bool) (mod : Bignum w) : Option (MontCtx w) :=
  if mod.isZero then none
  else
    let N := { mod with neg := false }
    let ri := (bnNumBits mod + (w - 1)) / w * w
    match montN0 consttime (mod.d.headD 0#w) with
    | none => none
    | some n0 => (bnMod llong (bnSetBit (ri * 2)) N).map fun RR => ⟨ri, padTo N.top RR, N, n0⟩

/-- One round of the reduction on the words from `rp` on: the words from the next one on, and the
carry. -/
def montStep (np : Words w) (n0 : Word w) (rp : Words w) (carry : Word w) : Words w × Word w :=
  let nl := np.length
  let (lo, v) := bnMulAddWords (rp.take nl) np (rp.headD 0#w * n0)
  let old := rp.getD nl 0#w
  let v := v + carry + old
  ((lo ++ v :: rp.drop (nl + 1)).tail, (carry ||| bit (v ≠ old)) &&& bit (v ≤ old))

def montLoop (np : Words w) (n0 : Word w) : Nat → Words w → Word w → Words w × Word w
  | 0, rp, carry => (rp, carry)
  | i + 1, rp, carry =>
    let (rp, carry) := montStep np n0 rp carry
    montLoop np n0 i rp carry

/-- The final subtraction, which is undone with masks if it underflowed. -/
def montFinal (np ap : Words w) (carry : Word w) : Words w :=
  let (rp, borrow) := bnSubWords ap np
  let carry := carry - borrow
  List.zipWith (fun a r => carry &&& a ||| ~~~carry &&& r) ap rp

/-- `bn_from_montgomery_word`; a context that has been set has a modulus of at least one word -/
def bnFromMontgomeryWord (r : Bignum w) (mont : MontCtx w) : Bignum w :=
  let np := mont.N.d
  let nl := np.length
  if nl = 0 then .zero
  else
    let max := 2 * nl
    let (ap, carry) := montLoop np mont.n0 nl ((padTo max r).d.take max) 0#w
    ⟨montFinal np ap carry, r.neg ^^ mont.N.neg⟩

/-- `bn_mul_mont_fixed_top`; `same` says that the operands are the same pointer -/
def bnMulMontFixedTop (same : Bool) (a b : Bignum w) (mont : MontCtx w) : Option (Bignum w) :=
  if a.top + b.top > 2 * mont.N.top then none
  else
    (if same then bnSqrFixedTop a else bnMulFixedTop a b).map fun tmp =>
      bnFromMontgomeryWord tmp mont

def bnToMontFixedTop (a : Bignum w) (mont : MontCtx w) : Option (Bignum w) :=
  bnMulMontFixedTop false a mont.RR mont

def bnFromMontFixedTop (a : Bignum w) (mont : MontCtx w) : Bignum w := bnFromMontgomeryWord a mont

def bnToMontgomery (a : Bignum w) (mont : MontCtx w) : Option (Bignum w) :=
  (bnToMontFixedTop a mont).map bnCorrectTop

def bnFromMontgomery (a : Bignum w) (mont : MontCtx w) : Bignum w :=
  bnCorrectTop (bnFromMontFixedTop a mont)

/-- `BN_mod_mul_montgomery` on variables: the product is reduced into `r` last, which may be an
operand -/
def bnModMulMontgomery {ι : Type} [DecidableEq ι] (r a b : ι) (mont : MontCtx w)
    (σ : ι → Bignum w) : Option (ι → Bignum w) :=
  (bnMulMontFixedTop (a == b) (σ a) (σ b) mont).map fun v => store (some r) (bnCorrectTop v) σ

end QuicTls.Bn
