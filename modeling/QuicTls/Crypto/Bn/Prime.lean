import QuicTls.Crypto.Bn.Kron

/-!
# Primality tests (crypto/bn/bn_prime.c)

The numbers are integers. `draw i` is what the `i`th call of `BN_priv_rand_range_ex` returns, `cb i`
what the `i`th call of the callback does.
-/

namespace QuicTls.Bn.Z

/-- The values of `status`. -/
inductive PrimeTest where
  | composite
  | compositeWithFactor
  | compositeNotPowerOfPrime
  | probablyPrime
  deriving DecidableEq, Repr

def mrMinChecks (bits : Nat) : Nat := if bits > 2048 then 128 else 64

/-- The steps 4.7 to 4.11 with `n` rounds of the inner loop left: `x` at the label `composite`, or
nothing where they go on with the next base. -/
def squarings (w : Nat) : Nat → Nat → Option Nat
  | 0, x =>
    let z := x * x % w
    some (if z = 1 then x else z)
  | n + 1, x =>
    let z := x * x % w
    if z = w - 1 then none
    else if z = 1 then some x
    else squarings w n z

section MillerRabin

variable (draw : Nat → Option Nat) (cb : Nat → Bool) (enhanced : Bool)

/-- The loop over the bases, with `g`. -/
def millerRabinLoop (w a m : Nat) : Nat → Nat → Nat → Option (PrimeTest × Nat)
  | 0, _, g => some (.probablyPrime, g)
  | left + 1, i, g =>
    match draw i with
    | none => none
    | some r =>
      let b := r + 2
      let g := if enhanced then b.gcd w else g
      if enhanced ∧ g ≠ 1 then some (.compositeWithFactor, g)
      else
        let next := if cb i then millerRabinLoop w a m left (i + 1) g else none
        let z := b ^ m % w
        if z = 1 ∨ z = w - 1 then next
        else
          match squarings w (a - 1) z with
          | none => next
          | some x =>
            if enhanced then
              let g := Int.gcd (x - 1) w
              some (if g = 1 then .compositeNotPowerOfPrime else .compositeWithFactor, g)
            else some (.composite, g)

/-- `ossl_bn_miller_rabin_is_prime`: the status and `g` if it returns 1 -/
def millerRabinIsPrime (w iterations : Int) : Option (PrimeTest × Nat) :=
  let w1 := w - 1
  if w.natAbs % 2 = 0 then none
  else if w - 3 ≤ 0 then none
  else
    match lowBit w1 (numBits w1) 1 with
    | none => none
    | some a =>
      let iterations := if iterations = 0 then mrMinChecks (numBits w) else iterations.toNat
      millerRabinLoop draw cb enhanced w.natAbs a (w1.natAbs / 2 ^ a) iterations 0 0

end MillerRabin

end QuicTls.Bn.Z
