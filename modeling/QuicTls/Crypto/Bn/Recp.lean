import QuicTls.Crypto.Bn.Gcd

/-!
# Division by a cached reciprocal (crypto/bn/bn_recp.c)

The numbers are integers, as in `bn_gcd.c`; a shift to the right divides the magnitude.
-/

namespace QuicTls.Bn.Z

/-- `BN_RECP_CTX`; `shift` is none for the -1 of a failed `BN_reciprocal` -/
structure RecpCtx where
  N : Int
  Nr : Int
  numBits : Nat
  shift : Option Nat

/-- `BN_RECP_CTX_set` -/
def RecpCtx.set (d : Int) : RecpCtx := ⟨d, 0, Z.numBits d, some 0⟩

def reciprocal (m : Int) (len : Nat) : Int := (2 ^ len : Int).tdiv m

/-- The context with a reciprocal for `i` bits. In `failed` is what a `BN_reciprocal` that fails
leaves in `Nr`. -/
def RecpCtx.refresh (recp : RecpCtx) (i : Nat) (failed : Option Int) : RecpCtx :=
  if recp.shift = some i then recp
  else
    match failed with
    | none => { recp with Nr := reciprocal recp.N i, shift := some i }
    | some Nr => { recp with Nr, shift := none }

/-- The first estimate of the quotient, a magnitude. -/
def RecpCtx.estimate (recp : RecpCtx) (m : Int) (i : Nat) : Nat :=
  ((m.tdiv (2 ^ recp.numBits) * recp.Nr).tdiv (2 ^ (i - recp.numBits))).natAbs

/-- The loop that corrects quotient and remainder, which are magnitudes, with the corrections that
are left; none is `BN_R_BAD_RECIPROCAL`. -/
def correctRecp (N : Nat) : Nat → Nat → Nat → Option (Nat × Nat)
  | 0, d, r => if N ≤ r then none else some (d, r)
  | left + 1, d, r => if N ≤ r then correctRecp N left (d + 1) (r - N) else some (d, r)

/-- `BN_div_recp`: the context afterwards, and the quotient and the remainder. -/
def divRecp (recp : RecpCtx) (m : Int) (failed : Option Int) : RecpCtx × Option (Int × Int) :=
  if m.natAbs < recp.N.natAbs then (recp, some (0, m))
  else
    let i := max (numBits m) (2 * recp.numBits)
    let recp := recp.refresh i failed
    if recp.shift = none then (recp, none)
    else
      let d := recp.estimate m i
      let b := recp.N.natAbs * d
      if m.natAbs < b then (recp, none)
      else
        (recp, (correctRecp recp.N.natAbs 3 d (m.natAbs - b)).map fun (d, r) =>
          (if (m < 0 ↔ recp.N < 0) then (d : Int) else -d, if m < 0 then -(r : Int) else r))

end QuicTls.Bn.Z
