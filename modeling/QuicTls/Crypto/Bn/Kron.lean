import QuicTls.Crypto.Bn.Gcd

/-!
# The Kronecker symbol (crypto/bn/bn_kron.c)

The numbers are integers; `BN_lsw` and `BN_is_bit_set` read the magnitude.
-/

namespace QuicTls.Bn.Z

/-- `while (!BN_is_bit_set(a, i)) i++` -/
def lowBit (a : Int) : Nat → Nat → Option Nat
  | 0, _ => none
  | fuel + 1, i => if a.natAbs.testBit i then some i else lowBit a fuel (i + 1)

/-- The entry of `tab` for the least significant word of a number. -/
def kronTab (n : Int) : Int := [0, 1, 0, -1, 0, -1, 0, 1].getD (n.natAbs % 8) 0

/-- The second bit of `A` in two's complement and that of `B`. -/
def kronSign (A B : Int) : Bool := (decide (A < 0) ^^ A.natAbs.testBit 1) && B.natAbs.testBit 1

def kroneckerLoop : Nat → Int → Int → Int → Option Int
  | 0, _, _, _ => none
  | fuel + 1, A, B, ret =>
    if A = 0 then some (if B = 1 then ret else 0)
    else
      match lowBit A (numBits A) 0 with
      | none => none
      | some i =>
        let A := A.tdiv (2 ^ i)
        let ret := if i % 2 = 1 then ret * kronTab B else ret
        let ret := if kronSign A B then -ret else ret
        kroneckerLoop fuel (nnmod B A) A.natAbs ret

def kronecker (a b : Int) : Option Int :=
  if b = 0 then some (if a.natAbs = 1 then 1 else 0)
  else if a.natAbs % 2 = 0 ∧ b.natAbs % 2 = 0 then some 0
  else
    match lowBit b (numBits b) 0 with
    | none => none
    | some i =>
      let B := b.tdiv (2 ^ i)
      let ret := if i % 2 = 1 then kronTab a else 1
      let ret := if B < 0 ∧ a < 0 then -ret else ret
      kroneckerLoop (a.natAbs + 1) a B.natAbs ret

end QuicTls.Bn.Z
