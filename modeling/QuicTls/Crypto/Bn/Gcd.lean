import Mathlib.Algebra.Order.Ring.Int
import Mathlib.Data.Nat.Size

/-!
# Modular inversion (crypto/bn/bn_gcd.c, bn_mod.c)

The numbers here are integers: the functions only call the arithmetic of `bn_add.c`, `bn_mul.c`,
`bn_shift.c` and `bn_div.c`. Loops have fuel; the outer `none` is a loop that has not ended.
-/

namespace QuicTls.Bn.Z

def numBits (a : Int) : Nat := a.natAbs.size

def nnmod (m d : Int) : Int :=
  let r := m.tmod d
  if r < 0 then if d < 0 then r - d else r + d else r

/-- The variables of the inversion algorithms. -/
structure Euclid where
  A : Int
  B : Int
  X : Int
  Y : Int
  sign : Int

/-- The variables before the loop, for a nonzero `n`. -/
def Euclid.init (a n : Int) : Euclid :=
  let A : Int := n.natAbs
  { A := A, B := if a < 0 ∨ a.natAbs ≥ A.natAbs then nnmod a A else a, X := 1, Y := 0, sign := -1 }

/-- The loop of `bn_mod_inverse_no_branch`. -/
def noBranchLoop : Nat → Euclid → Option Euclid
  | 0, _ => none
  | fuel + 1, st =>
    if st.B = 0 then some st
    else
      let D := st.A.tdiv st.B
      let M := st.A.tmod st.B
      noBranchLoop fuel { A := st.B, B := M, X := D * st.X + st.Y, Y := st.X, sign := -st.sign }

/-- `(D, M) := (A/B, A%B)` of the general algorithm, without a division for small quotients. -/
def quotRem (A B : Int) : Int × Int :=
  if numBits A = numBits B then (1, A - B)
  else if numBits A = numBits B + 1 then
    let T := 2 * B
    if A.natAbs < T.natAbs then (1, A - B)
    else
      let M := A - T
      let D := T + B
      if A.natAbs < D.natAbs then (2, M) else (3, M - B)
  else (A.tdiv B, A.tmod B)

/-- `tmp := D*X+Y`; the last product is that of `BN_mul_word` if `D` has one word -/
def mulAdd (D X Y : Int) : Int :=
  if D = 1 then X + Y
  else (if D = 2 then 2 * X else if D = 4 then X * 2 ^ 2 else D * X) + Y

/-- The loop of the general inversion algorithm. -/
def generalLoop : Nat → Euclid → Option Euclid
  | 0, _ => none
  | fuel + 1, st =>
    if st.B = 0 then some st
    else
      let (D, M) := quotRem st.A st.B
      generalLoop fuel { A := st.B, B := M, X := mulAdd D st.X st.Y, Y := st.X, sign := -st.sign }

/-- The inner loops of the binary algorithm: `shift` bits of `B` are zero, and `X` is halved modulo
`n` for each of them. -/
def halvings (n B : Int) : Nat → Nat → Int → Option (Nat × Int)
  | 0, _, _ => none
  | fuel + 1, shift, X =>
    if B.natAbs.testBit shift then some (shift, X)
    else
      let X : Int := if X.natAbs % 2 = 1 then X.natAbs + n.natAbs else X
      halvings n B fuel (shift + 1) (X.tdiv 2)

/-- The binary inversion algorithm, for an odd modulus. -/
def binaryLoop (n : Int) : Nat → Euclid → Option Euclid
  | 0, _ => none
  | fuel + 1, st =>
    if st.B = 0 then some st
    else
      match halvings n st.B (numBits st.B) 0 st.X, halvings n st.A (numBits st.A) 0 st.Y with
      | some (sb, X), some (sa, Y) =>
        let B := st.B.tdiv (2 ^ sb)
        let A := st.A.tdiv (2 ^ sa)
        if B.natAbs ≥ A.natAbs then
          binaryLoop n fuel
            { A, B := B.natAbs - A.natAbs, X := X.natAbs + Y.natAbs, Y, sign := st.sign }
        else
          binaryLoop n fuel
            { A := A.natAbs - B.natAbs, B, X, Y := Y.natAbs + X.natAbs, sign := st.sign }
      | _, _ => none

/-- After the loops: the inverse, or `none` for `*pnoinv = 1`. -/
def inverseOf (n : Int) (st : Euclid) : Option Int :=
  let Y := if st.sign < 0 then n - st.Y else st.Y
  if st.A = 1 then some (if 0 ≤ Y ∧ Y.natAbs < n.natAbs then Y else nnmod Y n) else none

/-- `int_bn_mod_inverse`, with the flag `BN_FLG_CONSTTIME` of an operand -/
def modInverse (consttime : Bool) (a n : Int) : Option (Option Int) :=
  if n.natAbs = 1 ∨ n = 0 then some none
  else
    let st := Euclid.init a n
    let st :=
      if consttime then noBranchLoop (n.natAbs + 1) st
      else if n.natAbs % 2 = 1 ∧ numBits n ≤ 2048 then binaryLoop n (2 * n.natAbs + 1) st
      else generalLoop (n.natAbs + 1) st
    st.map (inverseOf n)

end QuicTls.Bn.Z
