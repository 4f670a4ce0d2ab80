import Mathlib.Algebra.Order.Ring.Int
import QuicTls.Crypto.Bn.Lib

/-!
# Long division (crypto/bn/bn_div.c)

A failing `assert` makes the result `none`. The variables of the caller are a map from names to
numbers, so that results may have the name of an operand.
-/

namespace QuicTls.Bn

variable {w : Nat}

/-- `bn_left_align`: the aligned words and the shift -/
def bnLeftAlign (d : Words w) : Words w × Nat :=
  let bits := bnNumBitsWord (d.getLastD 0#w)
  let lshift := w - bits
  ((lshiftLoop lshift (bits % w) 0#w d).1, lshift)

/-- The correction loop with a double word `t2`. -/
def correctLL (n2 d0 d1 : Word w) : Nat → Word w → Word w → DWord w → Word w
  | 0, q, _, _ => q
  | fuel + 1, q, rem, t2 =>
    if t2 ≤ rem.toDWord <<< w ||| n2.toDWord then q
    else
      let rem' := rem + d0
      -- don't let rem overflow
      if rem' < d0 then q - 1#w else correctLL n2 d0 d1 fuel (q - 1#w) rem' (t2 - d1.toDWord)

/-- The correction loop with two words `t2h` and `t2l`. -/
def correctHL (n2 d0 d1 : Word w) : Nat → Word w → Word w → Word w → Word w → Word w
  | 0, q, _, _, _ => q
  | fuel + 1, q, rem, t2h, t2l =>
    if t2h < rem ∨ t2h = rem ∧ t2l ≤ n2 then q
    else
      let rem' := rem + d0
      if rem' < d0 then q - 1#w
      else
        correctHL n2 d0 d1 fuel (q - 1#w) rem' (if t2l < d1 then t2h - 1#w else t2h) (t2l - d1)

/-- The quotient word estimated from the top words, in a build with `BN_LLONG` or without. The
loops end because every round but the last adds `d0` to a word. -/
def quotientEstimate (llong : Bool) (n0 n1 n2 d0 d1 : Word w) : Word w :=
  if n0 = d0 then BitVec.allOnes w
  else
    let q := bnDivWords n0 n1 d0
    let rem := n1 - q * d0
    let t2 := d1.toDWord * q.toDWord
    if llong then correctLL n2 d0 d1 (2 ^ w) q rem t2
    else correctHL n2 d0 d1 (2 ^ w) q rem (hw t2) (lw t2)

/-- The estimate for a window of the dividend, one word longer than the divisor. -/
def windowEstimate (llong : Bool) (window sdiv : Words w) : Word w :=
  let divN := sdiv.length
  let d0 := sdiv.getD (divN - 1) 0#w
  let d1 := if divN = 1 then 0#w else sdiv.getD (divN - 2) 0#w
  let n2 := if divN = 1 then 0#w else window.getD (divN - 2) 0#w
  quotientEstimate llong (window.getD divN 0#w) (window.getD (divN - 1) 0#w) n2 d0 d1

/-- The body of the loop on its window: the quotient word and the window afterwards. -/
def divWindow (llong : Bool) (window sdiv : Words w) : Option (Word w × Words w) :=
  let divN := sdiv.length
  let q := windowEstimate llong window sdiv
  let (tmp, l0) := bnMulWords sdiv q
  let (wnum, l0) := bnSubWords window (tmp ++ [l0])
  let q := q - l0
  let (lo, c) := bnAddWords (wnum.take divN) (sdiv.map (· &&& (0#w - l0)))
  let wnumtop := wnum.getD divN 0#w + c
  if wnumtop = 0#w then some (q, lo ++ [wnumtop]) else none

/-- The window of the dividend at a position. -/
def windowAt (sdiv snum : Words w) (k : Nat) : Words w :=
  (snum.drop k).take (sdiv.length + 1)

/-- The state of the division loop, with a ghost record of the windows and their estimates. -/
structure DivState (w : Nat) where
  snum : Words w
  res : Words w
  estimates : List (Words w × Word w)

/-- The division loop; `k` words of the quotient are still to be found. -/
def divLoop (llong : Bool) (sdiv : Words w) : Nat → DivState w → Option (DivState w)
  | 0, st => some st
  | k + 1, st =>
    let window := windowAt sdiv st.snum k
    match divWindow llong window sdiv with
    | none => none
    | some (q, window') =>
      divLoop llong sdiv k
        { snum := st.snum.take k ++ window' ++ st.snum.drop (k + (sdiv.length + 1))
          res := q :: st.res
          estimates := st.estimates ++ [(window, windowEstimate llong window sdiv)] }

/-- The quotient and remainder of `bn_div_fixed_top`, with the aligned divisor and the record of
the loop. -/
structure DivResult (w : Nat) where
  dv : Bignum w
  rm : Bignum w
  sdiv : Words w
  estimates : List (Words w × Word w)

/-- `bn_div_fixed_top`, from the values of its operands: they are only read before a result is
written -/
def bnDivFixedTop (llong : Bool) (num divisor : Bignum w) : Option (DivResult w) :=
  let (sdiv, normShift) := bnLeftAlign divisor.d
  let snum := (bnLshiftFixedTop num normShift).d
  let divN := sdiv.length
  let snum :=
    if snum.length ≤ divN then snum ++ List.replicate (divN - snum.length + 1) 0#w else snum
  let loop := snum.length - divN
  match divLoop llong sdiv loop ⟨snum, [], []⟩ with
  | none => none
  | some st =>
    some
      { dv := ⟨st.res, num.neg ^^ divisor.neg⟩
        rm := bnRshiftFixedTop ⟨st.snum.take divN, num.neg⟩ normShift
        sdiv := sdiv
        estimates := st.estimates }

/-- Storing a result, unless its pointer is NULL. -/
def store {ι : Type} [DecidableEq ι] (v : Option ι) (a : Bignum w) (σ : ι → Bignum w) :
    ι → Bignum w :=
  match v with
  | none => σ
  | some v => fun x => if x = v then a else σ x

/-- `BN_div` on variables -/
def bnDiv {ι : Type} [DecidableEq ι] (llong : Bool) (dv rm : Option ι) (num divisor : ι)
    (σ : ι → Bignum w) : Option (ι → Bignum w) :=
  if (σ divisor).isZero then none
  else if (σ divisor).d.getLastD 0#w = 0#w then none
  else
    match bnDivFixedTop llong (σ num) (σ divisor) with
    | none => none
    | some r => some (store rm (bnCorrectTop r.rm) (store dv (bnCorrectTop r.dv) σ))

end QuicTls.Bn
