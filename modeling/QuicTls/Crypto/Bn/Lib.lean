import QuicTls.Crypto.Bn.Words

/-!
# Big numbers (crypto/bn/bn_lib.c, bn_add.c, bn_shift.c, bn_word.c)

A `BIGNUM` is the list of its words up to `top` and its sign. Allocations succeed. The flag
`BN_FLG_FIXED_TOP` is used in debugging builds only, and functions that look at `BN_FLG_CONSTTIME`
have it as an argument.
-/

namespace QuicTls.Bn

variable {w : Nat}

structure Bignum (w : Nat) where
  d : Words w
  neg : Bool
  deriving DecidableEq, Repr

variable (a b : Bignum w)

namespace Bignum

def top : Nat := a.d.length

def zero : Bignum w := ⟨[], false⟩

def isZero : Bool := a.top == 0

def isOdd : Bool :=
  match a.d with
  | [] => false
  | x :: _ => x &&& 1#w ≠ 0#w

end Bignum

open Bignum

/-- Without the zero words at the top. -/
def trim : Words w → Words w
  | [] => []
  | x :: xs =>
    match trim xs with
    | [] => if x = 0#w then [] else [x]
    | ys => x :: ys

def bnCorrectTop : Bignum w :=
  let d := trim a.d
  ⟨d, !d.isEmpty && a.neg⟩

/-- One halving of the search in `BN_num_bits_word`: the rest of the word and the bits counted. -/
def numBitsStep (s : Nat) (st : Word w × Nat) : Word w × Nat :=
  let (l, bits) := st
  let x := l >>> s
  let mask := 0#w - x
  let mask := 0#w - mask >>> (w - 1)
  (l ^^^ ((x ^^^ l) &&& mask), bits + (BitVec.ofNat w s &&& mask).toNat)

def bnNumBitsWord (l : Word w) : Nat :=
  let steps := if 32 < w then [32, 16, 8, 4, 2, 1] else [16, 8, 4, 2, 1]
  let bits := if l ≠ 0#w then 1 else 0
  (steps.foldl (fun st s => numBitsStep s st) (l, bits)).2

def bnNumBits : Nat :=
  match a.d.getLast? with
  | none => 0
  | some x => (a.top - 1) * w + bnNumBitsWord x

def bnUcmp : Int :=
  if a.top ≠ b.top then (a.top : Int) - b.top else bnCmpWords a.d b.d

/-- `BN_set_bit` of a number that is zero, as all callers here have it -/
def bnSetBit (n : Nat) : Bignum w :=
  ⟨List.replicate (n / w) 0#w ++ [1#w <<< (n % w)], false⟩

/-- The loop over the words of the longer summand. -/
def carryLoop (carry : Word w) : Words w → Words w × Word w
  | [] => ([], carry)
  | t1 :: ap =>
    let t2 := t1 + carry
    let (rp, carry) := carryLoop (carry &&& bit (t2 == 0#w)) ap
    (t2 :: rp, carry)

/-- `BN_uadd` of a summand that is not shorter -/
def uaddLonger (a b : Words w) : Words w :=
  let (lo, carry) := bnAddWords (a.take b.length) b
  let (hi, carry) := carryLoop carry (a.drop b.length)
  lo ++ hi ++ if carry = 0#w then [] else [carry]

def bnUadd : Bignum w :=
  if a.top < b.top then ⟨uaddLonger b.d a.d, false⟩ else ⟨uaddLonger a.d b.d, false⟩

/-- The loop over the words of the longer minuend. -/
def usubLoop (borrow : Word w) : Words w → Words w
  | [] => []
  | t1 :: ap => (t1 - borrow) :: usubLoop (borrow &&& bit (t1 == 0#w)) ap

/-- `BN_usub`; `none` is the error for a shorter minuend -/
def bnUsub : Option (Bignum w) :=
  if a.top < b.top then none
  else
    let (lo, borrow) := bnSubWords (a.d.take b.top) b.d
    some ⟨trim (lo ++ usubLoop borrow (a.d.drop b.top)), false⟩

/-- `BN_add` where the absolute values are subtracted; `bneg` is the sign of the result if the
second one is larger. -/
def subAbs (bneg : Bool) : Option (Bignum w) :=
  let cmpRes := bnUcmp a b
  if 0 < cmpRes then (bnUsub a b).map ({ · with neg := a.neg })
  else if cmpRes < 0 then (bnUsub b a).map ({ · with neg := bneg })
  else some zero

def bnAdd : Option (Bignum w) :=
  if a.neg = b.neg then some { bnUadd a b with neg := a.neg } else subAbs a b b.neg

/-- All bits, unless the number of bits is zero. -/
def shiftMask (n : Nat) : Word w :=
  let rmask := 0#w - BitVec.ofNat w n
  rmask ||| rmask >>> 8

/-- The words of an array shifted to the left, lowest word first, and the bits shifted out. -/
def lshiftLoop (lb rb : Nat) (m : Word w) : Words w → Words w × Word w
  | [] => ([], m)
  | n :: f =>
    let (t, m') := lshiftLoop lb rb (n >>> rb &&& shiftMask rb) f
    ((n <<< lb ||| m) :: t, m')

def bnLshiftFixedTop (n : Nat) : Bignum w :=
  let nw := n / w
  let lb := n % w
  let rb := (w - lb) % w
  let (t, m) := lshiftLoop lb rb 0#w a.d
  ⟨List.replicate nw 0#w ++ t ++ [m], a.neg⟩

def bnLshift (n : Nat) : Bignum w := bnCorrectTop (bnLshiftFixedTop a n)

def rshiftLoop (rb lb : Nat) : Words w → Words w
  | [] => []
  | [l] => [l >>> rb]
  | l :: m :: f => (l >>> rb ||| (m <<< lb &&& shiftMask lb)) :: rshiftLoop rb lb (m :: f)

def bnRshiftFixedTop (n : Nat) : Bignum w :=
  let nw := n / w
  if a.top ≤ nw then zero
  else
    let rb := n % w
    let lb := (w - rb) % w
    ⟨rshiftLoop rb lb (a.d.drop nw), a.neg⟩

def bnRshift (n : Nat) : Bignum w := bnCorrectTop (bnRshiftFixedTop a n)

def lshift1Loop (c : Word w) : Words w → Words w × Word w
  | [] => ([], c)
  | t :: ap =>
    let (rp, c') := lshift1Loop (t >>> (w - 1)) ap
    ((t <<< 1 ||| c) :: rp, c')

def bnLshift1 : Bignum w :=
  let (rp, c) := lshift1Loop 0#w a.d
  ⟨rp ++ if c = 0#w then [] else [c], a.neg⟩

def rshift1Loop : Words w → Words w
  | [] => []
  | [t] => [t >>> 1]
  | t :: u :: ap => (t >>> 1 ||| u <<< (w - 1)) :: rshift1Loop (u :: ap)

def bnRshift1 : Bignum w :=
  if a.isZero then zero
  else
    let d := (rshift1Loop a.d).take (if a.d.getLastD 0#w = 1#w then a.top - 1 else a.top)
    ⟨d, !d.isEmpty && a.neg⟩

end QuicTls.Bn
