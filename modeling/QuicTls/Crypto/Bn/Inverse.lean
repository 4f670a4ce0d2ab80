import QuicTls.Crypto.Bn.Gcd

/-!
# Modular inversion with its BIGNUM objects (crypto/bn/bn_gcd.c)

The objects come from the `BN_CTX`; the variables of the functions are pointers to them, which the
loops exchange. The numbers in the objects are integers. Allocations succeed.
-/

namespace QuicTls.Bn.Inverse

/-- The pointer variables. -/
inductive Var where
  | A
  | B
  | X
  | D
  | M
  | Y
  | T
  deriving DecidableEq, Repr

/-- The pointers, the numbers they point to, and the sign. -/
structure Heap (Obj : Type) where
  ptr : Var → Obj
  mem : Obj → Int
  sign : Int

section

variable {Obj : Type} [DecidableEq Obj]

namespace Heap

def get (h : Heap Obj) (v : Var) : Int := h.mem (h.ptr v)

def write (h : Heap Obj) (o : Obj) (x : Int) : Heap Obj :=
  { h with mem := Function.update h.mem o x }

def set (h : Heap Obj) (v : Var) (x : Int) : Heap Obj := h.write (h.ptr v) x

/-- An assignment to a pointer. -/
def point (h : Heap Obj) (v : Var) (o : Obj) : Heap Obj :=
  { h with ptr := Function.update h.ptr v o }

end Heap

/-- The variables before the loops. -/
def start (ptr : Var → Obj) (mem : Obj → Int) (a n : Int) : Heap Obj :=
  let h : Heap Obj := ⟨ptr, mem, -1⟩
  let h := (((h.set .X 1).set .Y 0).set .B a).set .A n.natAbs
  if h.get .B < 0 ∨ (h.get .B).natAbs ≥ (h.get .A).natAbs then
    h.set .B (Z.nnmod (h.get .B) (h.get .A))
  else h

/-- The end of a round: `(A, B) := (B, M)`, the object of `A` is filled, and then
`(X, Y) := (tmp, X)`. -/
def rotate (fill : Obj → Heap Obj → Heap Obj) (h : Heap Obj) : Heap Obj :=
  let tmp := h.ptr .A
  let h := h.point .A (h.ptr .B)
  let h := h.point .B (h.ptr .M)
  let h := fill tmp h
  let h := h.point .M (h.ptr .Y)
  let h := h.point .Y (h.ptr .X)
  let h := h.point .X tmp
  { h with sign := -h.sign }

/-- `tmp := D*X+Y` -/
def fillProduct (tmp : Obj) (h : Heap Obj) : Heap Obj :=
  let h := h.write tmp (h.get .D * h.get .X)
  h.write tmp (h.mem tmp + h.get .Y)

/-- The loop of `bn_mod_inverse_no_branch`. -/
def noBranchLoop : Nat → Heap Obj → Option (Heap Obj)
  | 0, _ => none
  | fuel + 1, h =>
    if h.get .B = 0 then some h
    else
      let D := (h.get .A).tdiv (h.get .B)
      let M := (h.get .A).tmod (h.get .B)
      let h := (h.set .D D).set .M M
      noBranchLoop fuel (rotate fillProduct h)

/-- `(D, M) := (A/B, A%B)` of the general algorithm; `T` and `D` are also used for `2*B` and
`3*B`. -/
def quotRem (h : Heap Obj) : Heap Obj :=
  if Z.numBits (h.get .A) = Z.numBits (h.get .B) then
    let h := h.set .D 1
    h.set .M (h.get .A - h.get .B)
  else if Z.numBits (h.get .A) = Z.numBits (h.get .B) + 1 then
    let h := h.set .T (2 * h.get .B)
    if (h.get .A).natAbs < (h.get .T).natAbs then
      let h := h.set .D 1
      h.set .M (h.get .A - h.get .B)
    else
      let h := h.set .M (h.get .A - h.get .T)
      let h := h.set .D (h.get .T + h.get .B)
      if (h.get .A).natAbs < (h.get .D).natAbs then h.set .D 2
      else
        let h := h.set .D 3
        h.set .M (h.get .M - h.get .B)
  else
    let D := (h.get .A).tdiv (h.get .B)
    let M := (h.get .A).tmod (h.get .B)
    (h.set .D D).set .M M

/-- `tmp := D*X+Y` without a multiplication for small `D`; the last product is that of
`BN_mul_word` if `D` has one word -/
def fillSmall (tmp : Obj) (h : Heap Obj) : Heap Obj :=
  if h.get .D = 1 then h.write tmp (h.get .X + h.get .Y)
  else
    let h := h.write tmp
      (if h.get .D = 2 then 2 * h.get .X
        else if h.get .D = 4 then h.get .X * 2 ^ 2
        else h.get .D * h.get .X)
    h.write tmp (h.mem tmp + h.get .Y)

/-- The loop of the general inversion algorithm. -/
def generalLoop : Nat → Heap Obj → Option (Heap Obj)
  | 0, _ => none
  | fuel + 1, h =>
    if h.get .B = 0 then some h else generalLoop fuel (rotate fillSmall (quotRem h))

/-- Divides `B` by its power of two, and `X` by the same modulo `n`. -/
def strip (n : Int) (b x : Var) (h : Heap Obj) : Option (Heap Obj) :=
  match Z.halvings n (h.get b) (Z.numBits (h.get b)) 0 (h.get x) with
  | none => none
  | some (shift, X) =>
    let h := h.set x X
    some (if 0 < shift then h.set b ((h.get b).tdiv (2 ^ shift)) else h)

/-- The binary inversion algorithm, for an odd modulus. -/
def binaryLoop (n : Int) : Nat → Heap Obj → Option (Heap Obj)
  | 0, _ => none
  | fuel + 1, h =>
    if h.get .B = 0 then some h
    else
      match (strip n .B .X h).bind (strip n .A .Y) with
      | none => none
      | some h =>
        if (h.get .B).natAbs ≥ (h.get .A).natAbs then
          let h := h.set .X ((h.get .X).natAbs + (h.get .Y).natAbs)
          binaryLoop n fuel (h.set .B ((h.get .B).natAbs - (h.get .A).natAbs))
        else
          let h := h.set .Y ((h.get .Y).natAbs + (h.get .X).natAbs)
          binaryLoop n fuel (h.set .A ((h.get .A).natAbs - (h.get .B).natAbs))

/-- After the loops: the number in `R` and `*pnoinv`. -/
def finish (n : Int) (h : Heap Obj) : Option Int × Bool :=
  let h := if h.sign < 0 then h.set .Y (n - h.get .Y) else h
  if h.get .A = 1 then
    (some (if 0 ≤ h.get .Y ∧ (h.get .Y).natAbs < n.natAbs then h.get .Y
      else Z.nnmod (h.get .Y) n), false)
  else (none, true)

variable (fuel : Nat) (ptr : Var → Obj) (mem : Obj → Int)

/-- `int_bn_mod_inverse`, with the flags `BN_FLG_CONSTTIME` of `a` and `n`: the returned number and
`*pnoinv`; `none` is a loop that has not ended after `fuel` rounds. -/
def intBnModInverse (aConst nConst : Bool) (a n : Int) : Option (Option Int × Bool) :=
  if n.natAbs = 1 ∨ n = 0 then some (none, true)
  else
    let h := start ptr mem a n
    let h :=
      if aConst || nConst then noBranchLoop fuel h
      else if n.natAbs % 2 = 1 ∧ Z.numBits n ≤ 2048 then binaryLoop n fuel h
      else generalLoop fuel h
    h.map (finish n)

def bnModInverse (aConst nConst : Bool) (a n : Int) : Option (Option Int) :=
  (intBnModInverse fuel ptr mem aConst nConst a n).map (·.1)

/-- `BN_are_coprime`, which sets `BN_FLG_CONSTTIME` of `a` before -/
def bnAreCoprime (bConst : Bool) (a b : Int) : Option Bool :=
  (bnModInverse fuel ptr mem true bConst a b).map (·.isSome)

end

end QuicTls.Bn.Inverse
