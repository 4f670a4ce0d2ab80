import QuicTls.Crypto.Bn.Div

/-!
# Multiplication and squaring (crypto/bn/bn_mul.c, bn_sqr.c)

The lengths of the operands are those of their arrays: where the source has `n2` and `dna`, an
array of `n2 + dna` words is given. The result is `none` where a carry `c1` is negative when it is
added, where its propagation leaves the array, and where an `assert` fails.
-/

namespace QuicTls.Bn

variable {w : Nat}

/-! ### Schoolbook multiplication -/

/-- The loop of `bn_mul_normal`: `r` are the words from the current one on, one more than `a`. -/
def mulNormalLoop (a r : Words w) : Words w → Words w
  | [] => r
  | v :: b =>
    let (rs, c) := bnMulAddWords (r.drop 1) a v
    r.take 1 ++ mulNormalLoop a (rs ++ [c]) b

/-- `bn_mul_normal` with the longer operand first -/
def mulNormalLonger (a : Words w) : Words w → Words w
  | [] => (bnMulWords a 0#w).1
  | v :: b =>
    let (r, c) := bnMulWords a v
    mulNormalLoop a (r ++ [c]) b

def bnMulNormal (a b : Words w) : Words w :=
  if a.length < b.length then mulNormalLonger b a else mulNormalLonger a b

/-! ### Recursive multiplication -/

/-- The words above a carry that has left its own word. -/
def carryOver : Words w → Option (Words w)
  | [] => none
  | lo :: p =>
    let ln := lo + 1#w
    if ln = 0#w then (carryOver p).map (ln :: ·) else some (ln :: p)

/-- Adding `c1` to the words above the middle term. -/
def addCarry (c1 : Int) (p : Words w) : Option (Words w) :=
  if c1 < 0 then none
  else if c1 = 0 then some p
  else
    match p with
    | [] => none
    | lo :: p =>
      let c := BitVec.ofInt w c1
      let ln := lo + c
      if ln < c then (carryOver p).map (ln :: ·) else some (ln :: p)

/-- The middle term from the products `lo` and `hi` of the halves and the product of their
differences with its sign, and the carry `c1`. -/
def middleTerm (lo hi mid : Words w) (neg : Bool) : Words w × Int :=
  let (t, c) := bnAddWords lo hi
  if neg then
    let (mid, b) := bnSubWords t mid
    (mid, c.toNat - b.toNat)
  else
    let (mid, c') := bnAddWords mid t
    (mid, c.toNat + c'.toNat)

/-- The last part of the recursive functions: the middle term is added to the products. -/
def combine (n : Nat) (lo hi mid : Words w) (neg : Bool) : Option (Words w) :=
  let r := lo ++ hi
  let (mid, c1) := middleTerm lo hi mid neg
  let (mid, c) := bnAddWords ((r.drop n).take (2 * n)) mid
  (addCarry (c1 + c.toNat) (r.drop (n + 2 * n))).map fun p => r.take n ++ mid ++ p

/-- The switch of `bn_mul_recursive`: the differences `a[0] - a[1]` and `b[1] - b[0]` without
their signs and whether the product is negative, `none` if it is zero. -/
def differences (a0 a1 b0 b1 : Words w) : Option (Words w × Words w × Bool) :=
  let c := bnCmpPartWords a0 a1 * 3 + bnCmpPartWords b1 b0
  if c = -4 then some ((bnSubPartWords a1 a0).1, (bnSubPartWords b0 b1).1, false)
  else if c = -2 then some ((bnSubPartWords a1 a0).1, (bnSubPartWords b1 b0).1, true)
  else if c = 2 then some ((bnSubPartWords a0 a1).1, (bnSubPartWords b0 b1).1, true)
  else if c = 4 then some ((bnSubPartWords a0 a1).1, (bnSubPartWords b1 b0).1, false)
  else none

/-- The switch of `bn_mul_part_recursive`, where zero is not a case of its own. -/
def partDifferences (a0 a1 b0 b1 : Words w) : Words w × Words w × Bool :=
  let c := bnCmpPartWords a0 a1 * 3 + bnCmpPartWords b1 b0
  if c = -4 then ((bnSubPartWords a1 a0).1, (bnSubPartWords b0 b1).1, false)
  else if c = -3 ∨ c = -2 then ((bnSubPartWords a1 a0).1, (bnSubPartWords b1 b0).1, true)
  else if c = 3 ∨ c = 4 then ((bnSubPartWords a0 a1).1, (bnSubPartWords b1 b0).1, false)
  else ((bnSubPartWords a0 a1).1, (bnSubPartWords b0 b1).1, true)

/-- `bn_mul_recursive` of arrays of at most `n2` words, with a result of `2 * n2` words -/
def bnMulRecursive (n2 : Nat) (a b : Words w) : Option (Words w) :=
  let n := n2 / 2
  if n2 = 8 ∧ a.length = n2 ∧ b.length = n2 then some (bnMulComba8 a b)
  else if n2 < 16 then
    some (bnMulNormal a b ++ List.replicate (2 * n2 - (a.length + b.length)) 0#w)
  else
    let a0 := a.take n
    let a1 := a.drop n
    let b0 := b.take n
    let b1 := b.drop n
    let d := differences a0 a1 b0 b1
    let neg := match d with
      | none => false
      | some (_, _, neg) => neg
    if n = 4 ∧ a.length = n2 ∧ b.length = n2 then
      let mid := match d with
        | none => List.replicate 8 0#w
        | some (t0, t1, _) => bnMulComba4 t0 t1
      combine n (bnMulComba4 a0 b0) (bnMulComba4 a1 b1) mid neg
    else if n = 8 ∧ a.length = n2 ∧ b.length = n2 then
      let mid := match d with
        | none => List.replicate 16 0#w
        | some (t0, t1, _) => bnMulComba8 t0 t1
      combine n (bnMulComba8 a0 b0) (bnMulComba8 a1 b1) mid neg
    else
      let mid := match d with
        | none => some (List.replicate n2 0#w)
        | some (t0, t1, _) => bnMulRecursive n t0 t1
      match mid, bnMulRecursive n a0 b0, bnMulRecursive n a1 b1 with
      | some mid, some lo, some hi => combine n lo hi mid neg
      | _, _, _ => none
termination_by n2

/-- The loop that halves `i` until it is not larger than one of the lengths. -/
def partSize (tna tnb i : Nat) : Nat :=
  if i / 2 ≤ tna ∨ i / 2 ≤ tnb then i / 2 else partSize tna tnb (i / 2)
termination_by i

/-- How `bn_mul_part_recursive` multiplies the upper halves. -/
inductive UpperHalf where
  | recursive (i : Nat)
  | part (i : Nat)
  | smallPart (i : Nat)
  | normal

/-- The choice for `n > 8`, from the number of words of the upper halves. -/
def upperHalf (n tna tnb : Nat) : UpperHalf :=
  let i := n / 2
  let j : Int := if tna > tnb then tna - i else tnb - i
  if j = 0 then .recursive i
  else if j > 0 then .part i
  else if tna < 16 ∧ tnb < 16 then .normal
  else
    let i := partSize tna tnb i
    if i < tna ∨ i < tnb then .smallPart i else .recursive i

theorem partSize_le (tna tnb i : Nat) : partSize tna tnb i ≤ i / 2 := by
  fun_induction partSize tna tnb i with
  | case1 => exact Nat.le_refl _
  | case2 i _ ih => omega

theorem upperHalf_lt {n tna tnb i : Nat} (hn : ¬ n < 8)
    (h : upperHalf n tna tnb = .part i ∨ upperHalf n tna tnb = .smallPart i) : i < n := by
  have hsize := partSize_le tna tnb (n / 2)
  simp only [upperHalf] at h
  grind

/-- `bn_mul_part_recursive` of arrays of `n + tna` and `n + tnb` words -/
def bnMulPartRecursive (n : Nat) (a b : Words w) : Option (Words w) :=
  let n2 := n * 2
  if hn : n < 8 then some (bnMulNormal a b)
  else
    let a0 := a.take n
    let a1 := a.drop n
    let b0 := b.take n
    let b1 := b.drop n
    let (t0, t1, neg) := partDifferences a0 a1 b0 b1
    -- the rest of the upper half of the result is cleared
    let clear := fun hi : Words w => hi ++ List.replicate (n2 - hi.length) 0#w
    if n = 8 then
      combine n (bnMulComba8 a0 b0) (clear (bnMulNormal a1 b1)) (bnMulComba8 t0 t1) neg
    else
      let hi :=
        match _h : upperHalf n a1.length b1.length with
        | .recursive i => (bnMulRecursive i a1 b1).map clear
        | .part i =>
          (bnMulPartRecursive i a1 b1).map fun hi => clear (hi.take (a1.length + b1.length))
        | .smallPart i => (bnMulPartRecursive i a1 b1).map clear
        | .normal => some (clear (bnMulNormal a1 b1))
      match bnMulRecursive n t0 t1, bnMulRecursive n a0 b0, hi with
      | some mid, some lo, some hi => combine n lo hi mid neg
      | _, _, _ => none
termination_by n
decreasing_by
  · exact upperHalf_lt hn (.inl _h)
  · exact upperHalf_lt hn (.inr _h)

/-- The power of two that is not larger than the number of words. -/
def wordsPower (w al : Nat) : Nat := 1 <<< (bnNumBitsWord (BitVec.ofNat w al) - 1)

/-- The words of the product of `bn_mul_fixed_top`. -/
def mulWords (a b : Words w) : Option (Words w) :=
  let al := a.length
  let bl := b.length
  let i : Int := al - bl
  if i = 0 ∧ al = 8 then some (bnMulComba8 a b)
  else if al ≥ 16 ∧ bl ≥ 16 ∧ i ≥ -1 ∧ i ≤ 1 then
    let j := wordsPower w (if i ≥ 0 then al else bl)
    if ¬ (j ≤ al ∨ j ≤ bl) then none
    else if al > j ∨ bl > j then (bnMulPartRecursive j a b).map (·.take (al + bl))
    else (bnMulRecursive j a b).map (·.take (al + bl))
  else some (bnMulNormal a b)

def bnMulFixedTop (a b : Bignum w) : Option (Bignum w) :=
  if a.top = 0 ∨ b.top = 0 then some .zero
  else (mulWords a.d b.d).map fun d => ⟨d, a.neg ^^ b.neg⟩

/-! ### Squaring -/

/-- The products of different words in `bn_sqr_normal`: `r` are the words from the current one on,
one more than there are words left of `a`. -/
def sqrCrossLoop (r : Words w) : Words w → Words w
  | [] => r
  | [_] => r
  | v :: ap =>
    let (rs, c) := bnMulAddWords (r.drop 2) ap v
    r.take 2 ++ sqrCrossLoop (rs ++ [c]) ap

def sqrCross : Words w → Words w
  | [] => []
  | [_] => []
  | v :: ap =>
    let (r, c) := bnMulWords ap v
    sqrCrossLoop (r ++ [c]) ap

def bnSqrNormal (a : Words w) : Words w :=
  let r := [0#w] ++ sqrCross a ++ [0#w]
  let r := (bnAddWords r r).1
  (bnAddWords r (bnSqrWords a)).1

def bnSqrRecursive (n2 : Nat) (a : Words w) : Option (Words w) :=
  let n := n2 / 2
  if n2 = 4 then some (bnSqrComba4 a)
  else if n2 = 8 then some (bnSqrComba8 a)
  else if n2 < 16 then some (bnSqrNormal a)
  else
    let a0 := a.take n
    let a1 := a.drop n
    let c1 := bnCmpWords a0 a1
    let mid :=
      if c1 > 0 then bnSqrRecursive n (bnSubWords a0 a1).1
      else if c1 < 0 then bnSqrRecursive n (bnSubWords a1 a0).1
      else some (List.replicate n2 0#w)
    match mid, bnSqrRecursive n a0, bnSqrRecursive n a1 with
    | some mid, some lo, some hi => combine n lo hi mid true
    | _, _, _ => none
termination_by n2

/-- The words of the square of `bn_sqr_fixed_top`. -/
def sqrWords (a : Words w) : Option (Words w) :=
  let al := a.length
  if al = 4 then some (bnSqrComba4 a)
  else if al = 8 then some (bnSqrComba8 a)
  else if al < 16 then some (bnSqrNormal a)
  else if al = wordsPower w al then bnSqrRecursive al a
  else some (bnSqrNormal a)

def bnSqrFixedTop (a : Bignum w) : Option (Bignum w) :=
  if a.top ≤ 0 then some .zero else (sqrWords a.d).map fun d => ⟨d, false⟩

section Variables

variable {ι : Type} [DecidableEq ι]

/-- `BN_mul` on variables: the product is computed in another variable if `r` is an operand -/
def bnMul (r a b : ι) (σ : ι → Bignum w) : Option (ι → Bignum w) :=
  (bnMulFixedTop (σ a) (σ b)).map fun v => store (some r) (bnCorrectTop v) σ

/-- `BN_sqr` on variables -/
def bnSqr (r a : ι) (σ : ι → Bignum w) : Option (ι → Bignum w) :=
  (bnSqrFixedTop (σ a)).map fun v => store (some r) (bnCorrectTop v) σ

end Variables

end QuicTls.Bn
