/-!
# Arrays of words (crypto/bn/bn_asm.c, bn_local.h)

`BN_ULONG` has `w` bits, and the products of the macros are computed in a `BN_ULLONG` of twice
that width (the variant `BN_LLONG`). A loop unrolled in the source is a recursion on the words of an
array.
-/

namespace QuicTls.Bn

variable {w : Nat}

/-- `BN_ULONG` -/
abbrev Word (w : Nat) := BitVec w

/-- An array of words, least significant first -/
abbrev Words (w : Nat) := List (Word w)

/-- `BN_ULLONG` -/
abbrev DWord (w : Nat) := BitVec (w + w)

def Word.toDWord (x : Word w) : DWord w := x.setWidth (w + w)

def lw (t : DWord w) : Word w := t.setWidth w

def hw (t : DWord w) : Word w := (t >>> w).setWidth w

/-- The value of a comparison. -/
def bit (b : Bool) : Word w := if b then 1#w else 0#w

/-- `mul_add(r, a, w, c)`: the new `r` and `c` -/
def mulAdd (r a v c : Word w) : Word w × Word w :=
  let t := v.toDWord * a.toDWord + r.toDWord + c.toDWord
  (lw t, hw t)

/-- `mul(r, a, w, c)`: the new `r` and `c` -/
def mul (a v c : Word w) : Word w × Word w :=
  let t := v.toDWord * a.toDWord + c.toDWord
  (lw t, hw t)

/-- `sqr(r0, r1, a)` -/
def sqr (a : Word w) : Word w × Word w :=
  let t := a.toDWord * a.toDWord
  (lw t, hw t)

/-- The loop of `bn_mul_add_words`, from a carry. -/
def mulAddLoop (v c1 : Word w) : Words w → Words w → Words w × Word w
  | r :: rp, a :: ap =>
    let (r, c1) := mulAdd r a v c1
    let (rp, c1) := mulAddLoop v c1 rp ap
    (r :: rp, c1)
  | rp, _ => (rp, c1)

/-- `bn_mul_add_words`: the array `rp` afterwards and the carry -/
def bnMulAddWords (rp ap : Words w) (v : Word w) : Words w × Word w :=
  mulAddLoop v 0#w rp ap

def mulLoop (v c1 : Word w) : Words w → Words w × Word w
  | a :: ap =>
    let (r, c1) := mul a v c1
    let (rp, c1) := mulLoop v c1 ap
    (r :: rp, c1)
  | [] => ([], c1)

def bnMulWords (ap : Words w) (v : Word w) : Words w × Word w := mulLoop v 0#w ap

def bnSqrWords : Words w → Words w
  | [] => []
  | a :: ap => (sqr a).1 :: (sqr a).2 :: bnSqrWords ap

/-- `bn_div_words`, with a division of double words -/
def bnDivWords (h l d : Word w) : Word w := lw ((h.toDWord <<< w ||| l.toDWord) / d.toDWord)

def addLoop (ll : DWord w) : Words w → Words w → Words w × Word w
  | a :: as, b :: bs =>
    let ll := ll + (a.toDWord + b.toDWord)
    let (rp, c) := addLoop (ll >>> w) as bs
    (lw ll :: rp, c)
  | _, _ => ([], lw ll)

/-- `bn_add_words`: the sum and the carry -/
def bnAddWords (a b : Words w) : Words w × Word w := addLoop 0 a b

def subLoop (c : Word w) : Words w → Words w → Words w × Word w
  | a :: as, b :: bs =>
    let t2 := a - c
    let t1 := t2 - b
    let (rp, c) := subLoop (bit (a < t2) + bit (t2 < t1)) as bs
    (t1 :: rp, c)
  | _, _ => ([], c)

/-- `bn_sub_words`: the difference and the borrow -/
def bnSubWords (a b : Words w) : Words w × Word w := subLoop 0#w a b

/-- The three words of an accumulator, least significant first. -/
structure Acc (w : Nat) where
  c0 : Word w
  c1 : Word w
  c2 : Word w

/-- `mul_add_c(a, b, c0, c1, c2)`, which is also `sqr_add_c` -/
def mulAddC (a b : Word w) (c : Acc w) : Acc w :=
  let t := a.toDWord * b.toDWord + c.c0.toDWord
  let c1 := c.c1 + hw t
  ⟨lw t, c1, c.c2 + bit (c1 < hw t)⟩

/-- `mul_add_c2(a, b, c0, c1, c2)` -/
def mulAddC2 (a b : Word w) (c : Acc w) : Acc w :=
  let t := a.toDWord * b.toDWord
  let tt := t + c.c0.toDWord
  let c1 := c.c1 + hw tt
  let c2 := c.c2 + bit (c1 < hw tt)
  let t := t + (lw tt).toDWord
  let c1' := c1 + hw t
  ⟨lw t, c1', c2 + bit (c1' < hw t)⟩

/-- The pairs of words whose products `bn_mul_comba4` and `bn_mul_comba8` add up in a column, in
the order of the source: forwards in odd columns, backwards in even ones. -/
def combaColumn (n k : Nat) : List (Nat × Nat) :=
  let pairs := ((List.range n).filter fun i => i ≤ k && k - i < n).map fun i => (i, k - i)
  if k % 2 = 1 then pairs else pairs.reverse

def combaLoop (a b : Words w) (c : Acc w) : List (List (Nat × Nat)) → Words w
  | [] => [c.c0]
  | column :: columns =>
    let c := column.foldl (fun c ij => mulAddC (a.getD ij.1 0#w) (b.getD ij.2 0#w) c) c
    c.c0 :: combaLoop a b ⟨c.c1, c.c2, 0#w⟩ columns

def bnMulComba (n : Nat) (a b : Words w) : Words w :=
  combaLoop a b ⟨0#w, 0#w, 0#w⟩ ((List.range (2 * n - 1)).map (combaColumn n))

def bnMulComba4 (a b : Words w) : Words w := bnMulComba 4 a b

def bnMulComba8 (a b : Words w) : Words w := bnMulComba 8 a b

/-- The pairs of different words that `bn_sqr_comba4` and `bn_sqr_comba8` add up in a column: from
the middle outwards in even columns, after the square, and inwards in odd ones. -/
def sqrColumn (n k : Nat) : List (Nat × Nat) :=
  let pairs := ((List.range n).filter fun i => k - i < i && i ≤ k).map fun i => (i, k - i)
  if k % 2 = 1 then pairs.reverse else pairs

def sqrAddColumn (n : Nat) (a : Words w) (c : Acc w) (k : Nat) : Acc w :=
  let c := if k % 2 = 0 then mulAddC (a.getD (k / 2) 0#w) (a.getD (k / 2) 0#w) c else c
  (sqrColumn n k).foldl (fun c ij => mulAddC2 (a.getD ij.1 0#w) (a.getD ij.2 0#w) c) c

def sqrCombaLoop (n : Nat) (a : Words w) (c : Acc w) : List Nat → Words w
  | [] => [c.c0]
  | k :: ks =>
    let c := sqrAddColumn n a c k
    c.c0 :: sqrCombaLoop n a ⟨c.c1, c.c2, 0#w⟩ ks

def bnSqrComba (n : Nat) (a : Words w) : Words w :=
  sqrCombaLoop n a ⟨0#w, 0#w, 0#w⟩ (List.range (2 * n - 1))

def bnSqrComba4 (a : Words w) : Words w := bnSqrComba 4 a

def bnSqrComba8 (a : Words w) : Words w := bnSqrComba 8 a

/-- `bn_cmp_words` of arrays of one length -/
def bnCmpWords : Words w → Words w → Int
  | a :: as, b :: bs =>
    let c := bnCmpWords as bs
    if c ≠ 0 then c else if a = b then 0 else if b < a then 1 else -1
  | _, _ => 0

/-- `bn_cmp_part_words`; `cl` and `dl` are the lengths of the arrays -/
def bnCmpPartWords (a b : Words w) : Int :=
  if (b.drop a.length).any (· ≠ 0#w) then -1
  else if (a.drop b.length).any (· ≠ 0#w) then 1
  else bnCmpWords (a.take b.length) (b.take a.length)

/-- The words of a longer subtrahend. -/
def negLoop (c : Word w) : Words w → Words w × Word w
  | [] => ([], c)
  | t :: bs =>
    let (rp, c') := negLoop (if t ≠ 0#w then 1#w else c) bs
    ((0#w - t - c) :: rp, c')

/-- The words of a longer minuend; words that are only copied have no borrow. -/
def borrowLoop (c : Word w) : Words w → Words w × Word w
  | [] => ([], c)
  | t :: as =>
    let (rp, c') := borrowLoop (if t ≠ 0#w then 0#w else c) as
    ((t - c) :: rp, c')

def bnSubPartWords (a b : Words w) : Words w × Word w :=
  let (r, c) := bnSubWords (a.take b.length) (b.take a.length)
  let (r', c) :=
    if a.length < b.length then negLoop c (b.drop a.length) else borrowLoop c (a.drop b.length)
  (r ++ r', c)

end QuicTls.Bn
