import QuicTls.Crypto.Bn.Div

/-!
# Greatest common divisors (crypto/bn/bn_gcd.c: `BN_gcd`; crypto/bn/bn_lib.c: `BN_consttime_swap`)

The words that an object holds above `top` matter here, as the words of two objects are exchanged
without regard to their sizes. What the objects of the caller and of the context hold there is
arbitrary. Numbers have at most `INT_MAX / 4` bits, so that no counter leaves the range of `int`.
-/

namespace QuicTls.Bn

open Bignum

variable {w : Nat}

/-- A `BIGNUM` with all the words that are allocated for it. -/
structure Buf (w : Nat) where
  d : Words w
  top : Nat
  neg : Bool
  deriving DecidableEq, Repr

namespace Buf

def dmax (a : Buf w) : Nat := a.d.length

/-- The number in use. -/
def num (a : Buf w) : Bignum w := ⟨a.d.take a.top, a.neg⟩

def ofNum (x : Bignum w) (spare : Words w) : Buf w := ⟨x.d ++ spare, x.top, x.neg⟩

/-- A result is written to an object, which grows if it has to. -/
def put (a : Buf w) (x : Bignum w) : Buf w := ofNum x (a.d.drop x.top)

def wexpand (a : Buf w) (words : Nat) : Buf w :=
  if words ≤ a.dmax then a
  else { a with d := a.d.take a.top ++ List.replicate (words - a.top) 0#w }

end Buf

/-- The condition of `BN_consttime_swap` as a mask -/
def conditionMask (condition : Word w) : Word w :=
  ((~~~condition &&& (condition - 1#w)) >>> (w - 1)) - 1#w

/-- The first of two arrays of words after the exchange of `nwords` words under a mask. -/
def swapInto (mask : Word w) (nwords : Nat) (a b : Words w) : Words w :=
  List.zipWith (fun x y => x ^^^ ((x ^^^ y) &&& mask)) (a.take nwords) (b.take nwords) ++
    a.drop nwords

/-- `BN_consttime_swap`; the integers `top` and `neg` are exchanged under the same mask -/
def bnConsttimeSwap (condition : Word w) (a b : Buf w) (nwords : Nat) : Buf w × Buf w :=
  let mask := conditionMask condition
  let keep := mask = 0#w
  (⟨swapInto mask nwords a.d b.d, if keep then a.top else b.top, if keep then a.neg else b.neg⟩,
    ⟨swapInto mask nwords b.d a.d, if keep then b.top else a.top, if keep then b.neg else a.neg⟩)

namespace Gcd

/-- The loop over the bits of one word: `bit` and `shifts`. -/
def countBits : Nat → Word w → Bool × Nat → Bool × Nat
  | 0, _, st => st
  | j + 1, mask, (bit, shifts) =>
    let bit := bit && mask.getLsbD 0
    countBits j (mask >>> 1) (bit, shifts + bit.toNat)

/-- The powers of two that two arrays of words share. -/
def countShifts : Words w → Words w → Bool × Nat → Nat
  | x :: r, y :: g, st => countShifts r g (countBits w (~~~(x ||| y)) st)
  | _, _, st => st.2

structure State (w : Nat) where
  delta : Int
  r : Buf w
  g : Buf w
  temp : Buf w
  /-- ghost: the largest `top` of a number that was offered for an exchange -/
  widest : Nat
  deriving DecidableEq, Repr

/-- One turn of the loop. -/
def step (top : Nat) (s : State w) : Option (State w) :=
  let cond := decide (0 < s.delta) && s.g.num.isOdd
  let delta := if cond then -s.delta else s.delta
  let r := { s.r with neg := s.r.neg ^^ cond }
  let widest := max s.widest (max r.top s.g.top)
  let (r, g) := bnConsttimeSwap (bit cond) r s.g top
  let delta := delta + 1
  match bnAdd g.num r.num with
  | none => none
  | some sum =>
    let temp := s.temp.put sum
    let widest := max widest (max g.top temp.top)
    let (g, temp) := bnConsttimeSwap (bit g.num.isOdd) g temp top
    some ⟨delta, r, g.put (bnRshift1 g.num), temp, widest⟩

def loop (top : Nat) : Nat → State w → Option (State w)
  | 0, s => some s
  | m + 1, s => (step top s).bind (loop top m)

/-- What the objects hold above their numbers when `BN_gcd` has doubled its operands. -/
structure Spare (w : Nat) where
  r : Words w
  g : Words w
  temp : Words w

structure Run (w : Nat) where
  state : State w
  shifts : Nat
  top : Nat

/-- `BN_gcd` from the doubled operands to the end of the loop -/
def run (r g : Bignum w) (spare : Spare w) : Option (Run w) :=
  let r := Buf.ofNum r spare.r
  let g := Buf.ofNum g spare.g
  let shifts := countShifts r.d g.d (true, 0)
  let r := r.put (bnRshift r.num shifts)
  let g := g.put (bnRshift g.num shifts)
  let top := 1 + if g.top ≤ r.top then r.top else g.top
  let r := r.wexpand top
  let g := g.wexpand top
  let temp := (⟨spare.temp, 0, false⟩ : Buf w).wexpand top
  let widest := max r.top g.top
  let (r, g) := bnConsttimeSwap (bit !r.num.isOdd) r g top
  let rlen := bnNumBits r.num
  let glen := bnNumBits g.num
  let m := 4 + 3 * if glen ≤ rlen then rlen else glen
  (loop top m ⟨1, r, g, temp, widest⟩).map (⟨·, shifts, top⟩)

end Gcd

/-- `BN_gcd` on variables -/
def bnGcd {ι : Type} [DecidableEq ι] (r inA inB : ι) (spare : Gcd.Spare w) (σ : ι → Bignum w) :
    Option (ι → Bignum w) :=
  if (σ inB).isZero then some (store (some r) { σ inA with neg := false } σ)
  else if (σ inA).isZero then some (store (some r) { σ inB with neg := false } σ)
  else
    let g := bnLshift1 (σ inB)
    let σ := store (some r) (bnLshift1 (σ inA)) σ
    match Gcd.run (σ r) g spare with
    | none => none
    | some run =>
      let res : Bignum w := { run.state.r.num with neg := false }
      some (store (some r) (bnRshift1 (bnLshift res run.shifts)) σ)

end QuicTls.Bn
