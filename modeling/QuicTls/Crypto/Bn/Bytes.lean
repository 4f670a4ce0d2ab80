import QuicTls.Theory.CTypes
import QuicTls.Crypto.Bn.Lib

/-!
# Import and export of big numbers (crypto/bn/bn_lib.c)

The bytes at the pointers `s` and `to` are lists in the order of the addresses. The loops go through
them from the least significant byte on; a negative length is not a length of a list.
-/

namespace QuicTls.Bn

variable {w : Nat}

open Bignum

/-- `endianness_t` -/
inductive Endianness where
  | big
  | little
  deriving DecidableEq, Repr

/-- `signedness_t` -/
inductive Signedness where
  | signed
  | unsigned
  deriving DecidableEq, Repr

/-- The bytes in the order in which the loops visit them, least significant byte first, and back. -/
def Endianness.fromLow (endianness : Endianness) (s : Bytes) : Bytes :=
  match endianness with
  | .little => s
  | .big => s.reverse

def bnBytes (w : Nat) : Nat := w / 8

def bnClear (_ : Bignum w) : Bignum w := ⟨[], false⟩

/-- One byte of the two's complement, and the next carry. -/
def xorByte (xor : UInt8) (carry : Bool) (b : UInt8) : UInt8 × Bool :=
  let byteXored := b ^^^ xor
  let byte := byteXored + if carry then 1 else 0
  (byte, decide (byte < byteXored))

/-- Skips leading sign extensions, from the most significant byte on. -/
def skipSign (xor : UInt8) : Bytes → Bytes
  | [] => []
  | b :: s2 => if b = xor then skipSign xor s2 else b :: s2

/-- The number of bytes that make up the number: without sign extensions, but with one byte of them
if the sign would be lost. -/
def significantLen (xor : UInt8) (s2 : Bytes) : Nat :=
  let s2 := skipSign xor s2
  if xor = 0xff then
    match s2 with
    | [] => 1
    | b :: _ => if b &&& 0x80 = 0 then s2.length + 1 else s2.length
  else s2.length

/-- The bytes of one word: at most `k` more, from bit `m` on. -/
def wordLoop (xor : UInt8) : Nat → Nat → Word w → Bool → Bytes → Word w × Bool × Bytes
  | 0, _, l, carry, s => (l, carry, s)
  | _ + 1, _, l, carry, [] => (l, carry, [])
  | k + 1, m, l, carry, b :: s =>
    let (byte, carry) := xorByte xor carry b
    wordLoop xor k (m + 8) (l ||| BitVec.ofNat w byte.toNat <<< m) carry s

def wordsLoop (xor : UInt8) : Nat → Bool → Bytes → Words w
  | 0, _, _ => []
  | n + 1, carry, s =>
    let (l, carry, s) := wordLoop xor (bnBytes w) 0 0#w carry s
    l :: wordsLoop xor n carry s

/-- `bin2bn` into an existing number -/
def bin2bn (s : Bytes) (ret : Bignum w) (endianness : Endianness) (signedness : Signedness) :
    Bignum w :=
  if s = [] then bnClear ret
  else
    let low := endianness.fromLow s
    let neg := decide (signedness = .signed) && decide (low.getLastD 0 &&& 0x80 ≠ 0)
    let xor : UInt8 := if neg then 0xff else 0
    let len := significantLen xor low.reverse
    -- if it was all zeros, only `top` is set
    if len = 0 then { ret with d := [] }
    else
      let n := (len - 1) / bnBytes w + 1
      bnCorrectTop ⟨wordsLoop xor n neg (low.take len), neg⟩

variable (s : Bytes) (ret : Option (Bignum w)) (a : Bignum w) (spare : Words w)

/-- `BN_bin2bn`; without a number to write to, one is created -/
def bnBin2bn : Bignum w :=
  bin2bn s (ret.getD zero) .big .unsigned

def bnSignedBin2bn : Bignum w :=
  bin2bn s (ret.getD zero) .big .signed

def bnLebin2bn : Bignum w :=
  bin2bn s (ret.getD zero) .little .unsigned

def bnSignedLebin2bn : Bignum w :=
  bin2bn s (ret.getD zero) .little .signed

/-- The loop of `bn2binpad` over the allocated words: byte `j` comes from byte `i` of the words,
which stays on the last one, and bytes above `top` are masked. -/
def exportLoop (mem : Words w) (lasti atop : Nat) (xor : UInt8) : Nat → Nat → Nat → Bool → Bytes
  | 0, _, _, _ => []
  | k + 1, j, i, carry =>
    let l := mem.getD (i / bnBytes w) 0#w
    let byte := if j < atop then UInt8.ofNat (l >>> (8 * (i % bnBytes w))).toNat else 0
    let (byte, carry) := xorByte xor carry byte
    byte :: exportLoop mem lasti atop xor k (j + 1) (if i < lasti then i + 1 else i) carry

def bnNumBytes : Nat := (bnNumBits a + 7) / 8

/-- The extra byte of a signed export. -/
def signExt (signedness : Signedness) : Nat :=
  match signedness with
  | .unsigned => 0
  | .signed =>
    let ext := if bnNumBytes a * 8 = bnNumBits a then !a.neg else a.neg
    if ext then 1 else 0

/-- The number of bytes that are written: all of them if no length was given; `none` is the return
value -1. -/
def exportLen (tolen : Option Nat) (signedness : Signedness) : Option Nat :=
  let ext := signExt a signedness
  match tolen with
  | none => some (bnNumBytes a + ext)
  | some tolen =>
    if tolen < bnNumBytes a + ext then
      if tolen < bnNumBytes (bnCorrectTop a) + ext then none else some tolen
    else some tolen

/-- `bn2binpad`, with the words `spare` that are allocated above `top`; `none` is the return value
-1, otherwise the length of the result is returned -/
def bn2binpad (tolen : Option Nat) (endianness : Endianness) (signedness : Signedness) :
    Option Bytes :=
  let neg := decide (signedness = .signed) && a.neg
  let xor : UInt8 := if neg then 0xff else 0
  (exportLen a tolen signedness).map fun tolen =>
    let mem := a.d ++ spare
    if mem.length * bnBytes w = 0 then List.replicate tolen 0
    else
      endianness.fromLow
        (exportLoop mem (mem.length * bnBytes w - 1) (a.top * bnBytes w) xor tolen 0 0 neg)

def bnBn2binpad (tolen : Nat) : Option Bytes :=
  bn2binpad a spare (some tolen) .big .unsigned

def bnBn2bin : Option Bytes :=
  bn2binpad a spare none .big .unsigned

def bnSignedBn2bin (tolen : Nat) : Option Bytes :=
  bn2binpad a spare (some tolen) .big .signed

def bnSignedBn2lebin (tolen : Nat) : Option Bytes :=
  bn2binpad a spare (some tolen) .little .signed

/-- `BN_cmp` of two numbers -/
def bnCmp (a b : Bignum w) : Int :=
  if a.neg ≠ b.neg then if a.neg then -1 else 1
  else
    let gt : Int := if a.neg then -1 else 1
    if a.top > b.top then gt
    else if a.top < b.top then -gt
    else gt * bnCmpWords a.d b.d

end QuicTls.Bn
