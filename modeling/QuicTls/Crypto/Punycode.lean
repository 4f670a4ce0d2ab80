import QuicTls.Theory.CTypes
import QuicTls.Theory.Checked
import QuicTls.Theory.Overwrite

/-!
# Decoding of Punycode (crypto/punycode.c)

`unsigned int` has 32 bits and `size_t` 64; the operations on `unsigned int` are recorded as exact
or not, and so are the indices of the stores into `pDecoded`, whose contents are a list of `max_out`
values. Every loop has the same fuel.
-/

namespace QuicTls.Punycode

open Proc

def base : Nat := 36
def tmin : Nat := 1
def tmax : Nat := 26
def skew : Nat := 38
def damp : Nat := 700
def initialBias : Nat := 72
def initialN : Nat := 0x80
def maxint : Nat := 0xffffffff

/-- `'-'` -/
def delimiter : UInt8 := 0x2d

def adaptLoop : Nat → Nat → Nat → Proc (Nat × Nat)
  | 0, _, _ => running
  | fuel + 1, delta, k =>
    if delta > (base - tmin) * tmax / 2 then do
      let k ← exact 32 (k + base)
      adaptLoop fuel (delta / (base - tmin)) k
    else pure (delta, k)

def adapt (fuel delta numpoints : Nat) (firsttime : Bool) : Proc Nat := do
  let delta := if firsttime then delta / damp else delta / 2
  let share ← div delta numpoints
  let delta ← exact 32 (delta + share)
  let r ← adaptLoop fuel delta 0
  let num ← exact 32 ((base - tmin + 1) * r.1)
  let den ← exact 32 (r.1 + skew)
  let q ← div num den
  exact 32 (r.2 + q)

/-- The conversion of a `char`, which is signed, to an `unsigned int`. -/
def ofChar (c : UInt8) : Nat := if c.toNat < 128 then c.toNat else 2 ^ 32 - 256 + c.toNat

def isBasic (a : Nat) : Bool := a < 0x80

/-- `digit_decoded`; `none` is -1 -/
def digitDecoded (a : UInt8) : Option Nat :=
  if 0x41 ≤ a.toNat ∧ a.toNat ≤ 0x5a then some (a.toNat - 0x41)
  else if 0x61 ≤ a.toNat ∧ a.toNat ≤ 0x7a then some (a.toNat - 0x61)
  else if 0x30 ≤ a.toNat ∧ a.toNat ≤ 0x39 then some (a.toNat - 0x30 + 26)
  else none

variable (enc : Bytes) (maxOut : Nat)

/-- `pDecoded[idx] = v` -/
def store (buf : List Nat) (idx v : Nat) : Proc (List Nat) := do
  check (idx < maxOut)
  pure (buf.set idx v)

/-- `memmove` of `n` values from `src` on to `dst`. -/
def memmove (buf : List Nat) (dst src n : Nat) : Proc (List Nat) := do
  check (dst + n ≤ maxOut ∧ src + n ≤ maxOut)
  pure (overwrite buf dst (slice buf src n))

/-- The loop that looks for the last delimiter. -/
def lastDelimiter : Nat → Nat → Nat → Proc Nat
  | 0, _, _ => running
  | fuel + 1, loop, basicCount =>
    if loop < enc.length then do
      let next ← exact 32 (loop + 1)
      lastDelimiter fuel next (if enc.getD loop 0 = delimiter then loop else basicCount)
    else pure basicCount

/-- The loop that copies the basic code points. -/
def copyBasic (basicCount : Nat) : Nat → Nat → List Nat → Proc (List Nat)
  | 0, _, _ => running
  | fuel + 1, loop, buf =>
    if loop < basicCount then
      if isBasic (ofChar (enc.getD loop 0)) then do
        let buf ← store maxOut buf loop (ofChar (enc.getD loop 0))
        let next ← exact 32 (loop + 1)
        copyBasic basicCount fuel next buf
      else fail
    else pure buf

/-- `t` -/
def threshold (bias k : Nat) : Proc Nat :=
  if k ≤ bias then pure tmin
  else do
    let top ← exact 32 (bias + tmax)
    if k ≥ top then pure tmax else sub 32 k bias

/-- The loop over the digits of one integer: `i` and `loop`. -/
def digits (bias : Nat) : Nat → Nat → Nat → Nat → Nat → Proc (Nat × Nat)
  | 0, _, _, _, _ => running
  | fuel + 1, loop, k, w, i =>
    if loop ≥ enc.length then fail
    else do
      let next ← exact 32 (loop + 1)
      match digitDecoded (enc.getD loop 0) with
      | none => fail
      | some digit =>
        let room ← sub 32 maxint i
        let most ← div room w
        if digit > most then fail
        else
          let step ← exact 32 (digit * w)
          let i ← exact 32 (i + step)
          let t ← threshold bias k
          if digit < t then pure (i, next)
          else
            let factor ← sub 32 base t
            let most ← div maxint factor
            if w > most then fail
            else
              let w ← exact 32 (w * factor)
              let k ← exact 32 (k + base)
              digits bias fuel next k w i

/-- The variables of the main loop. -/
structure State where
  n : Nat
  i : Nat
  bias : Nat
  loop : Nat
  writtenOut : Nat
  buf : List Nat

/-- The main loop; `all` is the fuel of the loops in it. -/
def decodeLoop (all : Nat) : Nat → State → Proc State
  | 0, _ => running
  | fuel + 1, s =>
    if s.loop < enc.length then do
      let r ← digits enc s.bias all s.loop base 1 s.i
      let delta ← sub 32 r.1 s.i
      let numpoints ← exact 32 (s.writtenOut + 1)
      let bias ← adapt all delta numpoints (s.i == 0)
      let room ← sub 32 maxint s.n
      if r.1 / (s.writtenOut + 1) > room then fail
      else
        let n ← exact 32 (s.n + r.1 / (s.writtenOut + 1))
        let i ← exact 32 (r.1 % (s.writtenOut + 1))
        if s.writtenOut ≥ maxOut then fail
        else
          let buf ← memmove maxOut s.buf (i + 1) i (s.writtenOut - i)
          let buf ← store maxOut buf i n
          let i ← exact 32 (i + 1)
          decodeLoop all fuel ⟨n, i, bias, r.2, s.writtenOut + 1, buf⟩
    else pure s

/-- `ossl_punycode_decode`: the contents of `pDecoded` and the length of the output -/
def osslPunycodeDecode (buf : List Nat) (fuel : Nat) : Proc (List Nat × Nat) := do
  let basicCount ← lastDelimiter enc fuel 0 0
  let s ←
    if basicCount > 0 then
      if basicCount > maxOut then fail
      else do
        let buf ← copyBasic enc maxOut basicCount fuel 0 buf
        let processedIn ← exact 32 (basicCount + 1)
        decodeLoop enc maxOut fuel fuel ⟨initialN, 0, initialBias, processedIn, basicCount, buf⟩
    else decodeLoop enc maxOut fuel fuel ⟨initialN, 0, initialBias, 0, 0, buf⟩
  let outLength ← exact 32 s.writtenOut
  pure (s.buf, outLength)

end QuicTls.Punycode
