import Mathlib.Data.Nat.Size
import QuicTls.Theory.CTypes

/-!
# The text of object identifiers (crypto/asn1/a_object.c)

The `BIGNUM` is a natural number, and the allocations succeed. The word `l` does not overflow: a
digit is added to it only below the limit.
-/

namespace QuicTls.Asn1Object

def ulongMax : Nat := 2 ^ 64 - 1

/-- `'.'` and `' '` -/
def separator (c : UInt8) : Bool := c = 0x2e ∨ c = 0x20

/-- `ossl_isdigit` -/
def isdigit (c : UInt8) : Bool := 0x30 ≤ c ∧ c ≤ 0x39

/-- A sub-identifier while it is read: `l`, and `bl` once `use_bn` is set. -/
structure SubId where
  l : Nat
  bl : Option Nat

namespace SubId

variable (x : SubId)

def digit (c : UInt8) : SubId :=
  let bl := if x.bl = none ∧ (ulongMax - 80) / 10 ≤ x.l then some x.l else x.bl
  match bl with
  | some bl => { x with bl := some (bl * 10 + (c.toNat - 0x30)) }
  | none => ⟨x.l * 10 + (c.toNat - 0x30), none⟩

/-- The first two numbers are one sub-identifier. -/
def addFirst (first : Nat) : SubId :=
  match x.bl with
  | some bl => { x with bl := some (bl + first * 40) }
  | none => ⟨x.l + first * 40, none⟩

/-- The groups of seven bits of a word, the lowest first; ten are enough. -/
def wordGroups : Nat → Nat → Bytes
  | 0, _ => []
  | fuel + 1, l => UInt8.ofNat (l % 0x80) :: if l / 0x80 = 0 then [] else wordGroups fuel (l / 0x80)

def bnGroups : Nat → Nat → Bytes
  | 0, _ => []
  | blsize + 1, bl => UInt8.ofNat (bl % 0x80) :: bnGroups blsize (bl / 0x80)

/-- The array `tmp` -/
def groups : Bytes :=
  match x.bl with
  | some bl => bnGroups ((bl.size + 6) / 7) bl
  | none => wordGroups 10 x.l

end SubId

/-- The digits up to a separator or to the end; with the character read last and what is left. -/
def readDigits (x : SubId) (c : UInt8) : Bytes → Option (SubId × UInt8 × Bytes)
  | [] => some (x, c, [])
  | c :: p =>
    if separator c then some (x, c, p)
    else if !isdigit c then none
    else readDigits (x.digit c) c p

/-- The loop over the sub-identifiers; `olen` is the room for them, `none` when `out` is null. -/
def a2dLoop (olen : Option Nat) (first : Nat) : Nat → UInt8 → Bytes → Bytes → Option Bytes
  | 0, _, _, out => some out
  | fuel + 1, c, p, out =>
    if p = [] then some out
    else if !separator c then none
    else
      match readDigits ⟨0, none⟩ c p with
      | none => none
      | some (x, c, p) =>
        if out = [] ∧ first < 2 ∧ 40 ≤ x.l then none
        else
          let tmp := (if out = [] then x.addFirst first else x).groups
          if olen.any (· < out.length + tmp.length) then none
          else a2dLoop olen first fuel c p
            (out ++ tmp.tail.reverse.map (· ||| 0x80) ++ tmp.take 1)

/-- `a2d_ASN1_OBJECT`: the bytes it writes or counts, none when it fails. The length of the text is
converted to an `int`. -/
def a2dAsn1Object (olen : Option Nat) (buf : Bytes) (num : Int) : Bytes :=
  if num = 0 then []
  else
    let num := (if num = -1 then toInt32 buf.length else num) - 1
    let c := buf.headD 0
    if c < 0x30 ∨ 0x32 < c then []
    else if num ≤ 0 then []
    else
      let p := buf.tail.take num.toNat
      (a2dLoop olen (c.toNat - 0x30) p.tail.length (p.headD 0) p.tail []).getD []

end QuicTls.Asn1Object
