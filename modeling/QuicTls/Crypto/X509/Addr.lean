import Mathlib.Data.List.Sort
import QuicTls.Crypto.X509.Types
import QuicTls.Ssl.Pqueue

/-!
# IP address delegation (crypto/x509/v3_addr.c, RFC 3779)

A certificate is represented by its decoded `rfc3779_addr`, absent or present, and a chain starts
with the certificate to be checked. Copies of stacks are always allocated, and entries of two
certificates are never the same object, so the shortcut of `addr_contains` for equal pointers is
left out.
-/

namespace QuicTls.X509

/-- `ASN1_BIT_STRING`, with the number of unused bits from its flags -/
structure BitString where
  data : Bytes
  flags : Nat
  deriving DecidableEq, Repr

inductive IPAddressOrRange where
  | addressPrefix (bs : BitString)
  | addressRange (min max : BitString)
  deriving DecidableEq, Repr

abbrev IPAddressOrRanges := List IPAddressOrRange

inductive IPAddressChoice where
  | inherit
  | addressesOrRanges (aors : IPAddressOrRanges)
  deriving DecidableEq, Repr

structure IPAddressFamily where
  addressFamily : Bytes
  ipAddressChoice : IPAddressChoice
  deriving DecidableEq, Repr

abbrev IPAddrBlocks := List IPAddressFamily

def ianaAfiIpv4 : Nat := 1
def ianaAfiIpv6 : Nat := 2

def lengthFromAfi (afi : Nat) : Nat :=
  if afi = ianaAfiIpv4 then 4 else if afi = ianaAfiIpv6 then 16 else 0

def x509v3AddrGetAfi (f : IPAddressFamily) : Nat :=
  match f.addressFamily with
  | b0 :: b1 :: _ => b0.toNat * 256 + b1.toNat
  | _ => 0

/-- The bits of the last byte that the string does not use. -/
def BitString.mask (bs : BitString) : UInt8 := 0xFF >>> UInt8.ofNat (8 - bs.flags % 8)

/-- The bytes that `addr_expand` copies from the string, with the unused bits filled. -/
def BitString.filled (bs : BitString) (fill : UInt8) : Bytes :=
  match bs.data.getLast? with
  | none => []
  | some last =>
    if bs.flags % 8 = 0 then bs.data
    else if fill = 0 then bs.data.dropLast ++ [last &&& ~~~bs.mask]
    else bs.data.dropLast ++ [last ||| bs.mask]

def addrExpand (bs : BitString) (length : Nat) (fill : UInt8) : Option Bytes :=
  if length < bs.data.length then none
  else some (bs.filled fill ++ List.replicate (length - bs.data.length) fill)

def extractMinMax (aor : IPAddressOrRange) (length : Nat) : Option (Bytes × Bytes) :=
  match aor with
  | .addressPrefix bs =>
    match addrExpand bs length 0x00, addrExpand bs length 0xFF with
    | some min, some max => some (min, max)
    | _, _ => none
  | .addressRange bsMin bsMax =>
    match addrExpand bsMin length 0x00, addrExpand bsMax length 0xFF with
    | some min, some max => some (min, max)
    | _, _ => none

/-- The switch on the byte in which the ends of a range differ. -/
def maskPrefixBits (mask : UInt8) : Option Nat :=
  if mask = 0x01 then some 7
  else if mask = 0x03 then some 6
  else if mask = 0x07 then some 5
  else if mask = 0x0F then some 4
  else if mask = 0x1F then some 3
  else if mask = 0x3F then some 2
  else if mask = 0x7F then some 1
  else none

/-- `range_should_be_prefix`, with `none` for -1. The indices of the two loops are the number `i`
of equal bytes at the front and the number `length - 1 - j` of bytes at the end with all bits
open. -/
def rangeShouldBePrefix (min max : Bytes) (length : Nat) : Option Nat :=
  let i := ((min.zip max).takeWhile fun b => b.1 == b.2).length
  let k := ((min.zip max).reverse.takeWhile fun b => b.1 == 0x00 && b.2 == 0xFF).length
  if i + k + 1 < length then none
  else if length < i + k + 1 then some (i * 8)
  else
    let mask := min.getD i 0 ^^^ max.getD i 0
    match maskPrefixBits mask with
    | none => none
    | some j =>
      if min.getD i 0 &&& mask ≠ 0 ∨ max.getD i 0 &&& mask ≠ mask then none
      else some (i * 8 + j)

/-- `IPAddressFamily_cmp` -/
def familyCmp (a b : IPAddressFamily) : Ordering :=
  (memcmp a.addressFamily b.addressFamily).then
    (compare a.addressFamily.length b.addressFamily.length)

/-- `IPAddressFamily_check_len` -/
def familyCheckLen (f : IPAddressFamily) : Bool :=
  2 ≤ f.addressFamily.length && f.addressFamily.length ≤ 3

/-- Subtracting one from an address, last byte first. -/
def decrementRev : Bytes → Bytes
  | [] => []
  | b :: bs => (b - 1) :: if b = 0 then decrementRev bs else bs

def decrement (addr : Bytes) : Bytes := (decrementRev addr.reverse).reverse

def IPAddressOrRange.isRange : IPAddressOrRange → Bool
  | .addressPrefix _ => false
  | .addressRange _ _ => true

/-- The body of the loop over neighbours in `X509v3_addr_is_canonical`. -/
def pairCanonical (length : Nat) (a b : IPAddressOrRange) : Bool :=
  match extractMinMax a length, extractMinMax b length with
  | some (aMin, aMax), some (bMin, bMax) =>
    if memcmp aMin bMin ≠ .lt ∨ memcmp aMin aMax = .gt ∨ memcmp bMin bMax = .gt then false
    else if memcmp aMax (decrement bMin) ≠ .lt then false
    else !(a.isRange && (rangeShouldBePrefix aMin aMax length).isSome)
  | _, _ => false

/-- The check of the last entry, which looks at ranges only. -/
def lastCanonical (length : Nat) (a : IPAddressOrRange) : Bool :=
  if !a.isRange then true
  else
    match extractMinMax a length with
    | none => false
    | some (aMin, aMax) =>
      !(memcmp aMin aMax == .gt || (rangeShouldBePrefix aMin aMax length).isSome)

/-- The check of one `IPAddressOrRanges`. -/
def aorsCanonical (length : Nat) : IPAddressOrRanges → Bool
  | [] => false
  | [a] => lastCanonical length a
  | a :: b :: aors => pairCanonical length a b && aorsCanonical length (b :: aors)

/-- The first loop of `X509v3_addr_is_canonical`. -/
def familiesInOrder : IPAddrBlocks → Bool
  | a :: b :: addr =>
    familyCheckLen a && familyCheckLen b && familyCmp a b == .lt && familiesInOrder (b :: addr)
  | _ => true

def familyCanonical (f : IPAddressFamily) : Bool :=
  match f.ipAddressChoice with
  | .inherit => true
  | .addressesOrRanges aors =>
    familyCheckLen f && aorsCanonical (lengthFromAfi (x509v3AddrGetAfi f)) aors

def x509v3AddrIsCanonical : Option IPAddrBlocks → Bool
  | none => true
  | some addr => familiesInOrder addr && addr.all familyCanonical

def x509v3AddrInherits (addr : IPAddrBlocks) : Bool :=
  addr.any fun f => f.ipAddressChoice == .inherit

/-- The inner loop of `addr_contains`: the parents from the one that contains the child. -/
def seekParent (length : Nat) (cMin cMax : Bytes) : IPAddressOrRanges → Option IPAddressOrRanges
  | [] => none
  | p :: parent =>
    match extractMinMax p length with
    | none => none
    | some (pMin, pMax) =>
      if memcmp pMax cMax = .lt then seekParent length cMin cMax parent
      else if memcmp pMin cMin = .gt then none
      else some (p :: parent)

def addrContains (length : Nat) : IPAddressOrRanges → IPAddressOrRanges → Bool
  | _, [] => true
  | parent, c :: child =>
    match extractMinMax c length with
    | none => false
    | some (cMin, cMax) =>
      match seekParent length cMin cMax parent with
      | none => false
      | some parent => addrContains length parent child

/-- `sk_IPAddressFamily_sort` -/
def familySort (addr : IPAddrBlocks) : IPAddrBlocks :=
  addr.insertionSort fun a b => familyCmp a b ≠ .gt

/-- `sk_IPAddressFamily_find` and the element at the index found: the first one, by binary search
or one after the other. -/
def familyFind (addr : IPAddrBlocks) (f : IPAddressFamily) : Option IPAddressFamily :=
  addr.find? fun g => familyCmp f g == .eq

/-- The body of the loop of `X509v3_addr_subset`. No family inherits. -/
def familySubset (b : IPAddrBlocks) (fa : IPAddressFamily) : Bool :=
  match familyFind b fa with
  | none => false
  | some fb =>
    if !familyCheckLen fa || !familyCheckLen fb then false
    else
      match fb.ipAddressChoice, fa.ipAddressChoice with
      | .addressesOrRanges parent, .addressesOrRanges child =>
        addrContains (lengthFromAfi (x509v3AddrGetAfi fb)) parent child
      | _, _ => false

def x509v3AddrSubset : Option IPAddrBlocks → Option IPAddrBlocks → Bool
  | none, _ => true
  | some _, none => false
  | some a, some b =>
    if x509v3AddrInherits a || x509v3AddrInherits b then false
    else a.all (familySubset (familySort b))

inductive ValidationErr where
  | invalidExtension
  | unnestedResource
  deriving DecidableEq, Repr

/-- What the verification callback answers to an error at a depth. -/
abbrev VerifyCb := ValidationErr → Int → Bool

/-- The loop over the child's families below a certificate without the extension; false ends the
validation. -/
def checkAbsent (unnested : Bool) : IPAddrBlocks → Bool
  | [] => true
  | fc :: child =>
    if !familyCheckLen fc then false
    else if fc.ipAddressChoice ≠ .inherit then unnested
    else checkAbsent unnested child

/-- The loop over the child's families below a certificate with the extension: the families that
the next certificate has to contain. -/
def nestChild (unnested : Bool) (parent : IPAddrBlocks) : IPAddrBlocks → Option IPAddrBlocks
  | [] => some []
  | fc :: child =>
    match familyFind parent fc with
    | none =>
      match fc.ipAddressChoice with
      -- an accepted error leaves the loop
      | .addressesOrRanges _ => if unnested then some (fc :: child) else none
      | .inherit => (nestChild unnested parent child).map (fc :: ·)
    | some fp =>
      if !familyCheckLen fc || !familyCheckLen fp then none
      else
        match fp.ipAddressChoice, fc.ipAddressChoice with
        | .inherit, _ => (nestChild unnested parent child).map (fc :: ·)
        | .addressesOrRanges _, .inherit => (nestChild unnested parent child).map (fp :: ·)
        | .addressesOrRanges aorsP, .addressesOrRanges aorsC =>
          if addrContains (lengthFromAfi (x509v3AddrGetAfi fc)) aorsP aorsC then
            (nestChild unnested parent child).map (fp :: ·)
          else if unnested then (nestChild unnested parent child).map (fc :: ·)
          else none

/-- The walk up the chain in `addr_validate_path_internal`. -/
def walkChain (cb : VerifyCb) (i : Int) : List (Option IPAddrBlocks) → IPAddrBlocks →
    Option IPAddrBlocks
  | [], child => some child
  | x :: chain, child =>
    if !x509v3AddrIsCanonical x && !cb .invalidExtension i then none
    else
      match x with
      | none =>
        if checkAbsent (cb .unnestedResource i) child then walkChain cb (i + 1) chain child
        else none
      | some addr =>
        match nestChild (cb .unnestedResource i) (familySort addr) child with
        | none => none
        | some child => walkChain cb (i + 1) chain child

/-- The trust anchor may not inherit what the chain uses. -/
def checkAnchor (unnested : Bool) (child : IPAddrBlocks) : IPAddrBlocks → Bool
  | [] => true
  | fp :: addr =>
    if !familyCheckLen fp then false
    else if fp.ipAddressChoice = .inherit ∧ (familyFind child fp).isSome ∧ !unnested then false
    else checkAnchor unnested child addr

/-- `addr_validate_path_internal` from the extension to be checked, with the chain above it and
the last certificate. -/
def validateExt (cb : VerifyCb) (i : Int) (ext : IPAddrBlocks) (chain : List (Option IPAddrBlocks))
    (last : Option IPAddrBlocks) : Bool :=
  if !x509v3AddrIsCanonical (some ext) && !cb .invalidExtension i then false
  else
    match walkChain cb (i + 1) chain (familySort ext) with
    | none => false
    | some child =>
      match last with
      | none => true
      | some addr => checkAnchor (cb .unnestedResource (i + 1 + chain.length)) child addr

def x509v3AddrValidatePath (cb : VerifyCb) (chain : List (Option IPAddrBlocks)) : Bool :=
  match chain with
  | [] => false
  | none :: _ => true
  | some ext :: above => validateExt cb 0 ext above (above.getLastD (some ext))

/-- `X509v3_addr_validate_resource_set`: without a context every error ends the validation -/
def x509v3AddrValidateResourceSet (chain : List (Option IPAddrBlocks)) (ext : Option IPAddrBlocks)
    (allowInheritance : Bool) : Bool :=
  match ext with
  | none => true
  | some ext =>
    if chain.isEmpty then false
    else if !allowInheritance && x509v3AddrInherits ext then false
    else validateExt (fun _ _ => false) (-1) ext chain (chain.getLastD none)

end QuicTls.X509
