import QuicTls.Crypto.X509.Types
import QuicTls.Theory.Der

/-!
# The canonical encoding of names (crypto/x509/x_name.c)

The data of an `ASN1_STRING` are the contents octets of its encoding. `ASN1_STRING_to_UTF8` is a
parameter. Allocations succeed.
-/

namespace QuicTls.X509

/-- The types of strings that are brought into canonical form. -/
def maskCanon : List Nat := [12, 30, 28, 19, 20, 22, 26]

def isSpace (c : UInt8) : Bool := c = 0x20 ∨ (0x09 ≤ c ∧ c ≤ 0x0D)

/-- Leading and trailing spaces are ignored. -/
def trimSpaces (s : Bytes) : Bytes :=
  ((s.dropWhile isSpace).reverse.dropWhile isSpace).reverse

/-- The loop of `asn1_string_canon`; `skipping` after a space. -/
def collapse : Bytes → Bool → Bytes
  | [], _ => []
  | c :: rest, skipping =>
    if 0x80 ≤ c then c :: collapse rest false
    else if isSpace c then
      if skipping then collapse rest true else 0x20 :: collapse rest true
    else lower c :: collapse rest false

variable (toUtf8 : AsnString → Option Bytes)

def asn1StringCanon (s : AsnString) : Option AsnString :=
  if s.type ∈ maskCanon then
    (toUtf8 s).map fun data => ⟨vAsn1Utf8String, collapse (trimSpaces data) false⟩
  else some s

/-- An attribute in canonical form. -/
structure CanonAttr where
  object : Obj
  tag : UInt8
  value : Bytes
  deriving DecidableEq, Repr

/-- The identifier octet of a type; sequences and sets are constructed. -/
def identifier (type : Nat) : UInt8 :=
  if type = 16 ∨ type = 17 then UInt8.ofNat (0x20 + type) else UInt8.ofNat type

def canonEntry (e : NameEntry) : Option CanonAttr :=
  (asn1StringCanon toUtf8 e.value).map fun v => ⟨e.object, identifier v.type, v.data⟩

/-- The `intname` of `x509_name_canon`: the relative distinguished names. -/
def intname (name : Name) : Option (List (List CanonAttr)) :=
  (name.splitBy fun a b => a.set == b.set).mapM fun rdn => rdn.mapM (canonEntry toUtf8)

/-- The encoding of an `X509_NAME_ENTRY`. -/
def CanonAttr.encode (a : CanonAttr) : Bytes := tlv 0x30 (tlv 0x06 a.object ++ tlv a.tag a.value)

/-- `der_cmp` is not positive. -/
def derCmpLe : Bytes → Bytes → Bool
  | [], _ => true
  | _ :: _, [] => false
  | a :: as, b :: bs => a < b || (a = b && derCmpLe as bs)

/-- The encodings of the attributes, in the order of `asn1_set_seq_out`. -/
def sortedAttrs (rdn : List CanonAttr) : List Bytes :=
  (rdn.map CanonAttr.encode).mergeSort derCmpLe

/-- The encoding of a set of `X509_NAME_ENTRY`. -/
def encodeSet (attrs : List Bytes) : Bytes := tlv 0x31 attrs.flatten

/-- `i2d_name_canon`, which fails when the length does not fit an `int` -/
def i2dNameCanon (rdns : List (List CanonAttr)) : Option Bytes :=
  let out := rdns.flatMap fun rdn => encodeSet (sortedAttrs rdn)
  if out.length < 2 ^ 31 - 1 then some out else none

/-- `x509_name_canon`: the canonical encoding -/
def nameCanon (name : Name) : Option Bytes :=
  if name = [] then some [] else (intname toUtf8 name).bind i2dNameCanon

end QuicTls.X509
