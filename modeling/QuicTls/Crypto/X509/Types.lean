import QuicTls.Ssl.Types

/-!
# Names in certificates (include/openssl/x509v3.h, crypto/x509/x509_local.h)

Object identifiers are the contents of their encoding, so that `OBJ_obj2nid` of one is the NID of
another if they are equal.
-/

namespace QuicTls.X509

abbrev Obj := Bytes

def objCommonName : Obj := [0x55, 0x04, 0x03]
def objPkcs9EmailAddress : Obj := [0x2A, 0x86, 0x48, 0x86, 0xF7, 0x0D, 0x01, 0x09, 0x01]
def objSmtpUTF8Mailbox : Obj := [0x2B, 0x06, 0x01, 0x05, 0x05, 0x07, 0x08, 0x09]

def vAsn1OctetString : Nat := 4
def vAsn1Utf8String : Nat := 12
def vAsn1Ia5String : Nat := 22

/-- `ASN1_STRING` -/
structure AsnString where
  type : Nat
  data : Bytes
  deriving DecidableEq, Repr

/-- `ASN1_TYPE`, with the value as a string -/
structure AsnType where
  type : Nat
  value : AsnString
  deriving DecidableEq, Repr

structure OtherName where
  typeId : Obj
  value : AsnType
  deriving DecidableEq, Repr

/-- `X509_NAME_ENTRY`; entries of one relative distinguished name have the same `set` -/
structure NameEntry where
  object : Obj
  value : AsnString
  set : Nat
  deriving DecidableEq, Repr

abbrev Name := List NameEntry

/-- The values of the attributes of a name that `X509_NAME_get_index_by_NID` finds, in order. -/
def Name.valuesOf (name : Name) (object : Obj) : List AsnString :=
  (name.filter (·.object = object)).map NameEntry.value

inductive GeneralName where
  | otherName (o : OtherName)
  | rfc822Name (s : AsnString)
  | dNSName (s : AsnString)
  | x400Address (s : AsnString)
  | directoryName (n : Name)
  | ediPartyName (s : AsnString)
  | uniformResourceIdentifier (s : AsnString)
  | iPAddress (s : AsnString)
  | registeredID (o : Obj)
  deriving DecidableEq, Repr

/-- The type of a `GENERAL_NAME`. -/
inductive GenType where
  | otherName | email | dns | x400 | dirName | ediParty | uri | ipAdd | rid
  deriving DecidableEq, Repr

def GeneralName.type : GeneralName → GenType
  | .otherName _ => .otherName
  | .rfc822Name _ => .email
  | .dNSName _ => .dns
  | .x400Address _ => .x400
  | .directoryName _ => .dirName
  | .ediPartyName _ => .ediParty
  | .uniformResourceIdentifier _ => .uri
  | .iPAddress _ => .ipAdd
  | .registeredID _ => .rid

/-- A certificate: its subject and its subject alternative names, if it has the extension. -/
structure Cert where
  subject : Name
  altname : Option (List GeneralName)
  deriving DecidableEq, Repr

/-- A letter in lower case, in ASCII. -/
def lower (c : UInt8) : UInt8 := if 0x41 ≤ c ∧ c ≤ 0x5A then c + 0x20 else c

end QuicTls.X509
