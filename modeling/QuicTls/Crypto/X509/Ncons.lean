import QuicTls.Crypto.X509.Name
import QuicTls.Crypto.X509.Utl

/-!
# Name constraints (crypto/x509/v3_ncons.c)

Pointers into a string are the parts of the string before and after them. `ASN1_STRING_to_UTF8` and
`ossl_a2ulabel` are parameters.
-/

namespace QuicTls.X509

/-- `X509_V_OK` and `X509_V_ERR_*` -/
inductive VResult where
  | ok | unspecified | outOfMem | permittedViolation | excludedViolation | subtreeMinmax
  | unsupportedConstraintType | unsupportedNameSyntax
  deriving DecidableEq, Repr

structure GeneralSubtree where
  base : GeneralName
  minimum : Option Int
  maximum : Option Int
  deriving DecidableEq, Repr

structure NameConstraints where
  permittedSubtrees : List GeneralSubtree
  excludedSubtrees : List GeneralSubtree
  deriving DecidableEq, Repr

/-- What the matching of names uses from elsewhere. -/
structure NcEnv where
  toUtf8 : AsnString → Option Bytes
  /-- `ossl_a2ulabel` of a string, into a buffer of a size: what is written, if it returns 1 -/
  a2ulabel : Bytes → Nat → Option Bytes

/-- `ia5ncasecmp`, which is used for strings of the same length -/
def ia5ncasecmp : Bytes → Bytes → Int
  | a :: s1, b :: s2 =>
    if a ≠ b then
      let c1 := lower a
      let c2 := lower b
      if c1 = c2 then ia5ncasecmp s1 s2 else if c1 < c2 then -1 else 1
    else ia5ncasecmp s1 s2
  | _, _ => 0

/-- `ia5memrchr`: what is before the last `c` and what is after it -/
def ia5memrchr (c : UInt8) : Bytes → Option (Bytes × Bytes)
  | [] => none
  | b :: rest =>
    match ia5memrchr c rest with
    | some (before, after) => some (b :: before, after)
    | none => if b = c then some ([], rest) else none

/-- `ia5memchr`: what is before the first `c` and what is after it -/
def ia5memchr (c : UInt8) : Bytes → Option (Bytes × Bytes)
  | [] => none
  | b :: rest =>
    if b = c then some ([], rest)
    else (ia5memchr c rest).map fun r => (b :: r.1, r.2)

def ncMinmaxValid (sub : GeneralSubtree) : Bool :=
  sub.maximum.isNone && (sub.minimum = none || sub.minimum = some 0)

variable (env : NcEnv)

def ncDn (nm base : Name) : VResult :=
  match nameCanon env.toUtf8 nm, nameCanon env.toUtf8 base with
  | some nmEnc, some baseEnc =>
    if nmEnc.length < baseEnc.length then .permittedViolation
    else if baseEnc ≠ nmEnc.take baseEnc.length then .permittedViolation
    else .ok
  | _, _ => .outOfMem

def ncDns (dns base : Bytes) : VResult :=
  if base.length = 0 then .ok
  else if dns.length < base.length then .permittedViolation
  else
    let left := dns.take (dns.length - base.length)
    let dnsptr := dns.drop (dns.length - base.length)
    if base.length < dns.length ∧ base.head? ≠ some dot ∧ left.getLast? ≠ some dot then
      .permittedViolation
    else if ia5ncasecmp base dnsptr ≠ 0 then .permittedViolation
    else .ok

def ncEmailEai (emltype : AsnType) (base : Bytes) : VResult :=
  if 0 ∈ base then .unsupportedNameSyntax
  else if emltype.type ≠ vAsn1Utf8String then .unsupportedNameSyntax
  else
    let eml := emltype.value.data
    match ia5memrchr atSign eml with
    | none => .unsupportedNameSyntax
    | some (_, emlhost) =>
      if base.head? = some dot then
        match env.a2ulabel base 255 with
        | none => .unspecified
        | some label =>
          let ulabel := dot :: label
          if ulabel.length < eml.length ∧
              ia5ncasecmp ulabel (eml.drop (eml.length - ulabel.length)) = 0 then .ok
          else .permittedViolation
      else
        match env.a2ulabel base 256 with
        | none => .unspecified
        | some ulabel =>
          if emlhost.length ≠ ulabel.length ∨ ia5ncasecmp ulabel emlhost ≠ 0 then
            .permittedViolation
          else .ok

/-- The end of `nc_email`: the host. -/
def ncEmailHost (emlhost basehost : Bytes) : VResult :=
  if basehost.length ≠ emlhost.length ∨ ia5ncasecmp basehost emlhost ≠ 0 then .permittedViolation
  else .ok

def ncEmail (eml base : Bytes) : VResult :=
  match ia5memrchr atSign eml with
  | none => .unsupportedNameSyntax
  | some (emllocal, emlhost) =>
    match ia5memrchr atSign base with
    | none =>
      if 0 < base.length ∧ base.head? = some dot then
        if base.length < eml.length ∧
            ia5ncasecmp base (eml.drop (eml.length - base.length)) = 0 then .ok
        else .permittedViolation
      else ncEmailHost emlhost base
    | some (baselocal, basehost) =>
      if baselocal ≠ [] then
        if baselocal.length ≠ emllocal.length then .permittedViolation
        else if 0 ∈ baselocal ∨ 0 ∈ emllocal then .unsupportedNameSyntax
        else if baselocal ≠ emllocal then .permittedViolation
        else ncEmailHost emlhost basehost
      else ncEmailHost emlhost basehost

def colon : UInt8 := 0x3A
def slash : UInt8 := 0x2F

/-- The host that `nc_uri` finds. -/
def uriHost (hostptr : Bytes) : Bytes :=
  match ia5memchr colon hostptr with
  | some (before, _) => before
  | none =>
    match ia5memchr slash hostptr with
    | some (before, _) => before
    | none => hostptr

/-- The end of `nc_uri`: the host that was found. -/
def ncHost (host base : Bytes) : VResult :=
  if host.length = 0 then .unsupportedNameSyntax
  else if 0 < base.length ∧ base.head? = some dot then
    if base.length < host.length ∧
        ia5ncasecmp (host.drop (host.length - base.length)) base = 0 then .ok
    else .permittedViolation
  else if base.length ≠ host.length ∨ ia5ncasecmp host base ≠ 0 then .permittedViolation
  else .ok

def ncUri (uri base : Bytes) : VResult :=
  match ia5memchr colon uri with
  | some (_, 0x2F :: 0x2F :: hostptr) => ncHost (uriHost hostptr) base
  | _ => .unsupportedNameSyntax

def ncIpLoop : Bytes → Bytes → Bytes → VResult
  | host :: hostptr, base :: baseptr, mask :: maskptr =>
    if host &&& mask ≠ base &&& mask then .permittedViolation
    else ncIpLoop hostptr baseptr maskptr
  | _, _, _ => .ok

def ncIp (ip base : Bytes) : VResult :=
  if ¬(ip.length = 4 ∨ ip.length = 16) then .unsupportedNameSyntax
  else if ¬(base.length = 8 ∨ base.length = 32) then .unsupportedNameSyntax
  else if ip.length * 2 ≠ base.length then .permittedViolation
  else ncIpLoop ip (base.take ip.length) (base.drop ip.length)

/-- `nc_match_single`. The types of the name and of the base are the same, except that a mailbox
that is an other name is compared with an `rfc822Name`. -/
def ncMatchSingle (effectiveType : GenType) : GeneralName → GeneralName → VResult
  | .otherName o, .rfc822Name b =>
    if effectiveType = .email then ncEmailEai env o.value b.data else .unsupportedConstraintType
  | .directoryName n, .directoryName b => ncDn env n b
  | .dNSName s, .dNSName b => ncDns s.data b.data
  | .rfc822Name s, .rfc822Name b => ncEmail s.data b.data
  | .uniformResourceIdentifier s, .uniformResourceIdentifier b => ncUri s.data b.data
  | .iPAddress s, .iPAddress b => ncIp s.data b.data
  | _, _ => .unsupportedConstraintType

/-- The type that a name is constrained as. -/
def effectiveType : GeneralName → GenType
  | .otherName o => if o.typeId = objSmtpUTF8Mailbox then .email else .otherName
  | gen => gen.type

/-- A subtree that is skipped: it has another type. -/
def ncSkips (gen : GeneralName) (sub : GeneralSubtree) : Bool :=
  effectiveType gen ≠ sub.base.type ||
    match gen, sub.base with
    | .otherName o, .otherName b => effectiveType gen = .otherName && o.typeId ≠ b.typeId
    | _, _ => false

/-- The variable `match` of `nc_match`. -/
inductive NcMatch where
  | untried | tried | matched
  deriving DecidableEq, Repr

/-- The loop of `nc_match` over the permitted subtrees. -/
def permittedLoop (gen : GeneralName) : List GeneralSubtree → NcMatch → Except VResult NcMatch
  | [], found => .ok found
  | sub :: subs, found =>
    if ncSkips gen sub then permittedLoop gen subs found
    else if !ncMinmaxValid sub then .error .subtreeMinmax
    else if found = .matched then permittedLoop gen subs found
    else
      match ncMatchSingle env (effectiveType gen) gen sub.base with
      | .ok => permittedLoop gen subs .matched
      | .permittedViolation => permittedLoop gen subs .tried
      | r => .error r

/-- The loop of `nc_match` over the excluded subtrees. -/
def excludedLoop (gen : GeneralName) : List GeneralSubtree → VResult
  | [] => .ok
  | sub :: subs =>
    if ncSkips gen sub then excludedLoop gen subs
    else if !ncMinmaxValid sub then .subtreeMinmax
    else
      match ncMatchSingle env (effectiveType gen) gen sub.base with
      | .ok => .excludedViolation
      | .permittedViolation => excludedLoop gen subs
      | r => r

def ncMatch (gen : GeneralName) (nc : NameConstraints) : VResult :=
  match permittedLoop env gen nc.permittedSubtrees .untried with
  | .error r => r
  | .ok .tried => .permittedViolation
  | .ok _ => excludedLoop env gen nc.excludedSubtrees

/-- A loop that calls `nc_match` until it fails. -/
def ncMatchAll (nc : NameConstraints) : List GeneralName → VResult
  | [] => .ok
  | gen :: gens =>
    match ncMatch env gen nc with
    | .ok => ncMatchAll nc gens
    | r => r

/-- The loop over the e-mail addresses of the subject. -/
def ncMatchEmails (nc : NameConstraints) : List AsnString → VResult
  | [] => .ok
  | s :: rest =>
    if s.type ≠ vAsn1Ia5String then .unsupportedNameSyntax
    else
      match ncMatch env (.rfc822Name s) nc with
      | .ok => ncMatchEmails nc rest
      | r => r

def nameCheckMax : Nat := 2 ^ 20

/-- There are too many names or constraints to check: `add_lengths` overflows, or the product is
above the limit. -/
def ncTooMany (names subject : Nat) (permitted excluded : Nat) : Bool :=
  2 ^ 31 ≤ subject + names || 2 ^ 31 ≤ permitted + excluded ||
    (0 < subject + names && nameCheckMax / (subject + names) < permitted + excluded)

/-- The names in the subject. -/
def ncSubject (nm : Name) (nc : NameConstraints) : VResult :=
  if nm = [] then .ok
  else
    match ncMatch env (.directoryName nm) nc with
    | .ok => ncMatchEmails env nc (nm.valuesOf objPkcs9EmailAddress)
    | r => r

def nameConstraintsCheck (x : Cert) (nc : NameConstraints) : VResult :=
  let altname := x.altname.getD []
  if ncTooMany altname.length x.subject.length nc.permittedSubtrees.length
      nc.excludedSubtrees.length then .unspecified
  else
    match ncSubject env x.subject nc with
    | .ok => ncMatchAll env nc altname
    | r => r

end QuicTls.X509
