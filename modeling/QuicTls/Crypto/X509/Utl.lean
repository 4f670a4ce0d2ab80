import Mathlib.Algebra.Order.Ring.Int
import QuicTls.Crypto.X509.Types

/-!
# Checking the name of a peer (crypto/x509/v3_utl.c)

A `GENERAL_NAME` has a union of pointers. What is read through a member that is not the one of the
name's type is a parameter, and every read of the union is noted.
-/

namespace QuicTls.X509

/-- `X509_CHECK_FLAG_*` -/
structure CheckFlags where
  alwaysCheckSubject : Bool
  noWildcards : Bool
  noPartialWildcards : Bool
  multiLabelWildcards : Bool
  singleLabelSubdomains : Bool
  neverCheckSubject : Bool
  dotSubdomains : Bool
  deriving DecidableEq, Repr

def dot : UInt8 := 0x2E
def star : UInt8 := 0x2A
def hyphen : UInt8 := 0x2D
def atSign : UInt8 := 0x40

/-! ## Comparing names -/

/-- The loop of `skip_prefix`. -/
def skipLoop (singleLabel : Bool) (subjectLen : Nat) : Bytes → Bytes
  | [] => []
  | c :: rest =>
    if subjectLen < rest.length + 1 ∧ c ≠ 0 ∧ ¬(singleLabel ∧ c = dot) then
      skipLoop singleLabel subjectLen rest
    else c :: rest

def skipPrefix (pattern : Bytes) (subjectLen : Nat) (flags : CheckFlags) : Bytes :=
  if !flags.dotSubdomains then pattern
  else
    let rest := skipLoop flags.singleLabelSubdomains subjectLen pattern
    if rest.length = subjectLen then rest else pattern

/-- The loop of `equal_nocase`. The pattern must not contain NUL characters. -/
def nocaseLoop : Bytes → Bytes → Bool
  | l :: pattern, r :: subject =>
    if l = 0 then false
    else if l ≠ r ∧ lower l ≠ lower r then false
    else nocaseLoop pattern subject
  | _, _ => true

def equalNocase (pattern subject : Bytes) (flags : CheckFlags) : Bool :=
  let pattern := skipPrefix pattern subject.length flags
  if pattern.length ≠ subject.length then false else nocaseLoop pattern subject

def equalCase (pattern subject : Bytes) (flags : CheckFlags) : Bool :=
  let pattern := skipPrefix pattern subject.length flags
  if pattern.length ≠ subject.length then false else pattern = subject

def noFlags : CheckFlags := ⟨false, false, false, false, false, false, false⟩

/-- The loop of `equal_email`, down from an index: where it stops, none if the domains differ. -/
def emailLoop (a b : Bytes) : Nat → Option Nat
  | 0 => some 0
  | i + 1 =>
    if a.getD i 0 = atSign ∨ b.getD i 0 = atSign then
      if equalNocase (a.drop i) (b.drop i) noFlags then some i else none
    else emailLoop a b i

def equalEmail (a b : Bytes) (_flags : CheckFlags) : Bool :=
  if a.length ≠ b.length then false
  else
    match emailLoop a b a.length with
    | none => false
    | some i =>
      let i := if i = 0 then a.length else i
      equalCase (a.take i) (b.take i) noFlags

/-- `HAS_CASE_PREFIX(s, "xn--")`, with the check of the length before it -/
def hasIdna (s : Bytes) : Bool := (s.take 4).map lower = [0x78, 0x6E, 0x2D, 0x2D]

def isAlnum (c : UInt8) : Bool :=
  (0x61 ≤ c ∧ c ≤ 0x7A) ∨ (0x41 ≤ c ∧ c ≤ 0x5A) ∨ (0x30 ≤ c ∧ c ≤ 0x39)

def wildcardMatch (pre suf subject : Bytes) (flags : CheckFlags) : Bool :=
  if subject.length < pre.length + suf.length then false
  else if !equalNocase pre (subject.take pre.length) flags then false
  else
    let wildcard := (subject.drop pre.length).take (subject.length - suf.length - pre.length)
    let wildcardEnd := subject.drop (subject.length - suf.length)
    if !equalNocase wildcardEnd suf flags then false
    else
      -- the wildcard makes up the entire first label
      let whole := pre.length = 0 ∧ suf.head? = some dot
      let allowMulti := whole ∧ flags.multiLabelWildcards
      if whole ∧ wildcard = [] then false
      else if ¬whole ∧ hasIdna subject then false
      else if wildcard = [star] then true
      else wildcard.all fun c => isAlnum c ∨ c = hyphen ∨ (allowMulti ∧ c = dot)

/-- The state of a label in `valid_star`. -/
structure LabelState where
  start : Bool
  hyphen : Bool
  idna : Bool
  deriving DecidableEq, Repr

def labelStart : LabelState := ⟨true, false, false⟩

/-- The loop of `valid_star`, none where it returns `NULL`. -/
def validStarLoop (flags : CheckFlags) : Bytes → Nat → LabelState → Nat → Option Nat →
    Option (LabelState × Nat × Option Nat)
  | [], _, state, dots, found => some (state, dots, found)
  | c :: rest, i, state, dots, found =>
    if c = star then
      let atstart := state.start
      let atend := rest.isEmpty || rest.head? = some dot
      if found.isSome ∨ state.idna ∨ dots ≠ 0 then none
      else if flags.noPartialWildcards ∧ (!atstart ∨ !atend) then none
      else if !atstart ∧ !atend then none
      else validStarLoop flags rest (i + 1) { state with start := false } dots (some i)
    else if isAlnum c then
      let idna := state.idna || (state.start && hasIdna (c :: rest))
      validStarLoop flags rest (i + 1) ⟨false, false, idna⟩ dots found
    else if c = dot then
      if state.hyphen ∨ state.start then none
      else validStarLoop flags rest (i + 1) labelStart (dots + 1) found
    else if c = hyphen then
      if state.start then none
      else validStarLoop flags rest (i + 1) { state with hyphen := true } dots found
    else none

/-- `valid_star`: the index of the star -/
def validStar (p : Bytes) (flags : CheckFlags) : Option Nat :=
  match validStarLoop flags p 0 labelStart 0 none with
  | none => none
  | some (state, dots, found) => if state.start ∨ state.hyphen ∨ dots < 2 then none else found

def equalWildcard (pattern subject : Bytes) (flags : CheckFlags) : Bool :=
  let found :=
    if !(1 < subject.length ∧ subject.head? = some dot) then validStar pattern flags else none
  match found with
  | none => equalNocase pattern subject flags
  | some i => wildcardMatch (pattern.take i) (pattern.drop (i + 1)) subject flags

/-! ## The check -/

/-- The pointers of the union of a `GENERAL_NAME` that the check reads. -/
inductive Member where
  | otherName | rfc822Name | dNSName | iPAddress
  deriving DecidableEq, Repr

/-- What the check is run in: `ASN1_STRING_to_UTF8`, the string that the memory of an `OTHERNAME`
is when it is read as an `ASN1_STRING`, and whether `OPENSSL_strndup` succeeds. -/
structure CheckEnv where
  toUtf8 : AsnString → Option Bytes
  punned : OtherName → AsnString
  strndup : Bool

/-- The kinds of check. -/
inductive CheckType where
  | email | dns | ip
  deriving DecidableEq, Repr

def CheckType.genType : CheckType → GenType
  | .email => .email
  | .dns => .dns
  | .ip => .ipAdd

def CheckType.member : CheckType → Member
  | .email => .rfc822Name
  | .dns => .dNSName
  | .ip => .iPAddress

/-- What the beginning of `do_x509_check` sets up. -/
structure Check where
  type : CheckType
  flags : CheckFlags
  equal : Bytes → Bytes → CheckFlags → Bool
  altType : Nat
  cnid : Option Obj
  chk : Bytes
  peername : Bool

/-- The beginning of `do_x509_check`. -/
def setup (type : CheckType) (chk : Bytes) (chklen : Nat) (flags : CheckFlags) (peername : Bool) :
    Check :=
  let flags := { flags with dotSubdomains := false }
  let value := if chklen = 0 then chk.takeWhile (· ≠ 0) else chk.take chklen
  match type with
  | .email => ⟨type, flags, equalEmail, vAsn1Ia5String, some objPkcs9EmailAddress, value, peername⟩
  | .dns =>
    let flags := { flags with dotSubdomains := 1 < chklen ∧ chk.head? = some dot }
    let equal := if flags.noWildcards then equalNocase else equalWildcard
    ⟨type, flags, equal, vAsn1Ia5String, some objCommonName, value, peername⟩
  | .ip => ⟨type, flags, equalCase, vAsn1OctetString, none, value, peername⟩

variable (env : CheckEnv)

/-- The end of `do_check_string`: the name of the peer is returned when it matches. -/
def withPeername (c : Check) (equal : Bool) (name : Bytes) : Int × Option Bytes :=
  if equal then
    if c.peername then if env.strndup then (1, some name) else (-1, none) else (1, none)
  else (0, none)

/-- `do_check_string`; `cmpType` is none where the source passes zero or less -/
def doCheckString (c : Check) (a : AsnString) (cmpType : Option Nat) : Int × Option Bytes :=
  if a.data = [] then (0, none)
  else
    match cmpType with
    | some t =>
      if t ≠ a.type then (0, none)
      else if t = vAsn1Ia5String then withPeername env c (c.equal a.data c.chk c.flags) a.data
      else
        withPeername env c
          ((a.data.length : Int) = (c.chk.length : Int).bmod (2 ^ 32) ∧ a.data = c.chk) a.data
    | none =>
      match env.toUtf8 a with
      | none => (-1, none)
      | some astr => withPeername env c (c.equal astr c.chk c.flags) astr

/-- The string that is read through `rfc822Name`, `dNSName` or `iPAddress`. The check does so for
names with a string and for other names. -/
def GeneralName.read : GeneralName → AsnString
  | .rfc822Name s | .dNSName s | .iPAddress s => s
  | .x400Address s | .ediPartyName s | .uniformResourceIdentifier s => s
  | .otherName o => env.punned o
  | .directoryName _ | .registeredID _ => ⟨0, []⟩

/-- The variables of the loop over the names. -/
structure SanState where
  sanPresent : Bool
  rv : Int
  peername : Option Bytes
  /-- the reads of the union so far -/
  reads : List (GeneralName × Member)
  deriving DecidableEq, Repr

def sanInit : SanState := ⟨false, 0, none, []⟩

/-- The end of the loop's body: the name is read through the member of the kind of check. -/
def sanCheck (c : Check) (st : SanState) (gen : GeneralName) : SanState :=
  let r := doCheckString env c (gen.read env) (some c.altType)
  ⟨true, r.1, r.2, st.reads ++ [(gen, c.type.member)]⟩

/-- The body of the loop over the names. -/
def sanStep (c : Check) (st : SanState) (gen : GeneralName) : SanState :=
  match gen, c.type with
  | .otherName o, .email =>
    let st := { st with reads := st.reads ++ [(gen, .otherName)] }
    if o.typeId = objSmtpUTF8Mailbox then
      if o.value.type = vAsn1Utf8String then
        let r := doCheckString env c o.value.value none
        if r.1 ≠ 0 then { st with sanPresent := true, rv := r.1, peername := r.2 }
        else sanCheck env c st gen
      else sanCheck env c st gen
    else st
  | gen, type =>
    if gen.type ≠ type.genType ∧ gen.type ≠ .otherName then st else sanCheck env c st gen

/-- The loop over the names. -/
def sanLoop (c : Check) : List GeneralName → SanState → SanState
  | [], st => st
  | gen :: gens, st =>
    let st := sanStep env c st gen
    if st.rv ≠ 0 then st else sanLoop c gens st

/-- The loop over the attributes of the subject. -/
def subjectLoop (c : Check) : List AsnString → Int × Option Bytes
  | [] => (0, none)
  | str :: rest =>
    let r := doCheckString env c str none
    if r.1 ≠ 0 then r else subjectLoop c rest

/-- The result of a check, with the name that matched and the reads of the union. -/
structure CheckResult where
  rv : Int
  peername : Option Bytes
  reads : List (GeneralName × Member)
  deriving DecidableEq, Repr

/-- The end of `do_x509_check`: the subject. -/
def checkSubject (c : Check) (x : Cert) (reads : List (GeneralName × Member)) : CheckResult :=
  match c.cnid with
  | none => ⟨0, none, reads⟩
  | some cnid =>
    if c.flags.neverCheckSubject then ⟨0, none, reads⟩
    else
      let r := subjectLoop env c (x.subject.valuesOf cnid)
      ⟨r.1, r.2, reads⟩

def doX509Check (x : Cert) (c : Check) : CheckResult :=
  match x.altname with
  | none => checkSubject env c x []
  | some gens =>
    let st := sanLoop env c gens sanInit
    if st.rv ≠ 0 then ⟨st.rv, st.peername, st.reads⟩
    else if st.sanPresent ∧ !c.flags.alwaysCheckSubject then ⟨0, none, st.reads⟩
    else checkSubject env c x st.reads

/-- The length of the value for `X509_check_host` and `X509_check_email`. Embedded NULs are
disallowed, except as the last character of a string of length 2 or more. -/
def checkedLength (chk : Bytes) (chklen : Nat) : Option Nat :=
  if chklen = 0 then some (chk.takeWhile (· ≠ 0)).length
  else if 0 ∈ chk.take (if 1 < chklen then chklen - 1 else chklen) then none
  else if 1 < chklen ∧ chk.getD (chklen - 1) 1 = 0 then some (chklen - 1)
  else some chklen

variable (type : CheckType) (env : CheckEnv) (x : Cert) (chk : Option Bytes) (chklen : Nat)
  (flags : CheckFlags) (peername : Bool)

/-- The common part of `X509_check_host` and `X509_check_email`. -/
def x509CheckString : CheckResult :=
  match chk with
  | none => ⟨-2, none, []⟩
  | some chk =>
    match checkedLength chk chklen with
    | none => ⟨-2, none, []⟩
    | some chklen => doX509Check env x (setup type chk chklen flags peername)

def x509CheckHost := x509CheckString .dns

def x509CheckEmail : CheckResult :=
  x509CheckString .email env x chk chklen flags false

def x509CheckIp : CheckResult :=
  match chk with
  | none => ⟨-2, none, []⟩
  | some chk => doX509Check env x (setup .ip chk chklen flags false)

/-- The three checks. -/
def x509Check : CheckResult :=
  match type with
  | .dns => x509CheckHost env x chk chklen flags peername
  | .email => x509CheckEmail env x chk chklen flags
  | .ip => x509CheckIp env x chk chklen flags

end QuicTls.X509
