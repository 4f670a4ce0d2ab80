import QuicTls.Crypto.Time

/-!
# The text of times (crypto/asn1/a_time.c)

The text is a list of bytes, and each function returns what is left of it.
-/

namespace QuicTls.Asn1

open Time (Tm opensslGmtimeAdj)

inductive TimeType
  | utctime
  | generalizedtime
  | other
  deriving DecidableEq

/-- An `ASN1_TIME`; `strict` is the flag `ASN1_STRING_FLAG_X509_TIME`. -/
structure Asn1Time where
  type : TimeType
  strict : Bool
  data : Bytes

/-- `struct tm` with the fields of `determine_days` -/
structure DayTm extends Tm where
  tmWday : Int
  tmYday : Int
  deriving DecidableEq

def leapYear (year : Int) : Int :=
  if year.tmod 400 = 0 ∨ year.tmod 100 ≠ 0 ∧ year.tmod 4 = 0 then 1 else 0

def ydays : List Int := [0, 31, 59, 90, 120, 151, 181, 212, 243, 273, 304, 334]

def determineDays (tm : DayTm) : DayTm :=
  let y := tm.tmYear + 1900
  let m := tm.tmMon
  let d := tm.tmMday
  let yday := ydays.getD m.toNat 0 + d - 1
  let (yday, m, y) := if m ≥ 2 then (yday + leapYear y, m + 2, y) else (yday, m + 14, y - 1)
  let c := y.tdiv 100
  let y := y.tmod 100
  { tm with
    tmYday := yday
    tmWday := (d + (13 * m).tdiv 5 + y + y.tdiv 4 + c.tdiv 4 + 5 * c + 6).tmod 7 }

/-- The tables `min` and `max` -/
def limits : List (Int × Int) :=
  [(0, 99), (0, 99), (1, 12), (1, 31), (0, 23), (0, 59), (0, 59), (0, 12), (0, 59)]

def mdays : List Int := [31, 28, 31, 30, 31, 30, 31, 31, 30, 31, 30, 31]

/-- `ossl_ascii_isdigit` -/
def isdigit (c : UInt8) : Bool := 0x30 ≤ c ∧ c ≤ 0x39

/-- A field of two digits, within its limits. -/
def readField (i : Nat) : Bytes → Option (Int × Bytes)
  | c :: c' :: a =>
    if isdigit c ∧ isdigit c' then
      let n : Int := (c.toNat - 0x30) * 10 + (c'.toNat - 0x30)
      if n < (limits.getD i 0).1 ∨ n > (limits.getD i 0).2 then none else some (n, a)
    else none
  | _ => none

/-- The `switch` over the fields. -/
def setField (type : TimeType) (tm : DayTm) (n : Int) : Nat → Option DayTm
  | 0 => some { tm with tmYear := n * 100 - 1900 }
  | 1 =>
    if type = .utctime then some { tm with tmYear := if n < 50 then n + 100 else n }
    else some { tm with tmYear := tm.tmYear + n }
  | 2 => some { tm with tmMon := n - 1 }
  | 3 =>
    let md := if tm.tmMon = 1 then mdays.getD 1 0 + leapYear (tm.tmYear + 1900)
      else mdays.getD tm.tmMon.toNat 0
    if n > md then none else some (determineDays { tm with tmMday := n })
  | 4 => some { tm with tmHour := n }
  | 5 => some { tm with tmMin := n }
  | _ => some { tm with tmSec := n }

/-- `'Z'`, `'+'` or `'-'` -/
def isZone (c : UInt8) : Bool := c = 0x5a ∨ c = 0x2b ∨ c = 0x2d

/-- The loop over the fields, with the last `k` still to read; the seconds may be left out. -/
def readFields (d : Asn1Time) : Nat → DayTm → Bytes → Option (DayTm × Bytes)
  | 0, tm, a => some (tm, a)
  | k + 1, tm, a =>
    if d.strict = false ∧ k = 0 ∧ a.head?.any isZone then some (tm, a)
    else
      (readField (6 - k) a).bind fun x =>
        if x.2 = [] then none
        else (setField d.type tm x.1 (6 - k)).bind fun tm => readFields d k tm x.2

/-- The fractional seconds, which are not kept. -/
def readFraction (d : Asn1Time) (a : Bytes) : Option Bytes :=
  if d.type = .generalizedtime ∧ a.head? = some 0x2e then
    let rest := a.tail.dropWhile isdigit
    if d.strict ∨ rest = a.tail ∨ rest = [] then none else some rest
  else some a

/-- The zone: what has to be added to the time, in seconds. -/
def readZone (strict : Bool) : Bytes → Option Int
  | [] => none
  | c :: a =>
    if c = 0x5a then if a = [] then some 0 else none
    else if strict = false ∧ (c = 0x2b ∨ c = 0x2d) then
      let offsign := if c = 0x2d then 1 else -1
      if a.length ≠ 4 then none
      else
        (readField 7 a).bind fun h =>
          (readField 8 h.2).map fun m => (h.1 * 3600 + m.1 * 60) * offsign
    else none

/-- The fields of the text, and the offset. -/
def readTime (d : Asn1Time) : Option (DayTm × Int) :=
  if d.type = .other then none
  else if d.data.length < (if d.type = .utctime then 13 else 15) then none
  else
    (readFields d (if d.type = .utctime then 6 else 7) ⟨⟨0, 0, 0, 0, 0, 0⟩, 0, 0⟩ d.data).bind
      fun x => (readFraction d x.2).bind fun a => (readZone d.strict a).map fun s => (x.1, s)

/-- `ossl_asn1_time_to_tm`; without a `tm` to fill, the offset is not evaluated -/
def asn1TimeToTm (tm : Bool) (d : Asn1Time) : Option DayTm :=
  (readTime d).bind fun x =>
    if tm = false ∨ x.2 = 0 then some x.1
    else (opensslGmtimeAdj x.1.toTm 0 x.2).map fun adj => { x.1 with toTm := adj }

def asn1TimeCheck (d : Asn1Time) : Bool := d.type ≠ .other ∧ (asn1TimeToTm false d).isSome

end QuicTls.Asn1
