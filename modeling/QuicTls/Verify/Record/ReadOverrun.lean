import QuicTls.Theory.Except
import QuicTls.Verify.Record.GetRecord
import Mathlib.Data.Set.Basic

/-!
# When the body of a record fits into the read buffer

A record is read behind the alignment of the buffer. `AlignFits` is the room that the longest one
needs (`read_overrun_unreachable_iff`).
-/

namespace QuicTls.Record.Read

open List

variable {cfg : Config} {isFirstRecord : Bool} {packet : Bytes} {thisrr : RecHeader} {len : Nat}
  {rl : Layer ReadBuffer}

/-! ### Lengths that pass the checks -/

/-- The longest record that `validate_record_header` accepts. -/
def Config.maxLength (cfg : Config) : Nat :=
  match cfg.meth with
  | .any _ => ssl3RtMaxPlainLength
  | .tls1 _ =>
    if cfg.compctx then ssl3RtMaxEncryptedLength
    else ssl3RtMaxEncryptedLength - ssl3RtMaxCompressedOverhead
  | .tls13 => ssl3RtMaxTls13EncryptedLength

theorem validateRecordHeader_length
    (h : validateRecordHeader cfg isFirstRecord packet thisrr = .ok ()) :
    thisrr.length ≤ cfg.maxLength := by
  rw [validateRecordHeader] at h
  rw [Config.maxLength]
  cases hmeth : cfg.meth with
  | any version =>
    rw [hmeth] at h
    obtain ⟨_, _, h⟩ := bind_eq_ok.1 h
    exact not_lt.1 (ok_of_check h).1
  | tls1 version =>
    rw [hmeth] at h
    obtain ⟨_, h⟩ := ok_of_check h
    exact not_lt.1 (ok_of_check h).1
  | tls13 =>
    rw [hmeth] at h
    obtain ⟨_, h⟩ := ok_of_check h
    obtain ⟨_, h⟩ := ok_of_check h
    exact not_lt.1 (ok_of_check h).1

theorem RecHeader.more_le_length (thisrr : RecHeader) : thisrr.more ≤ thisrr.length := by
  rw [more, ssl2RtHeaderLength, ssl3RtHeaderLength]
  split <;> omega

theorem parseHeader_more (h : parseHeader cfg isFirstRecord len packet = .ok thisrr) :
    thisrr.more ≤ len - ssl3RtHeaderLength := by
  rw [parseHeader.eq_def] at h
  split at h
  · dsimp only at h
    split at h
    · obtain ⟨hle, h⟩ := ok_of_check h
      cases h
      rw [RecHeader.more, if_pos rfl]
      rw [ssl2RtHeaderLength, ssl3RtHeaderLength] at *
      dsimp only at hle ⊢
      omega
    · obtain ⟨hne, h⟩ := ok_of_check h
      obtain ⟨hle, h⟩ := ok_of_check h
      cases h
      rw [RecHeader.more, if_neg hne]
      exact not_lt.1 hle
  · cases h

theorem checkHeader_ok (h : checkHeader cfg isFirstRecord len packet = .ok thisrr) :
    parseHeader cfg isFirstRecord len packet = .ok thisrr ∧
      validateRecordHeader cfg isFirstRecord packet thisrr = .ok () := by
  rw [checkHeader] at h
  split at h
  · cases h
  rename_i hparse
  split at h
  · cases h
  rename_i hvalid
  cases h
  exact ⟨hparse, hvalid⟩

theorem checkHeader_more (h : checkHeader cfg isFirstRecord len packet = .ok thisrr) :
    thisrr.more ≤ cfg.maxLength ∧ thisrr.more ≤ len - ssl3RtHeaderLength := by
  obtain ⟨hparse, hvalid⟩ := checkHeader_ok h
  exact ⟨thisrr.more_le_length.trans (validateRecordHeader_length hvalid), parseHeader_more hparse⟩

theorem checkHeader_error {r : Raised} (h : checkHeader cfg isFirstRecord len packet = .error r) :
    some r ≠ some overrun := by
  rw [checkHeader] at h
  rintro ⟨⟩
  split at h
  · exact nomatch h
  · split at h <;> exact nomatch h

/-! ### The first record of a call -/

/-- No record that passes the checks is too long for a buffer at this address. -/
def AlignFits (cfg : Config) (addr : Nat) : Prop :=
  readAlign addr = 0 ∨ cfg.maxLength + ssl3RtHeaderLength + readAlign addr ≤ readBufferLen cfg

instance (cfg : Config) (addr : Nat) : Decidable (AlignFits cfg addr) :=
  inferInstanceAs (Decidable (_ ∨ _))

/-- A layer between two calls. -/
inductive Suspended (cfg : Config) (S : Set Nat) (rl : Layer (Option ReadBuffer)) : Prop where
  | header (rstate : rl.rstate = .readHeader)
      (idle : ∀ rb ∈ rl.rbuf, rb.Idle (readBufferLen cfg) ∧ rb.addr ∈ S)
  | body (rl' : Layer ReadBuffer) (eq : rl = rl'.keep) (ready : AtBody cfg rl'.rr0 rl')
      (front : rl'.packet = readAlign rl'.rbuf.addr) (addr : rl'.rbuf.addr ∈ S)

variable {S : Set Nat}

theorem Suspended.ready {rl : Layer (Option ReadBuffer)} (h : Suspended cfg S rl) {addr : Nat}
    (haddr : addr ∈ S) :
    Ready cfg { rl with rbuf := rl.rbuf.getD (tlsSetupReadBuffer cfg addr) } ∧
      (rl.rbuf.getD (tlsSetupReadBuffer cfg addr)).addr ∈ S := by
  cases h with
  | header hstate hidle =>
    cases hrb : rl.rbuf with
    | none =>
      refine ⟨.header hstate ⟨length_replicate, Nat.zero_le _, .inl rfl⟩, haddr⟩
    | some rb =>
      obtain ⟨hidle, hS⟩ := hidle rb hrb
      exact ⟨.header hstate hidle, hS⟩
  | body rl' heq hbody hfront hS =>
    subst heq
    exact ⟨.body hbody hfront, hS⟩

/-- How a step of a call may end. -/
def Safe (cfg : Config) (S : Set Nat) {α : Type} (Q : α → Layer ReadBuffer → Prop) : Out α → Prop
  | .ok a rl _ _ => Q a rl
  | .failed rl _ _ ret raised => raised ≠ some overrun ∧ (ret ≠ .fatal → Suspended cfg S rl)

theorem Safe.bind {α β : Type} {Q : α → Layer ReadBuffer → Prop}
    {R : β → Layer ReadBuffer → Prop} {o : Out α}
    {f : α → Layer ReadBuffer → Io → List BioRead → Out β} (h : Safe cfg S Q o)
    (hf : ∀ a rl io results, Q a rl → Safe cfg S R (f a rl io results)) :
    Safe cfg S R (o.bind f) := by
  cases o with
  | ok a rl io results => exact hf a rl io results h
  | failed rl io results ret raised => exact h

/-- A layer between two records. -/
structure Between (cfg : Config) (S : Set Nat) (rl : Layer ReadBuffer) : Prop where
  rstate : rl.rstate = .readHeader
  isFirstRecord : rl.isFirstRecord = false
  idle : rl.rbuf.Idle (readBufferLen cfg)
  addr : rl.rbuf.addr ∈ S

/-- The body is in the buffer, or it is that of the first record and there is room for it. -/
def BodyFits (cfg : Config) (S : Set Nat) (thisrr : RecHeader) (rl : Layer ReadBuffer) : Prop :=
  AtBody cfg thisrr rl ∧ rl.rbuf.addr ∈ S ∧
    (thisrr.more ≤ rl.rbuf.left ∨ rl.rr0 = thisrr ∧ rl.packet = readAlign rl.rbuf.addr)

theorem safe_getHeader (h : Ready cfg rl) (haddr : rl.rbuf.addr ∈ S) (io : Io)
    (results : List BioRead) : Safe cfg S (BodyFits cfg S) (getHeader cfg true rl io results) := by
  have hspec := getHeader_spec h io results
  cases hout : getHeader cfg true rl io results with
  | ok thisrr rl' io' results' =>
    rw [hout] at hspec
    obtain ⟨hbody, hfront, hrr0, haddr', _⟩ := hspec
    exact ⟨hbody, haddr' ▸ haddr, .inr ⟨hrr0, hfront⟩⟩
  | failed rl' io' results' ret raised =>
    rw [hout] at hspec
    rcases hspec with ⟨_, hraised, hstate, _, hidle, _⟩ | ⟨hret, r, _, _, hraised, _, _, hcheck⟩
    · refine ⟨hraised, fun _ => .header hstate ?_⟩
      intro rb hrb
      obtain ⟨hidle, haddr', _⟩ := hidle rb hrb
      exact ⟨hidle, haddr' ▸ haddr⟩
    · refine ⟨?_, fun hne => absurd hret hne⟩
      rw [hraised]
      exact checkHeader_error hcheck

/-- The body of the first record is read from behind the header at the front of the buffer. -/
theorem AtBody.more_fits (h : AtBody cfg thisrr rl) (hfront : rl.packet = readAlign rl.rbuf.addr)
    (hfits : AlignFits cfg rl.rbuf.addr) : rl.rbuf.offset + thisrr.more ≤ readBufferLen cfg := by
  have hlen := le_readBufferLen cfg
  obtain ⟨hmax, hroom⟩ := checkHeader_more h.header
  rw [h.offset]
  rw [AlignFits, ssl3RtHeaderLength] at hfits
  rw [ssl3RtHeaderLength] at hroom ⊢
  omega

/-- Only the first record may have another length than the one in its fourth and fifth byte. -/
theorem checkHeader_later {b0 b1 b2 b3 b4 : UInt8}
    (h : checkHeader cfg false len [b0, b1, b2, b3, b4] = .ok thisrr) :
    thisrr.more = b3.toNat * 256 + b4.toNat := by
  obtain ⟨hparse, _⟩ := checkHeader_ok h
  rw [parseHeader] at hparse
  dsimp only at hparse
  rw [if_neg (fun hv2 => nomatch hv2.2.1)] at hparse
  obtain ⟨hne, hparse⟩ := ok_of_check hparse
  cases (ok_of_check hparse).2
  rw [RecHeader.more, if_neg hne]

/-- A further header is read when its whole record is in the buffer. -/
theorem safe_getHeader_waiting (h : Between cfg S rl)
    (hwaiting : tlsRecordAppDataWaiting rl.rbuf = true) (io : Io) (results : List BioRead) :
    Safe cfg S (BodyFits cfg S) (getHeader cfg false rl io results) := by
  have hlen := le_readBufferLen cfg
  have hfits := h.idle.fits
  have hlength := h.idle.length
  rw [tlsRecordAppDataWaiting] at hwaiting
  split at hwaiting
  · rename_i b0 b1 b2 b3 b4 tail hslice
    have hleft := of_decide_eq_true hwaiting
    rw [ssl3RtHeaderLength] at hleft
    have hleft5 : 5 ≤ rl.rbuf.left := by omega
    have hspec := readN_new_spec cfg h.idle rl.rbuf.buf.length (Nat.succ_pos 4)
      (by omega : 8 + 5 ≤ readBufferLen cfg) (.inl hleft5 : _ ∨ false = true) io results
    rw [getHeader, h.rstate, ssl3RtHeaderLength]
    cases hout : tlsDefaultReadN cfg rl 5 rl.rbuf.buf.length false false io results with
    | failed rl' io' results' ret raised =>
      rw [hout] at hspec
      exact absurd hspec.1 (not_lt.2 hleft5)
    | ok u rl' io' results' =>
      rw [hout] at hspec
      obtain ⟨hkept, hwf, haddr, hlength, halign, _, hpl, hleft', hcontents⟩ := hspec
      have hpacket : rl'.packetBytes = [b0, b1, b2, b3, b4] := by
        rw [Layer.unread, hslice] at hcontents
        exact (append_inj (show _ = [b0, b1, b2, b3, b4] ++ (tail ++ _) from hcontents)
          (hwf.length_packetBytes.trans hpl)).1
      rw [Out.bind]
      dsimp only
      rw [packetBytes_readBody, hlength]
      cases hcheck : checkHeader cfg rl'.isFirstRecord (readBufferLen cfg) rl'.packetBytes with
      | error r => exact ⟨checkHeader_error hcheck, fun hne => absurd rfl hne⟩
      | ok thisrr =>
        refine ⟨⟨⟨hwf.fits, hwf.packet⟩, rfl, hpl, hlength, haddr ▸ halign, hcheck⟩,
          haddr ▸ h.addr, .inl ?_⟩
        rw [hkept.isFirstRecord, h.isFirstRecord, hpacket] at hcheck
        rw [checkHeader_later hcheck, if_neg (by rintro ⟨⟩), hleft' hleft5]
        omega
  · cases hwaiting

theorem exists_pipelines (cfg : Config) :
    ∃ k, (if cfg.maxPipelines = 0 then 1 else cfg.maxPipelines) = k + 1 := by
  refine ⟨cfg.maxPipelines - 1, ?_⟩
  split <;> omega

theorem Between.suspended (h : Between cfg S rl) (recs : List Rec) :
    Suspended cfg S (releaseRecords cfg rl recs) := by
  rw [releaseRecords]
  split
  · exact .header h.rstate nofun
  · refine .header h.rstate ?_
    rintro rb ⟨⟩
    exact ⟨h.idle, h.addr⟩

section Calls

variable {π : Type} (process : Config → π → List Rec → Except Fatal (π × List Rec))
  (hfits : ∀ addr ∈ S, AlignFits cfg addr)
include hfits

/-- The body of a record fits in the buffer. -/
theorem safe_getBody (h : BodyFits cfg S thisrr rl) (io : Io) (results : List BioRead) :
    Safe cfg S (fun _ => Between cfg S) (getBody cfg thisrr rl io results) := by
  obtain ⟨hbody, haddr, hcase⟩ := h
  have hspec := getBody_spec hbody (hcase.imp_right And.right) io results
  cases hout : getBody cfg thisrr rl io results with
  | ok rec rl' io' results' =>
    rw [hout] at hspec
    obtain ⟨hstate, hfirst, hidle, haddr', _⟩ := hspec
    exact ⟨hstate, hfirst, hidle, haddr' ▸ haddr⟩
  | failed rl' io' results' ret raised =>
    rw [hout] at hspec
    obtain ⟨hleft, hspec⟩ := hspec
    obtain ⟨hrr0, hfront⟩ := hcase.resolve_left (not_le.2 hleft)
    rw [if_neg (not_lt.2 (hbody.more_fits hfront (hfits _ haddr)))] at hspec
    obtain ⟨_, hraised, rl₂, rfl, hbody, hpacket, haddr', hrr0', _⟩ := hspec
    refine ⟨hraised, fun _ => .body rl₂ rfl ?_ ?_ (haddr' ▸ haddr)⟩
    · rwa [hrr0', hrr0]
    · rw [hpacket, haddr', hfront]

/-- One record, and those after it that are in the buffer. -/
theorem safe_getRecords_succ {k : Nat} {first : Bool} {io : Io} {results : List BioRead}
    (h : Safe cfg S (BodyFits cfg S) (getHeader cfg first rl io results))
    (ih : ∀ {rl}, Between cfg S rl → tlsRecordAppDataWaiting rl.rbuf = true → ∀ io results,
      Safe cfg S (fun _ => Between cfg S) (getRecords cfg k false rl io results)) :
    Safe cfg S (fun _ => Between cfg S) (getRecords cfg (k + 1) first rl io results) := by
  rw [getRecords]
  apply h.bind
  intro thisrr rl₁ io₁ results₁ hbody
  apply (safe_getBody hfits hbody io₁ results₁).bind
  intro rec rl₂ io₂ results₂ hbetween
  split
  · rename_i hnext
    apply (ih hbetween hnext.2.2.2 io₂ results₂).bind
    intro recs rl₃ io₃ results₃ hbetween
    exact hbetween
  · exact hbetween

theorem safe_getRecords_waiting (k : Nat) (h : Between cfg S rl)
    (hwaiting : tlsRecordAppDataWaiting rl.rbuf = true) (io : Io) (results : List BioRead) :
    Safe cfg S (fun _ => Between cfg S) (getRecords cfg k false rl io results) := by
  induction k generalizing rl io results with
  | zero => exact h
  | succ k ih => exact safe_getRecords_succ hfits (safe_getHeader_waiting h hwaiting io results) ih

/-- A call does not overrun the buffer. -/
theorem tlsGetMoreRecords_safe {s : State π} (h : Suspended cfg S s.rl) {c : Call}
    (haddr : c.addr ∈ S) :
    let r := tlsGetMoreRecords process cfg s c
    r.2 ≠ .failed .fatal (some overrun) ∧
      ((∀ raised, r.2 ≠ .failed .fatal raised) → Suspended cfg S r.1.rl) := by
  obtain ⟨hready, haddr'⟩ := h.ready haddr
  obtain ⟨k, hk⟩ := exists_pipelines cfg
  have hsafe := safe_getRecords_succ hfits (safe_getHeader hready haddr' s.io c.results)
    (safe_getRecords_waiting hfits k)
  dsimp only
  rw [tlsGetMoreRecords, hk]
  dsimp only
  cases hout : getRecords cfg (k + 1) true
      { s.rl with rbuf := s.rl.rbuf.getD (tlsSetupReadBuffer cfg c.addr) } s.io c.results with
  | failed rl io results ret raised =>
    rw [hout] at hsafe
    obtain ⟨hraised, hsuspended⟩ := hsafe
    refine ⟨?_, fun hne => hsuspended ?_⟩
    · rintro ⟨⟩
      exact hraised rfl
    · rintro rfl
      exact hne raised rfl
  | ok recs rl io results =>
    rw [hout] at hsafe
    dsimp only
    cases process cfg s.proc recs with
    | error fatal => exact ⟨nofun, fun hne => absurd rfl (hne _)⟩
    | ok r => exact ⟨nofun, fun _ => Between.suspended hsafe _⟩

theorem runCalls_safe {s : State π} (h : Suspended cfg S s.rl) {calls : List Call}
    (haddr : ∀ c ∈ calls, c.addr ∈ S) :
    .failed .fatal (some overrun) ∉ (runCalls process cfg s calls).2 := by
  induction calls generalizing s with
  | nil => exact nofun
  | cons c cs ih =>
    obtain ⟨hne, hsuspended⟩ := tlsGetMoreRecords_safe process hfits h (haddr c mem_cons_self)
    rw [runCalls]
    split
    · rename_i s' raised hcall
      rw [hcall] at hne
      rw [mem_singleton]
      exact hne.symm
    rename_i s' out hnofatal hcall
    rw [hcall] at hne hsuspended
    rw [mem_cons, not_or]
    refine ⟨hne.symm, ih (hsuspended ?_) fun c hc => haddr c (mem_cons_of_mem _ hc)⟩
    intro raised heq
    exact hnofatal raised heq

end Calls

/-! ### A record that does not fit -/

/-- A version that `validate_record_header` accepts. -/
def Method.wireVersion : Method → Version
  | .any (some v) => v
  | .tls1 v => v
  | .any none | .tls13 => .tls12

/-- The header of a record of the greatest length that passes all checks. -/
def longestHeader (cfg : Config) : RecHeader :=
  ⟨ssl3RtApplicationData, cfg.meth.wireVersion.toNat,
    min cfg.maxLength (readBufferLen cfg - ssl3RtHeaderLength)⟩

def RecHeader.encode (thisrr : RecHeader) : Bytes :=
  [thisrr.type, UInt8.ofNat (thisrr.recVersion / 256), UInt8.ofNat thisrr.recVersion,
    UInt8.ofNat (thisrr.length / 256), UInt8.ofNat thisrr.length]

/-- A transport that has nothing but this header. -/
abbrev longestIo (cfg : Config) : Io := ⟨none, some (longestHeader cfg).encode⟩

theorem maxLength_lt (cfg : Config) : cfg.maxLength < 65536 := by
  rw [Config.maxLength]
  split
  · decide
  · split <;> decide
  · decide

theorem toNat_ofNat_pair {n : Nat} (h : n < 65536) :
    (UInt8.ofNat (n / 256)).toNat * 256 + (UInt8.ofNat n).toNat = n := by
  have hhigh : (UInt8.ofNat (n / 256)).toNat = n / 256 % 256 := rfl
  have hlow : (UInt8.ofNat n).toNat = n % 256 := rfl
  omega

theorem parseHeader_encode (htype : thisrr.type = ssl3RtApplicationData)
    (hversion : thisrr.recVersion < 65536) (hv2 : thisrr.recVersion ≠ ssl2Version)
    (hlength : thisrr.length < 65536) (hlen : thisrr.length ≤ len - ssl3RtHeaderLength)
    (isFirstRecord : Bool) : parseHeader cfg isFirstRecord len thisrr.encode = .ok thisrr := by
  have hbyte := (UInt8.ofNat (thisrr.recVersion / 256)).toNat_lt
  have htls : ¬ ssl3RtApplicationData.toNat * 256 +
      (UInt8.ofNat (thisrr.recVersion / 256)).toNat ≥ 0x8000 := by
    have htype : ssl3RtApplicationData.toNat = 23 := rfl
    omega
  rw [RecHeader.encode, parseHeader]
  rw [htype, if_neg (fun h => htls h.2.2.1), toNat_ofNat_pair hversion, toNat_ofNat_pair hlength,
    if_neg hv2, if_neg (not_lt.2 hlen), ← htype]
  rfl

theorem anyCheckVersion_wireVersion (version : Option Version) (isFirstRecord : Bool)
    (packet : Bytes) (h : thisrr.recVersion = (Method.any version).wireVersion.toNat) :
    anyCheckVersion version isFirstRecord packet thisrr = .ok () := by
  rw [anyCheckVersion.eq_def, h]
  cases version with
  | none => rfl
  | some v => cases v <;> rfl

/-- The longest record passes the checks. -/
theorem validateRecordHeader_longestHeader (cfg : Config) (isFirstRecord : Bool) (packet : Bytes) :
    validateRecordHeader cfg isFirstRecord packet (longestHeader cfg) = .ok () := by
  have hlength : (longestHeader cfg).length ≤ cfg.maxLength := Nat.min_le_left _ _
  have hversion : (longestHeader cfg).recVersion = cfg.meth.wireVersion.toNat := rfl
  have htype : (longestHeader cfg).type = ssl3RtApplicationData := rfl
  generalize longestHeader cfg = thisrr at *
  rw [Config.maxLength] at hlength
  rw [validateRecordHeader]
  cases hmeth : cfg.meth with
  | any version =>
    rw [hmeth] at hlength hversion
    dsimp only at hlength ⊢
    rw [anyCheckVersion_wireVersion version isFirstRecord packet hversion]
    exact if_neg (not_lt.2 hlength)
  | tls1 version =>
    rw [hmeth] at hlength hversion
    dsimp only at hlength ⊢
    rw [if_neg (fun hne => hne hversion), if_neg (not_lt.2 hlength)]
    rfl
  | tls13 =>
    rw [hmeth] at hlength hversion
    dsimp only at hlength ⊢
    rw [if_neg (fun hne => hne.1 htype), if_neg (fun hne => hne hversion),
      if_neg (not_lt.2 hlength)]
    rfl

theorem checkHeader_longestHeader (cfg : Config) (isFirstRecord : Bool) :
    checkHeader cfg isFirstRecord (readBufferLen cfg) (longestHeader cfg).encode =
      .ok (longestHeader cfg) := by
  have hversion : ∀ v : Version, v.toNat < 65536 ∧ v.toNat ≠ ssl2Version := by
    intro v
    cases v <;> decide
  have hlength : (longestHeader cfg).length < 65536 :=
    (Nat.min_le_left _ _).trans_lt (maxLength_lt cfg)
  rw [checkHeader, parseHeader_encode rfl (hversion _).1 (hversion _).2 hlength
    (Nat.min_le_right _ _)]
  dsimp only
  rw [validateRecordHeader_longestHeader]

section

variable (hstate : rl.rstate = .readHeader) (hidle : rl.rbuf.Idle (readBufferLen cfg))
  (hleft : rl.rbuf.left = 0)
include hstate hidle hleft

/-- Its header is read from the transport. -/
theorem getHeader_longestHeader :
    ∃ rl' io' results', getHeader cfg true rl (longestIo cfg) [.bytes 5] =
      .ok (longestHeader cfg) rl' io' results' := by
  have hlen := le_readBufferLen cfg
  have hspec := readN_new_spec cfg hidle rl.rbuf.buf.length (Nat.succ_pos 4)
    (by omega : 8 + 5 ≤ readBufferLen cfg) (.inr rfl) (longestIo cfg) [.bytes 5]
  rw [getHeader, hstate, ssl3RtHeaderLength]
  cases hread : tlsDefaultReadN cfg rl 5 rl.rbuf.buf.length false true (longestIo cfg)
      [.bytes 5] with
  | failed rl' io' results' ret raised =>
    rw [hread] at hspec
    exact absurd ⟨5, _, [], rfl, rfl, Nat.le_add_left _ _, Nat.le_add_left _ _⟩ hspec.2.2.2.1
  | ok u rl₁ io₁ results₁ =>
    rw [hread] at hspec
    obtain ⟨_, hwf, _, hlength, _, _, hpl, _, hcontents⟩ := hspec
    have hpacket : rl₁.packetBytes = (longestHeader cfg).encode := by
      rw [Layer.unread, hleft] at hcontents
      exact (append_inj (hcontents.trans (append_nil _).symm)
        (hwf.length_packetBytes.trans hpl)).1
    rw [Out.bind]
    dsimp only
    rw [packetBytes_readBody, hpacket, hlength, checkHeader_longestHeader]
    exact ⟨_, _, _, rfl⟩

/-- The header at a bad address: the rest of the record is asked for, and there is no room. -/
theorem getRecords_overrun (k : Nat) (hfits : ¬ AlignFits cfg rl.rbuf.addr) :
    ∃ rl' io' results', getRecords cfg (k + 1) true rl (longestIo cfg) [.bytes 5] =
      .failed rl' io' results' .fatal (some overrun) := by
  have hlen := le_readBufferLen cfg
  have halign := readAlign_lt rl.rbuf.addr
  obtain ⟨rl₁, io₁, results₁, hheader⟩ := getHeader_longestHeader hstate hidle hleft
  have hspec := getHeader_spec (.header hstate hidle) (longestIo cfg) [.bytes 5]
  rw [hheader] at hspec
  obtain ⟨hbody, hfront, _, haddr, _, hcontents⟩ := hspec
  have hcontents : rl₁.contents io₁ = (longestHeader cfg).encode := by
    rw [hcontents, Layer.upcoming, hstate]
    dsimp only [Layer.unread]
    rw [hleft]
    rfl
  -- the greatest length is too long for what is left of the buffer
  have hmore : (longestHeader cfg).more =
      min cfg.maxLength (readBufferLen cfg - ssl3RtHeaderLength) := by
    have hne : (longestHeader cfg).recVersion ≠ ssl2Version := by
      show cfg.meth.wireVersion.toNat ≠ _
      cases cfg.meth.wireVersion <;> decide
    rw [RecHeader.more, if_neg hne]
    rfl
  have hover : readBufferLen cfg < rl₁.rbuf.offset + (longestHeader cfg).more := by
    rw [hbody.offset, hfront, haddr, hmore]
    rw [AlignFits, ssl3RtHeaderLength] at hfits
    rw [ssl3RtHeaderLength]
    omega
  have hspec := getBody_spec hbody (.inr hfront) io₁ results₁
  rw [getRecords, hheader, Out.bind]
  cases hout : getBody cfg (longestHeader cfg) rl₁ io₁ results₁ with
  | ok rec rl' io' results' =>
    rw [hout] at hspec
    obtain ⟨_, _, hidle', _, packet, hpacket, hlength, _⟩ := hspec
    have htotal := congrArg List.length hpacket
    rw [hcontents, length_append, hlength] at htotal
    have hlen5 : (longestHeader cfg).encode.length = 5 := rfl
    rw [ssl3RtHeaderLength] at htotal
    rw [ssl3RtHeaderLength] at *
    rw [AlignFits, ssl3RtHeaderLength] at hfits
    omega
  | failed rl' io' results' ret raised =>
    rw [hout] at hspec
    obtain ⟨_, hspec⟩ := hspec
    rw [if_pos hover] at hspec
    obtain ⟨rfl, rfl⟩ := hspec
    exact ⟨_, _, _, rfl⟩

end

section Calls

variable {π : Type} (process : Config → π → List Rec → Except Fatal (π × List Rec))

/-- The longest record overruns a buffer at such an address. -/
theorem runCalls_overrun (cfg : Config) {addr : Nat} (hfits : ¬ AlignFits cfg addr) (first : Bool)
    (proc : π) :
    (runCalls process cfg ⟨.new first, longestIo cfg, proc⟩ [⟨addr, [.bytes 5]⟩]).2 =
      [.failed .fatal (some overrun)] := by
  obtain ⟨k, hk⟩ := exists_pipelines cfg
  have hidle : (tlsSetupReadBuffer cfg addr).Idle (readBufferLen cfg) :=
    ⟨length_replicate, Nat.zero_le _, .inl rfl⟩
  obtain ⟨rl', io', results', hout⟩ := @getRecords_overrun cfg
    { Layer.new first with rbuf := tlsSetupReadBuffer cfg addr } rfl hidle rfl k hfits
  have hcall : tlsGetMoreRecords process cfg ⟨.new first, longestIo cfg, proc⟩
      ⟨addr, [.bytes 5]⟩ = (⟨rl', io', proc⟩, .failed .fatal (some overrun)) := by
    rw [tlsGetMoreRecords, hk]
    dsimp only [Layer.new, Option.getD_none] at hout ⊢
    rw [hout]
  rw [runCalls, hcall]

/-- The branch of `tls_default_read_n` that does not happen is not reached by any stream and any
calls, exactly if the buffers that `OPENSSL_malloc` returns leave room behind their alignment for
the longest record that the layer accepts. -/
theorem read_overrun_unreachable_iff (cfg : Config) (S : Set Nat) (first : Bool) (proc : π) :
    (∀ io calls, (∀ c ∈ calls, c.addr ∈ S) → .failed .fatal (some overrun) ∉
        (runCalls process cfg ⟨.new first, io, proc⟩ calls).2) ↔
      ∀ addr ∈ S, AlignFits cfg addr := by
  constructor
  · intro h addr haddr
    by_contra hfits
    have hcall := h (longestIo cfg) [⟨addr, [.bytes 5]⟩]
    rw [runCalls_overrun process cfg hfits] at hcall
    apply hcall _ mem_cons_self
    intro c hc
    rw [mem_singleton.1 hc]
    exact haddr
  · intro hfits io calls haddr
    have hnew : Suspended cfg S (Layer.new first) := .header rfl nofun
    exact runCalls_safe process hfits hnew haddr

end Calls

/-- TLS 1.2 with a maximum fragment length of 512 and an aligned buffer. -/
theorem read_overrun_small_fragments :
    (runCalls (fun _ u recs => .ok (u, recs))
      ⟨.tls1 .tls12, true, 512, false, false, 0, false, 0, false, false, false, false⟩
      ⟨.new false, ⟨none, some [23, 3, 3, 3, 67]⟩, ()⟩ [⟨0, [.bytes 5]⟩]).2 =
        [.failed .fatal (some ⟨.tlsDefaultReadN, .internalError, .internalError⟩)] :=
  runCalls_overrun (fun _ u recs => .ok (u, recs))
    ⟨.tls1 .tls12, true, 512, false, false, 0, false, 0, false, false, false, false⟩
    (by decide : ¬ AlignFits _ 0) false ()

end QuicTls.Record.Read
