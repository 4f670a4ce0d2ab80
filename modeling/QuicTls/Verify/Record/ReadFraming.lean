import QuicTls.Verify.Record.ReadOverrun
import QuicTls.Theory.Framing

/-!
# Framing of unprotected records does not depend on how the transport delivers bytes

`records` cuts a stream at its headers. That is what calls of `tls_get_more_records` return,
whatever the single reads deliver (`framing_independent_of_reads`).
-/

namespace QuicTls.Record.Read

open List

/-! ### Cutting a stream at its headers -/

/-- An SSLv2 ClientHello may be in front: its length is in the first two bytes. -/
def isV2Hello (v2 : Bool) (b0 b2 : UInt8) : Bool := v2 ∧ b0 ≥ 0x80 ∧ b2 = ssl2MtClientHello

/-- The length of the first record of a stream, from its header. -/
def frameLength (v2 : Bool) : Bytes → Option Nat
  | b0 :: b1 :: b2 :: b3 :: b4 :: _ =>
    if isV2Hello v2 b0 b2 then some (2 + ((b0.toNat - 0x80) * 256 + b1.toNat))
    else some (5 + (b3.toNat * 256 + b4.toNat))
  | _ => none

/-- Where the first record of a stream ends, if the stream has all of it. -/
def recordCut (v2 : Bool) (s : Bytes) : Option Nat :=
  (frameLength v2 s).filter fun n => n ≤ s.length

/-- The type, version and payload of a record. -/
def frameRecord (v2 : Bool) : Bytes → Rec
  | b0 :: b1 :: b2 :: b3 :: b4 :: body =>
    if isV2Hello v2 b0 b2 then ⟨ssl3RtHandshake, ssl2Version, b2 :: b3 :: b4 :: body⟩
    else ⟨b0, b1.toNat * 256 + b2.toNat, body⟩
  | _ => ⟨0, 0, []⟩

variable {n : Nat}

theorem frameLength_append {v2 : Bool} {s : Bytes} (h : frameLength v2 s = some n)
    (t : Bytes) : frameLength v2 (s ++ t) = some n := by
  match s with
  | _ :: _ :: _ :: _ :: _ :: _ => exact h
  | [] | [_] | [_, _] | [_, _, _] | [_, _, _, _] => exact nomatch h

theorem recordCut_eq_some {v2 : Bool} {s : Bytes} :
    recordCut v2 s = some n ↔ frameLength v2 s = some n ∧ n ≤ s.length := by
  rw [recordCut, Option.filter_eq_some_iff, decide_eq_true_iff]

theorem frameLength_pos {v2 : Bool} {s : Bytes} (h : frameLength v2 s = some n) : 0 < n := by
  rw [frameLength.eq_def] at h
  split at h
  · split at h <;> cases h <;> omega
  · exact nomatch h

theorem recordCut_append {v2 : Bool} {s : Bytes} (t : Bytes)
    (h : recordCut v2 s = some n) : recordCut v2 (s ++ t) = some n := by
  rw [recordCut_eq_some] at h ⊢
  rw [length_append]
  exact ⟨frameLength_append h.1 t, h.2.trans (Nat.le_add_right _ _)⟩

theorem recordCut_of_lt {v2 : Bool} {s : Bytes} (h : s.length < ssl3RtHeaderLength) :
    recordCut v2 s = none := by
  match s, h with
  | [], _ | [_], _ | [_, _], _ | [_, _, _], _ | [_, _, _, _], _ => rfl

theorem recordCut_of_incomplete {v2 : Bool} {s : Bytes} (h : frameLength v2 s = some n)
    (hlt : s.length < n) : recordCut v2 s = none := by
  rw [recordCut, h, Option.filter_some, if_neg]
  rw [decide_eq_true_iff]
  exact not_le.2 hlt

/-- The framing of all records but the first one. -/
def recordCutter : Cutter UInt8 where
  cut := recordCut false
  pos h := frameLength_pos (recordCut_eq_some.1 h).1
  le_length h := (recordCut_eq_some.1 h).2
  mono ys h := recordCut_append ys h

/-- Cut a stream at its headers. -/
def frames (v2 : Bool) (s : Bytes) : List Bytes × Bytes :=
  match recordCut v2 s with
  | none => ([], s)
  | some n =>
    (s.take n :: (recordCutter.split (s.drop n)).1, (recordCutter.split (s.drop n)).2)

/-- The records of a stream. -/
def records (v2 : Bool) (s : Bytes) : List Rec :=
  match (frames v2 s).1 with
  | [] => []
  | f :: fs => frameRecord v2 f :: fs.map (frameRecord false)

theorem frames_of_none {v2 : Bool} {s : Bytes} (h : recordCut v2 s = none) :
    frames v2 s = ([], s) := by rw [frames, h]

theorem frames_false (s : Bytes) : frames false s = recordCutter.split s := by
  rw [frames]
  cases hcut : recordCut false s with
  | none => exact (Cutter.split_of_none hcut).symm
  | some n => exact (Cutter.split_of_some hcut).symm

theorem frames_cons {v2 : Bool} {f s : Bytes} (h : recordCut v2 (f ++ s) = some f.length) :
    frames v2 (f ++ s) = (f :: (frames false s).1, (frames false s).2) := by
  rw [frames, h]
  dsimp only
  rw [take_left, drop_left, frames_false]

theorem records_of_none {v2 : Bool} {s : Bytes} (h : recordCut v2 s = none) :
    records v2 s = [] := by rw [records, frames_of_none h]

theorem records_false (s : Bytes) :
    records false s = (frames false s).1.map (frameRecord false) := by
  rw [records]
  split <;> rename_i h <;> rw [h] <;> rfl

theorem records_cons {v2 : Bool} {f s : Bytes} (h : recordCut v2 (f ++ s) = some f.length) :
    records v2 (f ++ s) = frameRecord v2 f :: records false s := by
  rw [records, frames_cons h, records_false]

variable {cfg : Config} {first : Bool} {packet : Bytes} {thisrr : RecHeader} {len k : Nat}
  {raised : Option Raised} {out : Outcome} {s s' s'' : State Nat} {outs : List Outcome}
  {version : Option Version} {S : Set Nat} {rl : Layer (Option ReadBuffer)} {io : Io}
  {c : Call} {results : List BioRead}

/-- An SSLv2 ClientHello is longer than the header that was read. -/
theorem validateRecordHeader_v2 (hmeth : cfg.meth = .any version)
    (h : validateRecordHeader cfg first packet thisrr = .ok ())
    (hv2 : thisrr.recVersion = ssl2Version) : minSsl2RecordLen ≤ thisrr.length := by
  rw [validateRecordHeader, hmeth] at h
  dsimp only at h
  rw [anyCheckVersion.eq_def, if_pos hv2] at h
  obtain ⟨_, hcheck, _⟩ := bind_eq_ok.1 h
  exact not_lt.1 (ok_of_check (ok_of_check hcheck).2).1

/-- The records that `tls_any_funcs` accepts are those of the framing. -/
theorem checkHeader_frame (hmeth : cfg.meth = .any version)
    (hpacket : packet.length = ssl3RtHeaderLength)
    (h : checkHeader cfg first len packet = .ok thisrr) :
    (∀ s, frameLength (cfg.server && first) (packet ++ s) =
      some (ssl3RtHeaderLength + thisrr.more)) ∧
    ∀ body : Bytes, body.length = thisrr.more →
      thisrr.record (packet ++ body) = frameRecord (cfg.server && first) (packet ++ body) := by
  obtain ⟨b0, b1, b2, b3, b4, rfl⟩ : ∃ b0 b1 b2 b3 b4, packet = [b0, b1, b2, b3, b4] := by
    match packet, hpacket with
    | [b0, b1, b2, b3, b4], _ => exact ⟨b0, b1, b2, b3, b4, rfl⟩
  obtain ⟨hparse, hvalid⟩ := checkHeader_ok h
  have hb0 := b0.toNat_lt
  have hb1 := b1.toNat_lt
  have hv2 : (cfg.server = true ∧ first = true ∧ b0.toNat * 256 + b1.toNat ≥ 0x8000 ∧
      b2 = ssl2MtClientHello) ↔ isV2Hello (cfg.server && first) b0 b2 = true := by
    have hge : b0 ≥ 0x80 ↔ 128 ≤ b0.toNat := UInt8.le_iff_toNat_le
    rw [isV2Hello, decide_eq_true_iff, Bool.and_eq_true, hge, and_assoc]
    have hnum : b0.toNat * 256 + b1.toNat ≥ 0x8000 ↔ 128 ≤ b0.toNat := by omega
    rw [hnum]
  rw [parseHeader] at hparse
  dsimp only at hparse
  by_cases hhello : isV2Hello (cfg.server && first) b0 b2 = true
  · rw [if_pos (hv2.2 hhello)] at hparse
    have hge := (hv2.2 hhello).2.2.1
    cases (ok_of_check hparse).2
    -- the length was checked, so that the record is longer than five bytes
    have hmin := validateRecordHeader_v2 hmeth hvalid rfl
    have hlen : (b0.toNat * 256 + b1.toNat) % 0x8000 = (b0.toNat - 0x80) * 256 + b1.toNat := by
      omega
    rw [minSsl2RecordLen] at hmin
    dsimp only at hmin
    rw [hlen] at hmin ⊢
    refine ⟨fun s => ?_, fun body hbody => ?_⟩
    · rw [cons_append, cons_append, cons_append, cons_append, cons_append,
        frameLength, if_pos hhello, RecHeader.more, if_pos rfl, ssl2RtHeaderLength,
        ssl3RtHeaderLength, Option.some.injEq]
      dsimp only
      omega
    · rw [RecHeader.more, if_pos rfl, ssl2RtHeaderLength, ssl3RtHeaderLength] at hbody
      dsimp only at hbody
      have hall : (b2 :: b3 :: b4 :: body).length ≤ (b0.toNat - 0x80) * 256 + b1.toNat := by
        rw [length_cons, length_cons, length_cons]
        omega
      rw [RecHeader.record, RecHeader.start, cons_append, cons_append,
        cons_append, cons_append, cons_append, frameRecord, if_pos hhello, slice]
      exact congrArg (Rec.mk _ _) (take_of_length_le hall)
  · rw [if_neg (mt hv2.1 hhello)] at hparse
    obtain ⟨hne, hparse⟩ := ok_of_check hparse
    cases (ok_of_check hparse).2
    refine ⟨fun s => ?_, fun body hbody => ?_⟩
    · rw [cons_append, cons_append, cons_append, cons_append, cons_append,
        frameLength, if_neg hhello, RecHeader.more, if_neg hne, ssl3RtHeaderLength]
    · rw [RecHeader.more, if_neg hne] at hbody
      rw [RecHeader.record, RecHeader.start, if_neg hne, cons_append, cons_append,
        cons_append, cons_append, cons_append, frameRecord, if_neg hhello, slice]
      exact congrArg (Rec.mk _ _) (take_of_length_le (Nat.le_of_eq hbody))

/-! ### Calls -/

/-- The bytes from the next header on, between two calls. -/
def Layer.remaining (rl : Layer (Option ReadBuffer)) (io : Io) : Bytes :=
  match rl.rbuf with
  | none => io.content
  | some rb => Layer.upcoming { rl with rbuf := rb } io

/-- The records of a call that are handed on. -/
def deliver (cfg : Config) (rec : Rec) : List Rec := if ignoredCcs cfg rec then [] else [rec]

theorem processPlain_ok {count count' : Nat} {rec : Rec} {recs : List Rec}
    (h : processPlain cfg count [rec] = .ok (count', recs)) : recs = deliver cfg rec := by
  rw [processPlain] at h
  rw [deliver]
  split at h
  · rename_i hccs
    rw [if_pos hccs]
    cases (ok_of_check (ok_of_check h).2).2
    rfl
  · rename_i hccs
    rw [if_neg hccs]
    obtain ⟨n, _, h⟩ := bind_eq_ok.1 h
    cases h
    rfl

theorem Suspended.remaining_eq (h : Suspended cfg S rl) (addr : Nat) (io : Io) :
    Layer.upcoming { rl with rbuf := rl.rbuf.getD (tlsSetupReadBuffer cfg addr) } io =
      rl.remaining io := by
  cases h with
  | header hstate hidle =>
    rw [Layer.remaining]
    cases hrb : rl.rbuf with
    | none =>
      rw [Layer.upcoming]
      dsimp only [Option.getD_none]
      rw [hstate]
      dsimp only [Layer.unread, tlsSetupReadBuffer]
      rw [slice_zero, nil_append]
    | some rb => rfl
  | body rl' heq =>
    subst heq
    rfl

theorem Layer.remaining_of_header (hstate : rl.rstate = .readHeader) (io : Io) :
    rl.remaining io = rl.pending io := by
  rw [remaining, pending]
  cases rl.rbuf with
  | none => rfl
  | some rb =>
    rw [hstate]
    rfl

theorem Layer.length_pending (h : ∀ rb ∈ rl.rbuf, rb.Idle len ∧ rb.left < n) (hn : 0 < n)
    (hio : io.content = []) : (rl.pending io).length < n := by
  rw [pending, hio]
  cases hrb : rl.rbuf with
  | none => exact hn
  | some rb =>
    obtain ⟨hidle, hlt⟩ := h rb hrb
    have hfits := hidle.fits
    rw [← hidle.length] at hfits
    dsimp only
    rwa [append_nil, length_slice hfits]

theorem Layer.WF.length_contents {rl : Layer ReadBuffer} (h : rl.WF) (hio : io.content = []) :
    (rl.contents io).length = rl.packetLength + rl.rbuf.left := by
  have hfits := h.fits
  have hpacket := h.packet
  rw [h.contents_eq, hio, append_nil, length_slice (by omega)]

theorem getRecords_single (hpipe : cfg.pipelines = false) (hk : 0 < k) (rl : Layer ReadBuffer)
    (io : Io) (results : List BioRead) :
    getRecords cfg k true rl io results =
      (getHeader cfg true rl io results).bind fun thisrr rl io results =>
      (getBody cfg thisrr rl io results).bind fun rec rl io results => .ok [rec] rl io results := by
  obtain ⟨k, rfl⟩ := Nat.exists_eq_succ_of_ne_zero (Nat.ne_of_gt hk)
  rw [getRecords, hpipe]
  congr 1
  funext thisrr rl io results
  congr 1
  funext rec rl io results
  rw [if_neg (by rintro ⟨-, -, ⟨⟩, -⟩)]

/-- How the read of one record ends, in terms of the stream. -/
def FrameSpec (cfg : Config) (v2 : Bool) (first : Bool) (s : Bytes) : Out (List Rec) → Prop
  | .ok recs rl io _ =>
    Between cfg Set.univ rl ∧ ∃ f, s = f ++ rl.unread io ∧ recordCut v2 s = some f.length ∧
      recs = [frameRecord v2 f]
  | .failed rl io _ ret _ =>
    ret = .fatal ∨ (ret ≠ .success ∧ Suspended cfg Set.univ rl ∧ rl.isFirstRecord = first ∧
        rl.remaining io = s ∧ (io.content = [] → recordCut v2 s = none))

variable (hmeth : cfg.meth = .any version) (hpipe : cfg.pipelines = false)

include hmeth hpipe in
/-- One record is cut off the stream. -/
theorem getRecords_frame (hk : 0 < k) {rl : Layer ReadBuffer} (h : Ready cfg rl) (io : Io)
    (results : List BioRead) :
    FrameSpec cfg (cfg.server && rl.isFirstRecord) rl.isFirstRecord (rl.upcoming io)
      (getRecords cfg k true rl io results) := by
  have hspec := getHeader_spec h io results
  rw [getRecords_single hpipe hk]
  cases hheader : getHeader cfg true rl io results with
  | failed rl₁ io₁ results₁ ret raised =>
    rw [hheader] at hspec
    rcases hspec with ⟨hret, _, hstate, hfirst, hidle, hpending⟩ | ⟨hret, _⟩
    · refine .inr ⟨hret, .header hstate fun rb hrb => ⟨(hidle rb hrb).1, trivial⟩, hfirst, ?_, ?_⟩
      · rw [Layer.remaining_of_header hstate, hpending]
      · intro hio
        rw [← hpending]
        have hlt : ∀ rb ∈ rl₁.rbuf, rb.Idle (readBufferLen cfg) ∧ rb.left < ssl3RtHeaderLength :=
          fun rb hrb => ⟨(hidle rb hrb).1, (hidle rb hrb).2.2⟩
        exact recordCut_of_lt (Layer.length_pending hlt (Nat.succ_pos 4) hio)
    · exact .inl hret
  | ok thisrr rl₁ io₁ results₁ =>
    rw [hheader] at hspec
    obtain ⟨hbody, hfront, hrr0, _, hfirst, hcontents⟩ := hspec
    have hframe := checkHeader_frame hmeth (hbody.wf.length_packetBytes.trans hbody.packetLength)
      hbody.header
    rw [hfirst] at hframe
    have hspec := getBody_spec hbody (.inr hfront) io₁ results₁
    rw [Out.bind]
    cases hout : getBody cfg thisrr rl₁ io₁ results₁ with
    | failed rl₂ io₂ results₂ ret raised =>
      rw [hout] at hspec
      obtain ⟨_, hspec⟩ := hspec
      split at hspec
      · exact .inl hspec.1
      obtain ⟨hret, _, rl₃, rfl, hbody₃, hpacket, haddr, hrr0₃, hfirst₃, hlt, hcontents₃⟩ := hspec
      have hremaining : rl₃.keep.remaining io₂ = rl₃.contents io₂ := by
        show Layer.upcoming rl₃ io₂ = _
        rw [Layer.upcoming, hbody₃.rstate]
      refine .inr ⟨hret, .body rl₃ rfl ?_ ?_ trivial, hfirst₃.trans hfirst, ?_, ?_⟩
      · rwa [hrr0₃, hrr0]
      · rw [hpacket, haddr, hfront]
      · rw [hremaining, hcontents₃, hcontents]
      intro hio
      have hlength := hbody₃.wf.length_contents hio
      rw [hbody₃.packetLength, hcontents₃, hcontents] at hlength
      apply recordCut_of_incomplete
      · rw [← hcontents]
        exact hframe.1 _
      · omega
    | ok rec rl₂ io₂ results₂ =>
      rw [hout] at hspec
      obtain ⟨hstate, hfirst₂, hidle, _, packet, hpacket, hlength, hrec⟩ := hspec
      -- the packet starts with the header that was checked
      obtain ⟨body, rfl⟩ : ∃ body, packet = rl₁.packetBytes ++ body := by
        have hle : rl₁.packetBytes.length ≤ packet.length := by
          rw [hlength, hbody.wf.length_packetBytes, hbody.packetLength]
          exact Nat.le_add_right _ _
        have hpre : rl₁.packetBytes <+: rl₁.contents io₁ := prefix_append _ _
        obtain ⟨body, heq⟩ := prefix_of_prefix_length_le hpre ⟨_, hpacket.symm⟩ hle
        exact ⟨body, heq.symm⟩
      have hbodylen : body.length = thisrr.more := by
        rw [length_append, hbody.wf.length_packetBytes, hbody.packetLength] at hlength
        omega
      refine ⟨⟨hstate, hfirst₂, hidle, trivial⟩, rl₁.packetBytes ++ body, ?_, ?_, ?_⟩
      · rw [← hcontents, hpacket]
      · rw [← hcontents, hpacket, append_assoc, recordCut_eq_some]
        refine ⟨hlength ▸ hframe.1 _, ?_⟩
        rw [length_append, length_append, length_append]
        omega
      · rw [hrec, hframe.2 body hbodylen]

theorem Between.remaining_releaseRecords {rl : Layer ReadBuffer} (h : Between cfg S rl)
    (recs : List Rec) (io : Io) : (releaseRecords cfg rl recs).remaining io = rl.unread io := by
  rw [releaseRecords]
  split
  · rename_i hrelease
    rw [Layer.unread, hrelease.2.2, slice_zero]
    rfl
  · show Layer.upcoming rl io = _
    rw [Layer.upcoming, h.rstate]

theorem isFirstRecord_releaseRecords (rl : Layer ReadBuffer) (recs : List Rec) :
    (releaseRecords cfg rl recs).isFirstRecord = rl.isFirstRecord := by
  rw [releaseRecords]
  split <;> rfl

/-- The bytes from the next header on. -/
def State.remaining (s : State Nat) : Bytes := s.rl.remaining s.io

/-- The next record may be an SSLv2 ClientHello. -/
def State.v2 (cfg : Config) (s : State Nat) : Bool := cfg.server && s.rl.isFirstRecord

/-- What a call does to the stream. -/
def CallSpec (cfg : Config) (s s' : State Nat) : Outcome → Prop
  | .records recs =>
    Suspended cfg Set.univ s'.rl ∧ s'.v2 cfg = false ∧
      ∃ f, s.remaining = f ++ s'.remaining ∧ recordCut (s.v2 cfg) s.remaining = some f.length ∧
        recs = deliver cfg (frameRecord (s.v2 cfg) f)
  | .failed ret _ =>
    ret = .fatal ∨
      (Suspended cfg Set.univ s'.rl ∧ s'.v2 cfg = s.v2 cfg ∧ s'.remaining = s.remaining ∧
        (s'.io.content = [] → recordCut (s.v2 cfg) s.remaining = none))

include hmeth hpipe in
/-- A call delivers the next record of the stream or waits. -/
theorem tlsGetMoreRecords_frame (h : Suspended cfg Set.univ s.rl) (c : Call) :
    CallSpec cfg s (tlsGetMoreRecords processPlain cfg s c).1
      (tlsGetMoreRecords processPlain cfg s c).2 := by
  obtain ⟨hready, _⟩ := h.ready (Set.mem_univ c.addr)
  have hk : 0 < if cfg.maxPipelines = 0 then 1 else cfg.maxPipelines := by split <;> omega
  have hspec := getRecords_frame hmeth hpipe hk hready s.io c.results
  rw [h.remaining_eq] at hspec
  rw [tlsGetMoreRecords]
  cases hout : getRecords cfg (if cfg.maxPipelines = 0 then 1 else cfg.maxPipelines) true
      { s.rl with rbuf := s.rl.rbuf.getD (tlsSetupReadBuffer cfg c.addr) } s.io c.results with
  | failed rl io results ret raised =>
    rw [hout] at hspec
    rcases hspec with hret | ⟨_, hsuspended, hfirst, hremaining, hcut⟩
    · exact .inl hret
    · refine .inr ⟨hsuspended, ?_, hremaining, hcut⟩
      rw [State.v2, State.v2, hfirst]
  | ok recs rl io results =>
    rw [hout] at hspec
    obtain ⟨hbetween, f, hf, hcut, rfl⟩ := hspec
    dsimp only
    cases hprocess : processPlain cfg s.proc [frameRecord (cfg.server && s.rl.isFirstRecord) f] with
    | error fatal => exact .inl rfl
    | ok r =>
      obtain ⟨count, recs⟩ := r
      refine ⟨hbetween.suspended recs, ?_, f, ?_, hcut, processPlain_ok hprocess⟩
      · rw [State.v2]
        rw [isFirstRecord_releaseRecords, hbetween.isFirstRecord, Bool.and_false]
      · rw [State.remaining, State.remaining, hf]
        rw [hbetween.remaining_releaseRecords]

/-- The records of all calls. -/
def produced (outs : List Outcome) : List Rec :=
  outs.flatMap fun
    | .records recs => recs
    | .failed .. => []

/-- What calls do to the stream: `k` records are cut off and handed on. -/
structure RunSpec (cfg : Config) (s s' : State Nat) (outs : List Outcome) : Prop where
  some_produced : ∃ k,
    produced outs = ((records (s.v2 cfg) s.remaining).take k).flatMap (deliver cfg) ∧
    ((∀ raised, .failed .fatal raised ∉ outs) →
      ((frames (s.v2 cfg) s.remaining).1.take k).flatten ++ s'.remaining = s.remaining)
  all_produced : outs.getLast? = some (.failed .retry none) → s'.io.content = [] →
    produced outs = (records (s.v2 cfg) s.remaining).flatMap (deliver cfg)

theorem runCalls_fatal (h : tlsGetMoreRecords processPlain cfg s c = (s', .failed .fatal raised))
    (cs : List Call) : runCalls processPlain cfg s (c :: cs) = (s', [.failed .fatal raised]) := by
  rw [runCalls, h]

theorem runCalls_continue (h : tlsGetMoreRecords processPlain cfg s c = (s', out))
    (hne : ∀ raised, out ≠ .failed .fatal raised) (cs : List Call) :
    runCalls processPlain cfg s (c :: cs) =
      ((runCalls processPlain cfg s' cs).1, out :: (runCalls processPlain cfg s' cs).2) := by
  rw [runCalls, h]
  split
  · rename_i heq
    cases heq
    exact absurd rfl (hne _)
  · rename_i heq
    cases heq
    rfl

theorem runCalls_eq_nil {cs : List Call} (h : (runCalls processPlain cfg s cs).2 = []) :
    cs = [] := by
  cases cs with
  | nil => rfl
  | cons c cs =>
    rw [runCalls] at h
    split at h <;> cases h

/-- A call that delivers a record, before the others. -/
theorem RunSpec.cons {f : Bytes} (hv2 : s'.v2 cfg = false) (hf : s.remaining = f ++ s'.remaining)
    (hcut : recordCut (s.v2 cfg) s.remaining = some f.length) (h : RunSpec cfg s' s'' outs) :
    RunSpec cfg s s'' (.records (deliver cfg (frameRecord (s.v2 cfg) f)) :: outs) := by
  rw [hf] at hcut
  have hproduced : produced (.records (deliver cfg (frameRecord (s.v2 cfg) f)) :: outs) =
    deliver cfg (frameRecord (s.v2 cfg) f) ++ produced outs := rfl
  obtain ⟨⟨k, hk, hrest⟩, hall⟩ := h
  rw [hv2] at hk hrest hall
  constructor
  · refine ⟨k + 1, ?_, ?_⟩
    · rw [hproduced, hk, hf, records_cons hcut, take_succ_cons, flatMap_cons]
    · intro hfatal
      have hrest := hrest fun raised hmem => hfatal raised (mem_cons_of_mem _ hmem)
      rw [hf, frames_cons hcut, take_succ_cons, flatten_cons, append_assoc, hrest]
  · intro hlast hio
    rw [getLast?_cons] at hlast
    cases houts : outs.getLast? with
    | none =>
      rw [houts] at hlast
      exact nomatch hlast
    | some out =>
      rw [houts] at hlast hall
      rw [hproduced, hall hlast hio, hf, records_cons hcut, flatMap_cons]

theorem RunSpec.cons_failed {ret : Return} (hv2 : s'.v2 cfg = s.v2 cfg)
    (hremaining : s'.remaining = s.remaining)
    (hcut : s''.io.content = [] → outs = [] → recordCut (s.v2 cfg) s.remaining = none)
    (h : RunSpec cfg s' s'' outs) : RunSpec cfg s s'' (.failed ret raised :: outs) := by
  have hproduced : produced (.failed ret raised :: outs) = produced outs := rfl
  obtain ⟨⟨k, hk, hrest⟩, hall⟩ := h
  rw [hv2, hremaining] at hk hrest hall
  constructor
  · refine ⟨k, hk, fun hfatal => hrest ?_⟩
    exact fun raised hmem => hfatal raised (mem_cons_of_mem _ hmem)
  intro hlast hio
  rw [getLast?_cons] at hlast
  cases houts : outs.getLast? with
  | none =>
    have hnil := getLast?_eq_none_iff.1 houts
    rw [hnil, records_of_none (hcut hio hnil)]
    rfl
  | some out =>
    rw [houts] at hlast hall
    exact hall hlast hio

include hmeth hpipe in
/-- The calls deliver the records of the stream in order. -/
theorem runCalls_frame (h : Suspended cfg Set.univ s.rl) (calls : List Call) :
    RunSpec cfg s (runCalls processPlain cfg s calls).1 (runCalls processPlain cfg s calls).2 := by
  induction calls generalizing s with
  | nil => exact ⟨⟨0, rfl, fun _ => rfl⟩, nofun⟩
  | cons c cs ih =>
    have hspec := tlsGetMoreRecords_frame hmeth hpipe h c
    cases hcall : tlsGetMoreRecords processPlain cfg s c with
    | mk s' out =>
      rw [hcall] at hspec
      cases out with
      | records recs =>
        obtain ⟨hsuspended, hv2, f, hf, hcut, rfl⟩ := hspec
        rw [runCalls_continue hcall nofun]
        exact .cons hv2 hf hcut (ih hsuspended)
      | failed ret raised =>
        by_cases hret : ret = .fatal
        · subst hret
          rw [runCalls_fatal hcall]
          exact ⟨⟨0, rfl, fun hfatal => absurd mem_cons_self (hfatal raised)⟩, nofun⟩
        obtain ⟨hsuspended, hv2, hremaining, hcut⟩ := hspec.resolve_left hret
        rw [runCalls_continue hcall (fun _ heq => by cases heq; exact hret rfl)]
        refine .cons_failed hv2 hremaining ?_ (ih hsuspended)
        intro hio hnil
        rw [runCalls_eq_nil hnil] at hio
        exact hcut hio

/-! ### A transport that delivers everything -/

/-- Results that deliver at least one byte each. -/
def Positive (results : List BioRead) : Prop := ∀ r ∈ results, ∃ k, 0 < k ∧ r = .bytes k

/-- As many results as the transport has bytes are enough to read all of them. -/
structure Lively (io : Io) (results : List BioRead) : Prop where
  bio : ∃ content, io = ⟨none, some content⟩
  positive : Positive results
  enough : io.content.length ≤ results.length

/-- The loop stops only when the transport is empty. -/
theorem readLoop_lively {max : Nat} (hmax : n ≤ max) (pos : Nat) {content : Bytes}
    (hpos : Positive results) (hlen : content.length ≤ results.length) (buf : Bytes) (left : Nat) :
    let out := readLoop n max pos results buf left (some content)
    Lively ⟨none, out.bio⟩ out.results ∧
      (out.ret ≠ .success → out.ret = .retry ∧ Io.content ⟨none, out.bio⟩ = []) := by
  induction results generalizing content buf left with
  | nil =>
    have hnil : content = [] := eq_nil_of_length_eq_zero (Nat.le_zero.1 hlen)
    subst hnil
    rw [readLoop.eq_def]
    dsimp only
    split
    · exact ⟨⟨⟨[], rfl⟩, by rintro _ ⟨⟩, hlen⟩, fun h => absurd rfl h⟩
    · exact ⟨⟨⟨[], rfl⟩, by rintro _ ⟨⟩, hlen⟩, fun _ => ⟨rfl, rfl⟩⟩
  | cons r rs ih =>
    have hrest : Positive rs := fun r hr => hpos r (mem_cons_of_mem _ hr)
    obtain ⟨k, hk, rfl⟩ := hpos r mem_cons_self
    rw [readLoop.eq_def]
    dsimp only
    split
    · exact ⟨⟨⟨content, rfl⟩, hpos, hlen⟩, fun h => absurd rfl h⟩
    dsimp only [BioRead.read]
    have htake : (content.take (min k (max - left))).length =
        min (min k (max - left)) content.length := length_take
    by_cases hempty : (content.take (min k (max - left))).length = 0
    · rw [if_pos hempty]
      have hnil : content = [] := eq_nil_of_length_eq_zero (by omega)
      subst hnil
      exact ⟨⟨⟨[], rfl⟩, hrest, Nat.zero_le _⟩, fun _ => ⟨rfl, rfl⟩⟩
    · rw [if_neg hempty]
      apply ih hrest
      rw [length_drop]
      rw [length_cons] at hlen
      omega

/-- A step of a call with such a transport: it has not run dry, or it is empty. -/
def LivelyOut {α : Type} : Out α → Prop
  | .ok _ _ io results => Lively io results
  | .failed _ io _ ret _ => ret = .fatal ∨ (ret = .retry ∧ io.content = [])

theorem LivelyOut.bind {α β : Type} {o : Out α}
    {f : α → Layer ReadBuffer → Io → List BioRead → Out β} (h : LivelyOut o)
    (hf : ∀ a rl io results, Lively io results → LivelyOut (f a rl io results)) :
    LivelyOut (o.bind f) := by
  cases o with
  | ok a rl io results => exact hf a rl io results h
  | failed rl io results ret raised => exact h

section

variable (cfg : Config) (rl : Layer ReadBuffer) (h : Lively io results)
include h

theorem readMore_lively (n max : Nat) : LivelyOut (readMore cfg rl n max io results) := by
  obtain ⟨content, rfl⟩ := h.bio
  rw [readMore]
  dsimp only
  split
  · exact h
  split
  · exact .inl rfl
  rename_i hn hover
  obtain ⟨hn', _⟩ := readMax_spec cfg max (not_lt.1 hover)
  have hloop := readLoop_lively hn' (readAlign rl.rbuf.addr + rl.packetLength) h.positive
    h.enough rl.rbuf.buf rl.rbuf.left
  split
  · exact hloop.1
  · rename_i hret
    exact .inr (hloop.2 hret)

theorem readN_lively (hn : 0 < n) (max : Nat) (extend clearold : Bool) :
    LivelyOut (tlsDefaultReadN cfg rl n max extend clearold io results) := by
  rw [tlsDefaultReadN, if_neg (Nat.ne_of_gt hn)]
  exact readMore_lively cfg _ h n max

theorem getHeader_lively (first : Bool) : LivelyOut (getHeader cfg first rl io results) := by
  rw [getHeader]
  split
  · apply (readN_lively cfg rl h (Nat.succ_pos 4) _ _ _).bind
    intro u rl io results h
    dsimp only
    split
    · exact .inl rfl
    · exact h
  · exact h

theorem getBody_lively (thisrr : RecHeader) : LivelyOut (getBody cfg thisrr rl io results) := by
  rw [getBody]
  split
  · rename_i hmore
    apply (readN_lively cfg rl h hmore _ _ _).bind
    intro u rl io results h
    exact h
  · exact h

theorem getRecords_lively (k : Nat) (first : Bool) :
    LivelyOut (getRecords cfg k first rl io results) := by
  induction k generalizing first rl io results with
  | zero => exact h
  | succ k ih =>
    apply (getHeader_lively cfg rl h first).bind
    intro thisrr rl io results h
    apply (getBody_lively cfg rl h thisrr).bind
    intro rec rl io results h
    split
    · apply (ih rl h false).bind
      intro recs rl io results h
      exact h
    · exact h

end

/-- A call fails with a retry only when the transport is empty. -/
theorem tlsGetMoreRecords_lively (h : Lively s.io c.results)
    (hcall : tlsGetMoreRecords processPlain cfg s c = (s', out)) :
    match out with
    | .records _ => ∃ content, s'.io = ⟨none, some content⟩
    | .failed ret _ => ret = .fatal ∨ (ret = .retry ∧ s'.io.content = []) := by
  rw [tlsGetMoreRecords] at hcall
  have hlively := getRecords_lively cfg
    { s.rl with rbuf := s.rl.rbuf.getD (tlsSetupReadBuffer cfg c.addr) } h
    (if cfg.maxPipelines = 0 then 1 else cfg.maxPipelines) true
  cases hout : getRecords cfg (if cfg.maxPipelines = 0 then 1 else cfg.maxPipelines) true
      { s.rl with rbuf := s.rl.rbuf.getD (tlsSetupReadBuffer cfg c.addr) } s.io c.results with
  | failed rl io results ret raised =>
    rw [hout] at hcall hlively
    cases hcall
    exact hlively
  | ok recs rl io results =>
    rw [hout] at hcall hlively
    dsimp only at hcall
    split at hcall
    · cases hcall
      exact .inl rfl
    · cases hcall
      exact hlively.bio

theorem Suspended.length_content_le (h : Suspended cfg S s.rl) :
    s.io.content.length ≤ s.remaining.length := by
  rw [State.remaining]
  cases h with
  | header hstate _ =>
    rw [Layer.remaining_of_header hstate, Layer.pending]
    split
    · exact Nat.le_refl _
    · rw [length_append]
      exact Nat.le_add_left _ _
  | body rl' heq hbody =>
    rw [heq]
    show _ ≤ (Layer.upcoming rl' s.io).length
    rw [Layer.upcoming, hbody.rstate]
    rw [hbody.wf.contents_eq, length_append]
    exact Nat.le_add_left _ _

include hmeth hpipe in
/-- Every call takes a record off the stream, until there is none. -/
theorem runCalls_complete (h : Suspended cfg Set.univ s.rl)
    (hbio : ∃ content, s.io = ⟨none, some content⟩)
    {calls : List Call} (hcalls : s.remaining.length < calls.length)
    (hresults : ∀ c ∈ calls, Positive c.results ∧ s.remaining.length ≤ c.results.length) :
    (∃ raised, .failed .fatal raised ∈ (runCalls processPlain cfg s calls).2) ∨
      produced (runCalls processPlain cfg s calls).2 =
        (records (s.v2 cfg) s.remaining).flatMap (deliver cfg) := by
  induction calls generalizing s with
  | nil => exact absurd hcalls (Nat.not_lt_zero _)
  | cons c cs ih =>
    obtain ⟨hpos, hlen⟩ := hresults c mem_cons_self
    have hlively : Lively s.io c.results := ⟨hbio, hpos, h.length_content_le.trans hlen⟩
    have hspec := tlsGetMoreRecords_frame hmeth hpipe h c
    cases hcall : tlsGetMoreRecords processPlain cfg s c with
    | mk s' out =>
      have hend := tlsGetMoreRecords_lively hlively hcall
      rw [hcall] at hspec
      cases out with
      | records recs =>
        obtain ⟨hsuspended, hv2, f, (hf : s.remaining = f ++ s'.remaining), hcut, rfl⟩ := hspec
        have hpos := frameLength_pos (recordCut_eq_some.1 hcut).1
        have hlength := congrArg List.length hf
        rw [length_append] at hlength
        rw [length_cons] at hcalls
        rw [runCalls_continue hcall nofun]
        rw [hf] at hcut
        have hrest : ∀ c ∈ cs, Positive c.results ∧ s'.remaining.length ≤ c.results.length := by
          intro c hc
          obtain ⟨hpos, hlen⟩ := hresults c (mem_cons_of_mem _ hc)
          exact ⟨hpos, by omega⟩
        rcases ih (s := s') hsuspended hend (by omega) hrest with ⟨raised, hmem⟩ | hall
        · exact .inl ⟨raised, mem_cons_of_mem _ hmem⟩
        · refine .inr ?_
          rw [hv2] at hall
          rw [hf, records_cons hcut, flatMap_cons, ← hall]
          rfl
      | failed ret raised =>
        rcases hend with rfl | ⟨rfl, hio⟩
        · rw [runCalls_fatal hcall]
          exact .inl ⟨raised, mem_cons_self⟩
        obtain ⟨hsuspended, hv2, hremaining, hcut⟩ := hspec.resolve_left nofun
        refine .inr ?_
        rw [runCalls_continue hcall nofun]
        obtain ⟨⟨k, hk, _⟩, _⟩ := runCalls_frame hmeth hpipe hsuspended cs
        rw [hv2, hremaining, records_of_none (hcut hio), take_nil] at hk
        rw [records_of_none (hcut hio)]
        exact hk

/-- For a layer without protection and pipelining, calls of `tls_get_more_records` return the first
records that the stream is cut into at its headers, except for the ChangeCipherSpec messages that
TLS 1.3 ignores, and leave what follows them. They return all of them if the last call finds nothing
more to read, or if there are enough calls, with a transport that delivers, and none fails. The
first record of a server may be an SSLv2 ClientHello, with its own header. -/
theorem framing_independent_of_reads (cfg : Config) {version : Option Version}
    (hmeth : cfg.meth = .any version) (hpipe : cfg.pipelines = false) (first : Bool)
    (stream : Bytes) (calls : List Call) :
    let s : State Nat := ⟨.new first, ⟨none, some stream⟩, 0⟩
    let run := runCalls processPlain cfg s calls
    let v2 := cfg.server && first
    (∃ k, produced run.2 = ((records v2 stream).take k).flatMap (deliver cfg) ∧
      ((∀ raised, .failed .fatal raised ∉ run.2) →
        ((frames v2 stream).1.take k).flatten ++ run.1.remaining = stream)) ∧
    (run.2.getLast? = some (.failed .retry none) → run.1.io.content = [] →
      produced run.2 = (records v2 stream).flatMap (deliver cfg)) ∧
    (stream.length < calls.length →
      (∀ c ∈ calls, Positive c.results ∧ stream.length ≤ c.results.length) →
      (∃ raised, .failed .fatal raised ∈ run.2) ∨
        produced run.2 = (records v2 stream).flatMap (deliver cfg)) := by
  have hnew : Suspended cfg Set.univ (Layer.new first) := .header rfl nofun
  have hspec := runCalls_frame (s := ⟨.new first, ⟨none, some stream⟩, 0⟩) hmeth hpipe hnew calls
  exact ⟨hspec.some_produced, hspec.all_produced,
    runCalls_complete (s := ⟨.new first, ⟨none, some stream⟩, 0⟩) hmeth hpipe hnew
      ⟨stream, rfl⟩⟩

/-- A record whose header comes in two parts. -/
theorem framing_independent_of_reads_two_parts :
    produced (runCalls processPlain
      ⟨.any none, true, 512, false, false, 0, false, 0, true, false, false, false⟩
      ⟨.new true, ⟨none, some [22, 3, 1, 0, 2, 5, 6]⟩, 0⟩
      [⟨0, [.bytes 3, .retry]⟩, ⟨0, [.bytes 3, .bytes 3]⟩, ⟨0, []⟩]).2 = [⟨22, 0x0301, [5, 6]⟩] :=
  ((framing_independent_of_reads
    ⟨.any none, true, 512, false, false, 0, false, 0, true, false, false, false⟩ rfl rfl true
    [22, 3, 1, 0, 2, 5, 6]
    [⟨0, [.bytes 3, .retry]⟩, ⟨0, [.bytes 3, .bytes 3]⟩, ⟨0, []⟩]).2.1
      (by decide +kernel) (by decide +kernel)).trans (by decide +kernel)

/-- An SSLv2 ClientHello is one record, and not what its first five bytes would be a header of. -/
theorem framing_v2_hello :
    produced (runCalls processPlain
      ⟨.any none, true, 512, false, false, 0, false, 0, false, false, false, false⟩
      ⟨.new true, ⟨none, some [0x80, 9, 1, 0, 0, 0, 0, 0, 0, 0, 0]⟩, 0⟩
      [⟨0, [.bytes 11, .bytes 11]⟩]).2 = [⟨22, 0x0002, [1, 0, 0, 0, 0, 0, 0, 0, 0]⟩] ∧
    records false [0x80, 9, 1, 0, 0, 0, 0, 0, 0, 0, 0] = [⟨0x80, 0x0901, []⟩, ⟨0, 0, []⟩] := by
  decide +kernel

end QuicTls.Record.Read
