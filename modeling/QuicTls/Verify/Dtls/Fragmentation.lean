import QuicTls.Verify.Dtls.Fragments

/-!
# A handshake message is sent completely

The records of all calls for a message carry its parts one after the other, each one behind its own
header (`do_write_covers_message`).
-/

namespace QuicTls.DtlsWrite

open List

open Dtls (dtls1HmHeaderLength)

variable {ω : Type} {cfg : Config} {s s' : Sender ω} {hdr : HmHeader} {htype : UInt8} {body : Bytes}

/-! ### Constructing a message -/

theorem length_packetWrite (initBuf : Bytes) (gap : Nat) (data : Bytes) :
    gap + data.length ≤ (packetWrite initBuf gap data).length := by
  have hfit : gap + data.length ≤
      (initBuf ++ List.replicate (gap + data.length - initBuf.length) 0).length := by
    rw [length_append, length_replicate]
    omega
  rw [packetWrite, length_overwrite hfit]
  exact hfit

theorem slice_packetWrite (initBuf : Bytes) (gap : Nat) (data : Bytes) :
    slice (packetWrite initBuf gap data) gap data.length = data := by
  apply slice_overwrite_self
  rw [length_append, length_replicate]
  omega

namespace Outgoing

/-- The priority of a message. -/
def priority (o : Outgoing ω) : Int := dtls1GetQueuePriority o.hdr.seq !o.handshake

/-- The item that keeps a message. -/
def item (o : Outgoing ω) : PItem (SentFragment ω) where
  priority := queueKey o.priority
  data := ⟨o.hdr, !o.handshake, o.wrl, o.data⟩

/-- HelloVerifyRequests are not kept. -/
def buffered (o : Outgoing ω) : Bool :=
  !(o.handshake && o.hdr.type == dtls1MtHelloVerifyRequest)

end Outgoing

namespace Message

def isHandshake : Message → Bool
  | changeCipherSpec => false
  | handshake .. => true

/-- The header of a message in a single fragment. -/
def header (seq : Nat) : Message → HmHeader
  | changeCipherSpec => ⟨ssl3MtCcs, 0, seq, 0, 0⟩
  | handshake htype body => ⟨htype, body.length, seq, 0, body.length⟩

/-- The room for the header in front of what the packet writer writes. -/
def gap : Message → Nat
  | changeCipherSpec => 0
  | handshake .. => dtls1HmHeaderLength

def payload (cfg : Config) (seq : Nat) : Message → Bytes
  | changeCipherSpec => [ssl3MtCcs] ++ if cfg.badVer then BigEndian.encode 2 seq else []
  | handshake _ body => body

/-- The writer after the message was constructed. -/
def writer (cfg : Config) (s : Sender ω) (m : Message) : Writer ω :=
  { s.writer with
    initBuf := packetWrite s.writer.initBuf m.gap (m.payload cfg s.nextHandshakeWriteSeq)
    initOff := 0
    initNum := m.gap + (m.payload cfg s.nextHandshakeWriteSeq).length
    wMsgHdr := m.header s.nextHandshakeWriteSeq }

def outgoing (cfg : Config) (s : Sender ω) (m : Message) : Outgoing ω :=
  (m.writer cfg s).outgoing m.isHandshake

/-- The sender after the message was constructed. -/
def constructed (cfg : Config) (s : Sender ω) (m : Message) : Sender ω :=
  { s with
    writer := m.writer cfg s
    handshakeWriteSeq := s.nextHandshakeWriteSeq
    nextHandshakeWriteSeq :=
      if m.isHandshake || cfg.badVer then (s.nextHandshakeWriteSeq + 1) % 2 ^ 16
      else s.nextHandshakeWriteSeq
    constructed := s.constructed ++ [m.outgoing cfg s]
    sentMessages :=
      if (m.outgoing cfg s).buffered then
        (s.sentMessages.pqueueInsert (m.outgoing cfg s).item).getD s.sentMessages
      else s.sentMessages }

end Message

theorem closedPacket_eq (cfg : Config) (s : Sender ω) (m : Message) :
    closedPacket (dtls1SetHandshakeHeader cfg s m).1 (dtls1SetHandshakeHeader cfg s m).2 m =
      { m.constructed cfg s with sentMessages := s.sentMessages } := by
  cases m with
  | changeCipherSpec =>
    cases hver : cfg.badVer <;> simp [closedPacket, dtls1SetHandshakeHeader,
      dtls1SetMessageHeaderInt, Message.constructed, Message.writer, Message.outgoing,
      Message.header, Message.gap, Message.payload, Message.isHandshake, hver]
  | handshake htype body =>
    simp [closedPacket, dtls1SetHandshakeHeader, dtls1SetMessageHeader, dtls1SetMessageHeaderInt,
      Message.constructed, Message.writer, Message.outgoing, Message.header, Message.gap,
      Message.payload, Message.isHandshake]

theorem dtls1BufferMessage_eq {k : Bool} (hlen : s.writer.wMsgHdr =
      { s.writer.wMsgHdr with fragOff := 0, fragLen := s.writer.wMsgHdr.msgLen })
    (h : dtls1BufferMessage cfg s (!k) = some s') :
    s' = { s with sentMessages :=
      (s.sentMessages.pqueueInsert (s.writer.outgoing k).item).getD s.sentMessages } := by
  rw [dtls1BufferMessage] at h
  split at h
  · cases h
  rename_i hinit
  split at h
  · cases h
  cases h
  have hdata : s.writer.initBuf.take s.writer.initNum = (s.writer.outgoing k).data := by
    rw [Writer.outgoing, not_not.1 hinit]
    rfl
  rw [← hlen, hdata]
  rfl

/-- What the construction of a message leaves in the state. -/
theorem constructMessage_eq {m : Message} (h : constructMessage cfg s m = some s') :
    m.gap + (m.payload cfg s.nextHandshakeWriteSeq).length ≤ intMax ∧ s' = m.constructed cfg s := by
  have hclosed := closedPacket_eq cfg s m
  have hlen : (dtls1SetHandshakeHeader cfg s m).2 =
      m.gap + (m.payload cfg s.nextHandshakeWriteSeq).length :=
    congrArg (·.writer.initNum) hclosed
  change dtls1CloseConstructPacket cfg (dtls1SetHandshakeHeader cfg s m).1
    (dtls1SetHandshakeHeader cfg s m).2 m = some s' at h
  rw [dtls1CloseConstructPacket, Option.ite_none_left_eq_some, hlen] at h
  obtain ⟨hle, h⟩ := h
  refine ⟨not_lt.1 hle, ?_⟩
  rw [← hlen, hclosed] at h
  cases m with
  | changeCipherSpec => exact dtls1BufferMessage_eq (k := false) rfl h
  | handshake htype body =>
    by_cases hhello : htype = dtls1MtHelloVerifyRequest
    · subst hhello
      cases h
      rfl
    have hbuf : ((Message.handshake htype body).outgoing cfg s).buffered = true := by
      simp [Outgoing.buffered, Message.outgoing, Writer.outgoing, Message.writer, Message.header,
        hhello]
    rw [dtls1BufferMessage_eq (k := true) rfl ((if_pos hhello).symm.trans h),
      Message.constructed, if_pos hbuf]
    rfl

theorem suspended_constructMessage (h : constructMessage cfg s (.handshake htype body) = some s') :
    Suspended cfg s'.writer ⟨htype, body.length, s.nextHandshakeWriteSeq, 0, body.length⟩ body 0
      s'.writer := by
  obtain ⟨hbound, rfl⟩ := constructMessage_eq h
  exact .start rfl ((Nat.add_comm ..).trans_le hbound) (length_packetWrite ..)
    (slice_packetWrite ..) rfl (Nat.add_comm ..)

theorem dtls1GetMessageHeader_fragment {off : Nat} {part : Bytes} (hlen : hdr.msgLen < 2 ^ 24)
    (hseq : hdr.seq < 2 ^ 16) (hoff : off + part.length ≤ hdr.msgLen) :
    HmHeader.dtls1GetMessageHeader (fragmentHeader hdr off part.length ++ part) =
      { hdr with fragOff := off, fragLen := part.length } := by
  unfold HmHeader.dtls1GetMessageHeader
  congr 1
  · exact BigEndian.decode_encode (n := 3) hlen
  · exact BigEndian.decode_encode (n := 2) hseq
  · exact BigEndian.decode_encode (n := 3) (show off < 2 ^ 24 by omega)
  · exact BigEndian.decode_encode (n := 3) (show part.length < 2 ^ 24 by omega)

/-- Each record is the part of the message at its offset. -/
theorem mem_fragments (before : Bytes) {record : Bytes} {parts : List Bytes}
    (h : record ∈ fragments hdr before.length parts) :
    ∃ off part, record = fragmentHeader hdr off part.length ++ part ∧
      off + part.length ≤ (before ++ parts.flatten).length ∧
      slice (before ++ parts.flatten) off part.length = part := by
  induction parts generalizing before with
  | nil => cases h
  | cons p parts ih =>
    rw [fragments, mem_cons] at h
    rcases h with rfl | h
    · refine ⟨before.length, p, rfl, ?_, ?_⟩
      · rw [length_append, flatten_cons, length_append]
        omega
      · rw [slice, drop_left, flatten_cons, take_left]
    · rw [← length_append] at h
      have hrest := ih (before ++ p) h
      rwa [append_assoc] at hrest

/-- What the records of a message are: one after the other, the parts of its body with their
headers. -/
structure Covers (hdr : HmHeader) (body : Bytes) (records : List Bytes) : Prop where
  /-- the fragments, in order, with consecutive offsets -/
  parts : ∃ parts, records = fragments hdr 0 parts ∧ parts.flatten = body ∧ parts ≠ [] ∧
    ([] ∈ parts → body = [])
  /-- the bodies of the records -/
  bodies : (records.map (List.drop dtls1HmHeaderLength)).flatten = body
  /-- what a receiver reads from a header -/
  headers : hdr.msgLen < 2 ^ 24 → hdr.seq < 2 ^ 16 → ∀ record ∈ records,
    let h := HmHeader.dtls1GetMessageHeader record
    h.type = hdr.type ∧ h.msgLen = hdr.msgLen ∧ h.seq = hdr.seq ∧
      h.fragOff + h.fragLen ≤ hdr.msgLen ∧
      record.drop dtls1HmHeaderLength = slice body h.fragOff h.fragLen

theorem covers_fragments {parts : List Bytes} (hflat : parts.flatten = body) (hne : parts ≠ [])
    (hnil : [] ∈ parts → body = []) (hlen : hdr.msgLen = body.length) :
    Covers hdr body (fragments hdr 0 parts) where
  parts := ⟨parts, rfl, hflat, hne, hnil⟩
  bodies := by rw [map_drop_fragments, hflat]
  headers := by
    intro hmsg hseq record hmem
    obtain ⟨off, part, rfl, hle, hslice⟩ := mem_fragments [] hmem
    rw [hflat] at hle hslice
    rw [dtls1GetMessageHeader_fragment hmsg hseq (hlen ▸ hle)]
    refine ⟨rfl, rfl, rfl, hlen ▸ hle, ?_⟩
    exact hslice.symm

/-- However often `dtls1_do_write` is called for a handshake message until it returns 1, and
whatever the MTU and the results of the writes are: the records carry the message, and the digest of
the handshake is given the header of the whole message, except for DTLS1_BAD_VER, and its body,
once. Left out are calls that try a later fragment again by themselves when the MTU was exceeded.
An unfinished message is finished by a call whose writes succeed. -/
theorem do_write_covers_message {ω : Type} {cfg : Config} {s s₁ : Sender ω} {htype : UInt8}
    {body : Bytes} {calls : List Call}
    (hc : constructMessage cfg s (.handshake htype body) = some s₁)
    (hlate : noLateRetries cfg s₁.writer calls = true) :
    let hdr : HmHeader := ⟨htype, body.length, s.nextHandshakeWriteSeq, 0, body.length⟩
    let r := doWriteCalls cfg true s₁.writer calls
    (r.2 = true → ∃ records, Covers hdr body records ∧
      r.1.sent = s₁.writer.sent ++ records.map (⟨s₁.writer.wrl, true, ·⟩) ∧
      r.1.mac = s₁.writer.mac ++
        if s₁.writer.retransmitting then [] else
          (if cfg.badVer then [] else hdr.toBytes) ++ body) ∧
    (r.2 = false → ∀ c : Call, c.Good body.length → (dtls1DoWrite cfg true r.1 c).2 = 1) := by
  intro hdr r
  rcases (suspended_constructMessage hc).calls hlate with ⟨hdone, hfin⟩ | ⟨hdone, f, hsusp⟩
  · refine ⟨fun _ => ?_, fun h => absurd (hdone.symm.trans h) (by decide)⟩
    obtain ⟨parts, buf, o, l, mtu, hflat, hne, hnil, hs⟩ := hfin
    refine ⟨_, covers_fragments hflat hne hnil rfl, congrArg Writer.sent hs, ?_⟩
    rw [show r.1.mac = _ from congrArg Writer.mac hs]
    simp only [sending, hflat, hne, or_false]
    rfl
  · refine ⟨fun h => absurd (hdone.symm.trans h) (by decide), fun _ c hgood => ?_⟩
    exact hsusp.doWrite_good hgood

/-- A connection, with or without DTLS1_BAD_VER, that sends records of any size. -/
def plainConfig (badVer : Bool) : Config := ⟨badVer, false, 16384, by decide⟩

/-- The beginning of a handshake. -/
def Sender.init (wrl : ω) : Sender ω where
  writer := ⟨[], 0, 0, .zero, 0, false, wrl, [], []⟩
  handshakeWriteSeq := 0
  nextHandshakeWriteSeq := 0
  sentMessages := []
  constructed := []

/-- A first call whose second record is not sent, and a call for the rest. -/
theorem do_write_covers_message_two_calls :
    let calls : List Call :=
      [⟨some 300, 200, 286, [⟨0, 1, .sent⟩, ⟨0, 1, .failed⟩]⟩, ⟨some 300, 200, 20, [⟨0, 1, .sent⟩]⟩]
    ∃ s₁, constructMessage (plainConfig false) (Sender.init ()) (.handshake 1 [5, 6, 7]) = some s₁ ∧
      let r := doWriteCalls (plainConfig false) true s₁.writer calls
      r.2 = true ∧ ∃ records, Covers ⟨1, 3, 0, 0, 3⟩ [5, 6, 7] records ∧
        r.1.sent = records.map (⟨(), true, ·⟩) ∧
        r.1.mac = HmHeader.toBytes ⟨1, 3, 0, 0, 3⟩ ++ [5, 6, 7] := by
  intro calls
  refine ⟨_, rfl, ?_⟩
  intro r
  have hdone : r.2 = true := by decide
  obtain ⟨records, hcovers, hsent, hmac⟩ :=
    (@do_write_covers_message Unit (plainConfig false) (Sender.init ()) _ 1 [5, 6, 7] calls rfl
      (by decide)).1 hdone
  exact ⟨hdone, records, hcovers, hsent, hmac⟩

/-- For DTLS1_BAD_VER the digest of the handshake does not cover the header. -/
theorem bad_ver_digest_without_header :
    ∃ s₁, constructMessage (plainConfig true) (Sender.init ()) (.handshake 1 [5, 6, 7]) = some s₁ ∧
      let r := doWriteCalls (plainConfig true) true s₁.writer [⟨some 300, 200, 20, [⟨0, 1, .sent⟩]⟩]
      r.2 = true ∧ r.1.mac = [5, 6, 7] ∧ r.1.mac ≠ HmHeader.toBytes ⟨1, 3, 0, 0, 3⟩ ++ [5, 6, 7] :=
  ⟨_, rfl, by decide⟩

-- The MTU is exceeded at the second fragment, which is then sent with the twelve bytes of its old
-- header in front of the last byte of the body.
example :
    ∃ s₁, constructMessage (plainConfig false) (Sender.init ())
        (.handshake 1 (List.replicate 13 0 ++ [5])) = some s₁ ∧
      let r := doWriteCalls (plainConfig false) true s₁.writer
        [⟨some 300, 200, 275, [⟨0, 1, .sent⟩, ⟨0, 1, .mtuExceeded (some 300)⟩, ⟨0, 1, .sent⟩]⟩]
      r.2 = true ∧ (r.1.sent.map (·.data.drop dtls1HmHeaderLength)) =
        [List.replicate 13 0, fragmentHeader ⟨1, 14, 0, 0, 14⟩ 13 1 ++ [5]] :=
  ⟨_, rfl, by decide⟩

end QuicTls.DtlsWrite
