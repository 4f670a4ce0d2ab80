import QuicTls.Theory.BigEndian
import QuicTls.Crypto.Buffer
import QuicTls.Ssl.Pqueue

/-!
# Receiving DTLS handshake messages (ssl/statem/statem_dtls.c)

`Dtls.getMessage` is `dtls_get_message`. The record layer is the list of records it will return;
`current` is what is left of the record in `tlsrecs`. A message keeps its contents in `init_buf`,
behind the twelve bytes of its header.

The fragments that were received are kept in `received`: each header that was read from a record
that holds the fragment's bytes.
-/

namespace QuicTls

/-- `hm_header_st` -/
structure HmHeader where
  type : UInt8
  msgLen : Nat
  seq : Nat
  fragOff : Nat
  fragLen : Nat
  deriving DecidableEq, Repr

/-! ### The reassembly bitmask -/

namespace Rsmbly

/-- `bitmask_start_values` -/
def startValues : List (BitVec 8) := [0xff, 0xfe, 0xfc, 0xf8, 0xf0, 0xe0, 0xc0, 0x80]

/-- `bitmask_end_values` -/
def endValues : List (BitVec 8) := [0xff, 0x01, 0x03, 0x07, 0x0f, 0x1f, 0x3f, 0x7f]

/-- `bitmask[n] |= v` -/
def orAt (bitmask : List (BitVec 8)) (n : Nat) (v : BitVec 8) : List (BitVec 8) :=
  bitmask.modify n (· ||| v)

def bitmaskSize (msgLen : Nat) : Nat := (msgLen + 7) / 8

def bitmaskMark (bitmask : List (BitVec 8)) (start «end» : Nat) : List (BitVec 8) :=
  if «end» - start ≤ 8 then
    (List.range' start («end» - start)).foldl (fun bm ii => orAt bm (ii / 8) (1#8 <<< (ii % 8)))
      bitmask
  else
    let bm := orAt bitmask (start / 8) (startValues.getD (start % 8) 0)
    let bm := (List.range' (start / 8 + 1) ((«end» - 1) / 8 - (start / 8 + 1))).foldl
      (fun bm ii => bm.set ii 0xff) bm
    orAt bm ((«end» - 1) / 8) (endValues.getD («end» % 8) 0)

def bitmaskIsComplete (bitmask : List (BitVec 8)) (msgLen : Nat) : Bool :=
  bitmask.getD ((msgLen - 1) / 8) 0 == endValues.getD (msgLen % 8) 0 &&
    (List.range ((msgLen - 1) / 8)).all fun ii => bitmask.getD ii 0 == 0xff

end Rsmbly

/-- `hm_fragment`; `reassembly` is the bitmask of a message of which parts are missing. -/
structure HmFragment where
  msgHeader : HmHeader
  fragment : Bytes
  reassembly : Option (List (BitVec 8))
  deriving DecidableEq

/-! ### The connection -/

inductive DtlsRecordType where
  | handshake
  | changeCipherSpec
  deriving DecidableEq, Repr

def ssl3RtMaxPlainLength : Nat := 16384

/-- A record of the handshake, after decryption. -/
structure DtlsHandshakeRecord where
  type : DtlsRecordType
  data : Bytes
  length_le : data.length ≤ ssl3RtMaxPlainLength

/-- A fragment that was received. It is in sequence when its number is the next one, or when it
belongs to the first ClientHello again after a HelloVerifyRequest (`chretran`). -/
structure DtlsReceived where
  msgHdr : HmHeader
  body : Bytes
  inSequence : Bool
  chretran : Bool

/-- `hand_state`, as far as the functions here look at it. -/
inductive DtlsHandState where
  | swHelloVerifyRequest
  | ok
  | other
  deriving DecidableEq, Repr

/-- Which allocations succeed, and what fresh memory holds. -/
structure DtlsMemory where
  fragment : Bool
  item : Bool
  grow : Bool
  heap : Nat → UInt8

structure Dtls where
  server : Bool
  maxCertList : Nat
  /-- `handshake_read_seq`, a 16-bit counter -/
  handshakeReadSeq : Nat
  nextHandshakeWriteSeq : Nat
  bufferedMessages : Pqueue HmFragment
  /-- `r_msg_hdr` -/
  rMsgHdr : HmHeader
  initBuf : BufMem UInt8
  initNum : Nat
  /-- what is left of the current record -/
  current : Bytes
  currentType : DtlsRecordType
  /-- the records that the record layer returns next -/
  records : List DtlsHandshakeRecord
  received : List DtlsReceived

/-- What `dtls_get_message` and `dtls_get_message_body` return to the state machine. -/
inductive DtlsMessage where
  | changeCipherSpec
  /-- type, number and length of the header, the length that `dtls_get_message_body` reports, and
  the contents of that length -/
  | handshake (type : UInt8) (seq msgLen len : Nat) (body : Bytes)
  deriving DecidableEq, Repr

namespace HmHeader

def zero : HmHeader := ⟨0, 0, 0, 0, 0⟩

def dtls1GetMessageHeader (data : Bytes) : HmHeader where
  type := data.getD 0 0
  msgLen := BigEndian.decode ((data.drop 1).take 3)
  seq := BigEndian.decode ((data.drop 4).take 2)
  fragOff := BigEndian.decode ((data.drop 6).take 3)
  fragLen := BigEndian.decode ((data.drop 9).take 3)

/-- The header that `dtls_get_message` reconstructs. -/
def toBytes (hdr : HmHeader) : Bytes :=
  [hdr.type] ++ BigEndian.encode 3 hdr.msgLen ++ BigEndian.encode 2 hdr.seq
    ++ BigEndian.encode 3 0 ++ BigEndian.encode 3 hdr.msgLen

def seq64be (hdr : HmHeader) : Bytes :=
  [0, 0, 0, 0, 0, 0, UInt8.ofNat (hdr.seq / 256), UInt8.ofNat hdr.seq]

end HmHeader

namespace Dtls

def dtls1HmHeaderLength : Nat := 12
def ssl3RtMaxEncryptedLength : Nat := 17728
def mtHelloRequest : UInt8 := 0
def mtClientHello : UInt8 := 1
def mtCcs : UInt8 := 1
def mtFinished : UInt8 := 20

variable (s : Dtls) (mem : DtlsMemory) (handState : DtlsHandState) (msgHdr : HmHeader)

def maxHandshakeMessageLen : Nat :=
  let maxLen := dtls1HmHeaderLength + ssl3RtMaxEncryptedLength
  if maxLen < s.maxCertList then s.maxCertList else maxLen

/-- `dtls1_hm_fragment_new`, when memory is available. -/
def hmFragmentNew (fragLen : Nat) (reassembly : Bool) : HmFragment :=
  ⟨msgHdr, (List.range fragLen).map mem.heap,
    if reassembly then some (List.replicate (Rsmbly.bitmaskSize fragLen) 0) else none⟩

/-- The bytes of the fragment are read from the record. -/
def readBody (len : Nat) : Bytes × Dtls :=
  (s.current.take len, { s with current := s.current.drop len })

/-- `dtls1_preprocess_fragment`; `r_msg_hdr.frag_off` is always zero. -/
def preprocessFragment : Dtls × Bool :=
  if msgHdr.msgLen < msgHdr.fragOff + msgHdr.fragLen
      ∨ s.maxHandshakeMessageLen < msgHdr.msgLen then (s, false)
  else if s.rMsgHdr.fragOff = 0 then
    let r := s.initBuf.bufMemGrow mem.grow (msgHdr.msgLen + dtls1HmHeaderLength)
    if r.2 = 0 then (s, false)
    else
      ({ s with
        initBuf := r.1
        rMsgHdr := { s.rMsgHdr with msgLen := msgHdr.msgLen, type := msgHdr.type
                                    seq := msgHdr.seq } }, true)
  else if msgHdr.msgLen ≠ s.rMsgHdr.msgLen then (s, false)
  else (s, true)

/-! ### Buffered messages -/

/-- We have sent a HelloVerifyRequest, and this is the ClientHello before it. -/
def isRetransmittedHello (seq : Nat) : Bool :=
  s.server && seq == 0 && s.handshakeReadSeq == 1 && handState == .swHelloVerifyRequest

/-- The loop of `dtls1_retrieve_buffered_fragment`: drop stale messages. What is left of the queue,
the fragment it looks at and whether that one is the first ClientHello again (`chretran`). -/
def skipStale : Pqueue HmFragment → Pqueue HmFragment × Option (HmFragment × Bool)
  | [] => ([], none)
  | item :: pq =>
    if item.data.msgHeader.seq < s.handshakeReadSeq then
      if !s.isRetransmittedHello handState item.data.msgHeader.seq then skipStale pq
      else
        match pq with
        | next :: _ =>
          if next.data.msgHeader.seq = s.handshakeReadSeq then (pq, some (next.data, false))
          else (item :: pq, some (item.data, true))
        | [] => (item :: pq, some (item.data, true))
    else (item :: pq, some (item.data, false))

/-- The read and write sequences go back to the beginning. -/
def resetSeq (chretran : Bool) : Dtls :=
  if chretran then { s with handshakeReadSeq := 0, nextHandshakeWriteSeq := 0 } else s

/-- What a call returns: nothing, a fatal error, or a message of the given length. -/
inductive Retrieved where
  | none
  | fatal
  | message (len : Nat)
  deriving DecidableEq

/-- The contents of a buffered message go to `init_buf`, behind the header. -/
def copyMessage (frag : HmFragment) (initBuf : BufMem UInt8) : BufMem UInt8 :=
  if 0 < frag.msgHeader.fragLen then
    initBuf.write (dtls1HmHeaderLength + frag.msgHeader.fragOff)
      (frag.fragment.take frag.msgHeader.fragLen)
  else initBuf

def retrieveBufferedFragment : Dtls × Retrieved :=
  let r := s.skipStale handState s.bufferedMessages
  let s := { s with bufferedMessages := r.1 }
  match r.2 with
  | none => (s, .none)
  | some (frag, chretran) =>
    -- do not return if reassembly is still in progress
    if frag.reassembly.isSome then (s, .none)
    else if s.handshakeReadSeq = frag.msgHeader.seq ∨ chretran then
      let r := preprocessFragment { s with bufferedMessages := s.bufferedMessages.tail } mem
        frag.msgHeader
      if !r.2 then ({ r.1 with initNum := 0 }, .fatal)
      else
        let s := { r.1 with initBuf := copyMessage frag r.1.initBuf }
        (s.resetSeq chretran, .message frag.msgHeader.fragLen)
    else (s, .none)

/-- The error type of the functions that buffer a fragment: `DTLS1_HM_FRAGMENT_RETRY` or not. -/
inductive Buffered where
  | retry
  | error
  deriving DecidableEq

/-- The item that `dtls1_reassemble_fragment` works on, and whether it is in the queue. -/
def reassemblyItem : Option (HmFragment × Bool) :=
  match s.bufferedMessages.pqueueFind msgHdr.seq64be with
  | none =>
    if mem.fragment then
      some (hmFragmentNew mem { msgHdr with fragLen := msgHdr.msgLen, fragOff := 0 } msgHdr.msgLen
        true, false)
    else none
  | some item =>
    if item.data.msgHeader.msgLen ≠ msgHdr.msgLen then none else some (item.data, true)

/-- The fragment is copied into the message and marked. -/
def addFragment (frag : HmFragment) (bitmask : List (BitVec 8)) (body : Bytes) : HmFragment :=
  let bitmask := Rsmbly.bitmaskMark bitmask msgHdr.fragOff (msgHdr.fragOff + msgHdr.fragLen)
  { frag with
    fragment := overwrite frag.fragment msgHdr.fragOff body
    reassembly := if Rsmbly.bitmaskIsComplete bitmask msgHdr.msgLen then none else some bitmask }

def reassembleFragment : Dtls × Buffered :=
  if msgHdr.msgLen < msgHdr.fragOff + msgHdr.fragLen
      ∨ s.maxHandshakeMessageLen < msgHdr.msgLen then (s, .error)
  else if msgHdr.fragLen = 0 then (s, .retry)
  else
    match s.reassemblyItem mem msgHdr with
    | none => (s, .error)
    | some (frag, queued) =>
      let (body, s) := s.readBody msgHdr.fragLen
      match frag.reassembly with
      -- the message is there already, this must be a retransmit
      | none => (s, .retry)
      | some bitmask =>
        let frag := addFragment msgHdr frag bitmask body
        if queued then
          ({ s with bufferedMessages := s.bufferedMessages.update msgHdr.seq64be frag }, .retry)
        else if !mem.item then (s, .error)
        else
          match s.bufferedMessages.pqueueInsert ⟨msgHdr.seq64be, frag⟩ with
          | none => (s, .error)
          | some pq => ({ s with bufferedMessages := pq }, .retry)

def processOutOfSeqMessage : Dtls × Buffered :=
  if msgHdr.msgLen < msgHdr.fragOff + msgHdr.fragLen then (s, .error)
  else
    let found := (s.bufferedMessages.pqueueFind msgHdr.seq64be).isSome
      && msgHdr.fragLen == msgHdr.msgLen
    if msgHdr.seq ≤ s.handshakeReadSeq ∨ s.handshakeReadSeq + 10 < msgHdr.seq ∨ found
        ∨ (s.handshakeReadSeq = 0 ∧ msgHdr.type = mtFinished) then
      ((s.readBody msgHdr.fragLen).2, .retry)
    else if msgHdr.fragLen ≠ msgHdr.msgLen then s.reassembleFragment mem msgHdr
    else if s.maxHandshakeMessageLen < msgHdr.fragLen then (s, .error)
    else if !mem.fragment then (s, .error)
    else
      let (body, s) := s.readBody msgHdr.fragLen
      if !mem.item then (s, .error)
      else
        match s.bufferedMessages.pqueueInsert ⟨msgHdr.seq64be, ⟨msgHdr, body, none⟩⟩ with
        | none => (s, .error)
        | some pq => ({ s with bufferedMessages := pq }, .retry)

/-! ### Messages -/

/-- `ssl_read_bytes` for a header: from the current record, or from the next one. -/
def readHeader : Option (Bytes × Dtls) :=
  if s.current ≠ [] then
    some (s.current.take dtls1HmHeaderLength,
      { s with current := s.current.drop dtls1HmHeaderLength })
  else
    match s.records with
    | [] => none
    | rr :: records =>
      some (rr.data.take dtls1HmHeaderLength,
        { s with
          current := rr.data.drop dtls1HmHeaderLength
          currentType := rr.type
          records := records })

/-- What `dtls_get_reassembled_message` returns: a message, a reason to go on or an error. -/
inductive Reassembled where
  | message
  | changeCipherSpec
  | retry
  | error
  deriving DecidableEq

def Buffered.toReassembled : Buffered → Reassembled
  | .retry => .retry
  | .error => .error

/-- The end of `dtls_get_reassembled_message`: the whole message is in this fragment. Its bytes go
where `init_buf` was before `dtls1_preprocess_fragment`. -/
def wholeMessage (chretran : Bool) : Dtls × Reassembled :=
  let r := s.preprocessFragment mem msgHdr
  if !r.2 then ({ r.1 with initNum := 0 }, .error)
  else
    let (body, s') := r.1.readBody msgHdr.fragLen
    let moved : Bool := s.initBuf.max < msgHdr.msgLen + dtls1HmHeaderLength
    let s' := { s' with
      initBuf :=
        if 0 < msgHdr.fragLen ∧ !moved then
          s'.initBuf.write (dtls1HmHeaderLength + msgHdr.fragOff) body
        else s'.initBuf }
    ({ s'.resetSeq chretran with initNum := msgHdr.fragLen }, .message)

/-- Where `dtls_get_reassembled_message` sends a fragment. -/
def dispatchFragment (f : DtlsReceived) : Dtls × Reassembled :=
  if !f.inSequence then
    let r := s.processOutOfSeqMessage mem f.msgHdr
    (r.1, r.2.toReassembled)
  else if 0 < f.msgHdr.fragLen ∧ f.msgHdr.fragLen < f.msgHdr.msgLen then
    let r := s.reassembleFragment mem f.msgHdr
    (r.1, r.2.toReassembled)
  else if !s.server ∧ s.rMsgHdr.fragOff = 0 ∧ handState ≠ .ok ∧ f.msgHdr.type = mtHelloRequest then
    -- a HelloRequest is ignored when it is well formed
    ({ s with initNum := 0 }, if f.msgHdr.msgLen = 0 then .retry else .error)
  else s.wholeMessage mem f.msgHdr f.chretran

/-- The part of `dtls_get_reassembled_message` after a complete header has been read. -/
def processFragment : Dtls × Reassembled :=
  if s.current.length < msgHdr.fragLen then ({ s with initNum := 0 }, .error)
  else
    let chretran := s.isRetransmittedHello handState msgHdr.seq && msgHdr.type == mtClientHello
    let f : DtlsReceived :=
      ⟨msgHdr, s.current.take msgHdr.fragLen, msgHdr.seq == s.handshakeReadSeq || chretran,
        chretran⟩
    dispatchFragment { s with received := s.received ++ [f] } mem handState f

def getReassembledMessage : Dtls × Reassembled :=
  let r := s.retrieveBufferedFragment mem handState
  match r.2 with
  | .fatal => (r.1, .error)
  | .message len => ({ r.1 with initNum := len }, .message)
  | .none =>
    match r.1.readHeader with
    | none => (r.1, .error)
    | some (p, s) =>
      let s := { s with initBuf := s.initBuf.write 0 p }
      if s.currentType = .changeCipherSpec then
        if s.initBuf.data.getD 0 0 ≠ mtCcs then ({ s with initNum := 0 }, .error)
        else ({ s with initNum := (p.length + 2 ^ 64 - 1) % 2 ^ 64 }, .changeCipherSpec)
      else if p.length ≠ dtls1HmHeaderLength then ({ s with initNum := 0 }, .error)
      else s.processFragment mem handState (.dtls1GetMessageHeader p)

/-- The end of `dtls_get_message` for a handshake message, and what the state machine then sees. -/
def deliver : Dtls × DtlsMessage :=
  let hdr := s.rMsgHdr
  let initBuf := s.initBuf.write 0 hdr.toBytes
  ({ s with
      initBuf := initBuf
      rMsgHdr := .zero
      handshakeReadSeq := (s.handshakeReadSeq + 1) % 2 ^ 16 },
    .handshake hdr.type hdr.seq hdr.msgLen s.initNum
      ((initBuf.data.drop dtls1HmHeaderLength).take s.initNum))

/-- The loop of `dtls_get_message`. Every round but the last one uses up some of the input. -/
def getMessageLoop (mem : Nat → DtlsMemory) (handState : DtlsHandState) :
    Nat → Dtls → Option (Dtls × Option DtlsMessage)
  | 0, _ => none
  | fuel + 1, s =>
    let r := s.getReassembledMessage (mem fuel) handState
    match r.2 with
    | .retry => getMessageLoop mem handState fuel r.1
    | .error => some (r.1, none)
    | .changeCipherSpec => some (r.1, some .changeCipherSpec)
    | .message => let d := r.1.deliver; some (d.1, some d.2)

/-- The input that is left: the bytes and the records. -/
def inputSize : Nat :=
  s.current.length + (s.records.map fun rr => rr.data.length + 1).sum

def getMessage (mem : Nat → DtlsMemory) : Dtls × Option DtlsMessage :=
  (getMessageLoop mem handState (s.inputSize + 1) { s with rMsgHdr := .zero }).getD (s, none)

/-- A record comes from the network, or the state machine asks for a message. -/
inductive Event where
  | record (rr : DtlsHandshakeRecord)
  | getMessage (mem : Nat → DtlsMemory) (handState : DtlsHandState)

def step (s : Dtls) : Event → Dtls × Option DtlsMessage
  | .record rr => ({ s with records := s.records ++ [rr] }, none)
  | .getMessage mem handState => s.getMessage handState mem

/-- The start of a handshake, with a new `init_buf`. -/
def init (server : Bool) (maxCertList : Nat) : Dtls where
  server := server
  maxCertList := maxCertList
  handshakeReadSeq := 0
  nextHandshakeWriteSeq := 0
  bufferedMessages := []
  rMsgHdr := .zero
  initBuf := (BufMem.bufMemNew.bufMemGrow true ssl3RtMaxPlainLength).1
  initNum := 0
  current := []
  currentType := .handshake
  records := []
  received := []

end Dtls
end QuicTls
