import QuicTls.Theory.CTypes
import QuicTls.Ssl.Types
import QuicTls.Ssl.Statem.Dtls

/-!
# Sending DTLS handshake messages (ssl/statem/statem_dtls.c)

`dtls1DoWrite` is `dtls1_do_write`, with the answers of the BIO, of `dtls1_query_mtu` and of
`dtls1_write_bytes` as arguments; the records that were sent and the bytes that `ssl3_finish_mac`
was given are kept in the state. The second part constructs messages and keeps them in the queue for
retransmission. A write record layer is a value of an arbitrary type `ω`.
-/

namespace QuicTls.DtlsWrite

open Dtls (dtls1HmHeaderLength)

/-! ### `dtls1_do_write` -/

structure Config where
  /-- `s->version == DTLS1_BAD_VER` -/
  badVer : Bool
  /-- `SSL_OP_NO_QUERY_MTU` -/
  noQueryMtu : Bool
  /-- `ssl_get_max_send_fragment` -/
  maxSendFragment : Nat
  /-- `SSL_CTRL_SET_MAX_SEND_FRAGMENT` refuses less, and so does the extension. -/
  le_maxSendFragment : 512 ≤ maxSendFragment

structure SentRecord (ω : Type) where
  wrl : ω
  /-- `SSL3_RT_HANDSHAKE`, or else `SSL3_RT_CHANGE_CIPHER_SPEC` -/
  handshake : Bool
  data : Bytes
  deriving DecidableEq, Repr

/-- The fields of `SSL_CONNECTION` that `dtls1_do_write` uses. -/
structure Writer (ω : Type) where
  /-- `init_buf->data` -/
  initBuf : Bytes
  initOff : Nat
  initNum : Nat
  /-- `d1->w_msg_hdr` -/
  wMsgHdr : HmHeader
  mtu : Nat
  retransmitting : Bool
  /-- `rlayer.wrl` with its method -/
  wrl : ω
  /-- the records that were sent -/
  sent : List (SentRecord ω)
  /-- what `ssl3_finish_mac` was given -/
  mac : Bytes
  deriving DecidableEq, Repr

/-- `dtls1_write_bytes`: all bytes are sent in one record, or none -/
inductive WriteResult where
  | sent
  | failed
  /-- `BIO_CTRL_DGRAM_MTU_EXCEEDED`, with the MTU that `dtls1_query_mtu` then finds; none if it
  fails -/
  | mtuExceeded (mtu : Option Nat)
  deriving DecidableEq, Repr

/-- The environment of a turn of the loop. -/
structure Turn where
  /-- `BIO_wpending` -/
  wpending : Nat
  /-- `BIO_flush` -/
  flush : Int
  write : WriteResult
  deriving DecidableEq, Repr

variable {ω : Type}

def dtls1WriteMessageHeader (hdr : HmHeader) : Bytes :=
  [hdr.type] ++ BigEndian.encode 3 hdr.msgLen ++ BigEndian.encode 2 hdr.seq
    ++ BigEndian.encode 3 hdr.fragOff ++ BigEndian.encode 3 hdr.fragLen

def dtls1FixMessageHeader (s : Writer ω) (fragOff fragLen : Nat) : Writer ω :=
  { s with wMsgHdr := { s.wMsgHdr with fragOff := fragOff, fragLen := fragLen } }

/-- The beginning of a turn: room for the header of a later fragment, and `frag_off`. -/
def makeRoom (handshake : Bool) (fragOff : Nat) (s : Writer ω) : Option (Writer ω × Nat) :=
  if handshake ∧ s.initOff ≠ 0 then
    if fragOff > 0 then
      -- "the first attempt at writing out this fragment"
      if s.initOff ≤ dtls1HmHeaderLength then none
      else
        some ({ s with
          initOff := s.initOff - dtls1HmHeaderLength
          initNum := s.initNum + dtls1HmHeaderLength }, fragOff)
    else
      -- "called again after a retry"
      some (s, s.wMsgHdr.fragOff)
  else some (s, fragOff)

/-- `curr_mtu`, or the value that is returned -/
def currMtu (mtu overhead : Nat) (t : Turn) : Except Int Nat :=
  let usedLen := t.wpending + overhead
  let currMtu := if mtu > usedLen then mtu - usedLen else 0
  if currMtu ≤ dtls1HmHeaderLength then
    if t.flush ≤ 0 then .error t.flush
    else if mtu > overhead + dtls1HmHeaderLength then .ok (mtu - overhead)
    else .error (-1)
  else .ok currMtu

variable (cfg : Config) (handshake : Bool)

/-- `len`; the comparison with the MTU converts `init_num` to `unsigned int` -/
def recordLen (initNum currMtu : Nat) : Nat :=
  let len := if initNum % 2 ^ 32 > currMtu then currMtu else initNum
  if len > cfg.maxSendFragment then cfg.maxSendFragment else len

variable (s : Writer ω)

/-- The header of a fragment is written in front of it. -/
def writeHeader (fragOff len : Nat) : Writer ω :=
  let s := dtls1FixMessageHeader s fragOff (len - dtls1HmHeaderLength)
  { s with initBuf := overwrite s.initBuf s.initOff (dtls1WriteMessageHeader s.wMsgHdr) }

/-- What `ssl3_finish_mac` is given after a record of `written` bytes. -/
def finishMac (fragOff written : Nat) : Writer ω :=
  if fragOff = 0 ∧ ¬cfg.badVer then
    -- the header of the message in a single fragment
    let initBuf := overwrite s.initBuf s.initOff s.wMsgHdr.toBytes
    { s with
      initBuf := initBuf
      mac := s.mac ++ slice initBuf s.initOff written }
  else
    { s with
      mac := s.mac ++ slice s.initBuf (s.initOff + dtls1HmHeaderLength)
        (written - dtls1HmHeaderLength) }

/-- How a turn ends: with the value to return, or with `frag_off` and `retry` for the next turn. -/
inductive TurnOut where
  | done (ret : Int)
  | again (fragOff : Nat) (retry : Bool)
  deriving DecidableEq, Repr

/-- A record of `written` bytes was sent; its bytes are fed to the handshake digest. -/
def logSent (fragOff written : Nat) : Writer ω :=
  let s := { s with
    sent := s.sent ++ [⟨s.wrl, handshake, slice s.initBuf s.initOff written⟩] }
  if handshake ∧ ¬s.retransmitting then finishMac cfg s fragOff written else s

/-- After a record was sent. -/
def afterSent (fragOff : Nat) (retry : Bool) (written : Nat) : Writer ω × TurnOut :=
  let s := logSent cfg handshake s fragOff written
  if written = s.initNum then ({ s with initOff := 0, initNum := 0 }, .done 1)
  else
    let fragOff := fragOff + (written - dtls1HmHeaderLength)
    let s := { s with initOff := s.initOff + written, initNum := s.initNum - written }
    (dtls1FixMessageHeader s fragOff 0, .again fragOff retry)

/-- What follows the call of `dtls1_write_bytes`. -/
def afterWrite (fragOff : Nat) (retry : Bool) (len : Nat) : WriteResult → Writer ω × TurnOut
  | .sent => afterSent cfg handshake s fragOff retry len
  | .failed => (s, .done (-1))
  | .mtuExceeded mtu =>
    if retry ∧ ¬cfg.noQueryMtu then
      match mtu with
      | none => (s, .done (-1))
      | some mtu => ({ s with mtu := mtu }, .again fragOff false)
    else (s, .done (-1))

/-- A turn of the loop of `dtls1_do_write`. -/
def doWriteTurn (overhead : Nat) (s : Writer ω) (fragOff : Nat) (retry : Bool)
    (t : Turn) : Writer ω × TurnOut :=
  match makeRoom handshake fragOff s with
  | none => (s, .done (-1))
  | some (s, fragOff) =>
    match currMtu s.mtu overhead t with
    | .error ret => (s, .done ret)
    | .ok currMtu =>
      let len := recordLen cfg s.initNum currMtu
      if handshake ∧ len < dtls1HmHeaderLength then (s, .done (-1))
      else
        let s := if handshake then writeHeader s fragOff len else s
        afterWrite cfg handshake s fragOff retry len t.write

/-- The loop of `dtls1_do_write`. When the environment has no further turn, the write fails. -/
def doWriteLoop (overhead : Nat) (s : Writer ω) (fragOff : Nat)
    (retry : Bool) : List Turn → Writer ω × Int
  | [] =>
    if s.initNum > 0 then
      ((doWriteTurn cfg handshake overhead s fragOff retry ⟨0, 1, .failed⟩).1, -1)
    else (s, 0)
  | t :: ts =>
    if s.initNum > 0 then
      match doWriteTurn cfg handshake overhead s fragOff retry t with
      | (s, .done ret) => (s, ret)
      | (s, .again fragOff retry) => doWriteLoop overhead s fragOff retry ts
    else (s, 0)

/-- The environment of a call. -/
structure Call where
  /-- the MTU that `dtls1_query_mtu` finds; none if it fails -/
  mtu : Option Nat
  /-- `dtls1_min_mtu` -/
  minMtu : Nat
  /-- `get_max_record_overhead` -/
  overhead : Nat
  turns : List Turn
  deriving DecidableEq, Repr

def dtls1DoWrite (c : Call) : Writer ω × Int :=
  match c.mtu with
  | none => (s, -1)
  | some mtu =>
    let s := { s with mtu := mtu }
    if s.mtu < c.minMtu then (s, -1)
    else if s.initOff = 0 ∧ handshake ∧ s.initNum ≠ s.wMsgHdr.msgLen + dtls1HmHeaderLength then
      (s, -1)
    else doWriteLoop cfg handshake c.overhead s 0 true c.turns

/-- Calls of `dtls1_do_write` until one returns 1. -/
def doWriteCalls (s : Writer ω) : List Call → Writer ω × Bool
  | [] => (s, false)
  | c :: cs =>
    let r := dtls1DoWrite cfg handshake s c
    if r.2 = 1 then (r.1, true) else doWriteCalls r.1 cs

/-! ### Constructing messages -/

/-- `hm_fragment` of a message that was sent -/
structure SentFragment (ω : Type) where
  msgHeader : HmHeader
  isCcs : Bool
  /-- `saved_retransmit_state` -/
  savedWrl : ω
  fragment : Bytes
  deriving DecidableEq, Repr

/-- What `dtls1_do_write` is to send. -/
structure Outgoing (ω : Type) where
  handshake : Bool
  hdr : HmHeader
  wrl : ω
  data : Bytes
  deriving DecidableEq, Repr

structure Sender (ω : Type) where
  writer : Writer ω
  /-- `handshake_write_seq`, 16 bits -/
  handshakeWriteSeq : Nat
  /-- `next_handshake_write_seq`, 16 bits -/
  nextHandshakeWriteSeq : Nat
  sentMessages : Pqueue (SentFragment ω)
  /-- the messages that were constructed, in order -/
  constructed : List (Outgoing ω)

inductive Message where
  | changeCipherSpec
  | handshake (htype : UInt8) (body : Bytes)
  deriving DecidableEq, Repr

def ssl3MtCcs : UInt8 := 1
def dtls1MtHelloVerifyRequest : UInt8 := 3
def dtls1CcsHeaderLength : Nat := 1

/-- What `dtls1_do_write` would send now. -/
def Writer.outgoing (s : Writer ω) (handshake : Bool) : Outgoing ω where
  handshake := handshake
  hdr := s.wMsgHdr
  wrl := s.wrl
  data := slice s.initBuf s.initOff s.initNum

variable (s : Sender ω)

def dtls1SetMessageHeaderInt (mt : UInt8) (len seqNum fragOff fragLen : Nat) :
    Sender ω :=
  { s with writer := { s.writer with wMsgHdr := ⟨mt, len, seqNum, fragOff, fragLen⟩ } }

def dtls1SetMessageHeader (mt : UInt8) (len fragOff fragLen : Nat) : Sender ω :=
  let s :=
    if fragOff = 0 then
      { s with
        handshakeWriteSeq := s.nextHandshakeWriteSeq
        nextHandshakeWriteSeq := (s.nextHandshakeWriteSeq + 1) % 2 ^ 16 }
    else s
  dtls1SetMessageHeaderInt s mt len s.handshakeWriteSeq fragOff fragLen

/-- The buffer after a packet writer left `gap` bytes free and wrote `data`. -/
def packetWrite (initBuf : Bytes) (gap : Nat) (data : Bytes) : Bytes :=
  overwrite (initBuf ++ List.replicate (gap + data.length - initBuf.length) 0) gap data

/-- `dtls1_set_handshake_header`, then the constructor of the message; with the length of the
packet. -/
def dtls1SetHandshakeHeader : Message → Sender ω × Nat
  | .changeCipherSpec =>
    let s := { s with handshakeWriteSeq := s.nextHandshakeWriteSeq }
    let s := dtls1SetMessageHeaderInt s ssl3MtCcs 0 s.handshakeWriteSeq 0 0
    -- `dtls_construct_change_cipher_spec`
    let extra := if cfg.badVer then BigEndian.encode 2 s.handshakeWriteSeq else []
    let s :=
      if cfg.badVer then
        { s with nextHandshakeWriteSeq := (s.nextHandshakeWriteSeq + 1) % 2 ^ 16 }
      else s
    ({ s with writer := { s.writer with
        initBuf := packetWrite s.writer.initBuf 0 ([ssl3MtCcs] ++ extra) } }, 1 + extra.length)
  | .handshake htype body =>
    let s := dtls1SetMessageHeader s htype 0 0 0
    ({ s with writer := { s.writer with
        initBuf := packetWrite s.writer.initBuf dtls1HmHeaderLength body } },
      dtls1HmHeaderLength + body.length)

def dtls1GetQueuePriority (seq : Nat) (isCcs : Bool) : Int := seq * 2 - isCcs.toNat

/-- `seq64be` of the queue: the low 16 bits of a priority -/
def queueKey (priority : Int) : Bytes :=
  [0, 0, 0, 0, 0, 0, UInt8.ofNat (priority / 256 % 256).toNat, UInt8.ofNat (priority % 256).toNat]

/-- The header length that `dtls1_buffer_message` expects; "for DTLS1_BAD_VER the header length is
non-standard". -/
def bufferedHeaderLength (isCcs : Bool) : Nat :=
  if isCcs then (if cfg.badVer then 3 else dtls1CcsHeaderLength) else dtls1HmHeaderLength

/-- `dtls1_buffer_message`. The result of `pqueue_insert` is ignored. -/
def dtls1BufferMessage (isCcs : Bool) : Option (Sender ω) :=
  let w := s.writer
  let hdr := w.wMsgHdr
  if w.initOff ≠ 0 then none
  else if hdr.msgLen + bufferedHeaderLength cfg isCcs ≠ w.initNum % 2 ^ 32 then none
  else
    let frag : SentFragment ω :=
      { msgHeader := { hdr with fragOff := 0, fragLen := hdr.msgLen }
        isCcs := isCcs
        savedWrl := w.wrl
        fragment := w.initBuf.take w.initNum }
    let item : PItem (SentFragment ω) :=
      ⟨queueKey (dtls1GetQueuePriority frag.msgHeader.seq frag.isCcs), frag⟩
    some { s with sentMessages := (s.sentMessages.pqueueInsert item).getD s.sentMessages }

/-- The header, `init_num` and `init_off` of a packet of `msglen` bytes. -/
def closedPacket (msglen : Nat) (m : Message) : Sender ω :=
  let hdr := s.writer.wMsgHdr
  let hdr := match m with
    | .changeCipherSpec => hdr
    | .handshake .. =>
      { hdr with
        msgLen := msglen - dtls1HmHeaderLength
        fragLen := msglen - dtls1HmHeaderLength }
  let w := { s.writer with wMsgHdr := hdr, initNum := msglen, initOff := 0 }
  { s with
    writer := w
    constructed := s.constructed ++ [w.outgoing (m matches .handshake ..)] }

/-- `dtls1_close_construct_packet` of a packet of `msglen` bytes; none if it fails -/
def dtls1CloseConstructPacket (msglen : Nat) (m : Message) : Option (Sender ω) :=
  if msglen > intMax then none
  else
    let s := closedPacket s msglen m
    match m with
    | .handshake htype _ =>
      if htype ≠ dtls1MtHelloVerifyRequest then dtls1BufferMessage cfg s false else some s
    | .changeCipherSpec => dtls1BufferMessage cfg s true

/-- A message is constructed. -/
def constructMessage (m : Message) : Option (Sender ω) :=
  let (s, msglen) := dtls1SetHandshakeHeader cfg s m
  dtls1CloseConstructPacket cfg s msglen m

/-! ### Retransmission -/

/-- `dtls1_retransmit_message`: the value that is returned, and `*found` -/
def dtls1RetransmitMessage (seq : Nat) (c : Call) : Sender ω × Int × Bool :=
  match s.sentMessages.pqueueFind (queueKey seq) with
  | none => (s, 0, false)
  | some item =>
    let frag := item.data
    let headerLength := if frag.isCcs then dtls1CcsHeaderLength else dtls1HmHeaderLength
    let len := frag.msgHeader.msgLen + headerLength
    let saved := s.writer.wrl
    let w := { s.writer with
      initBuf := overwrite s.writer.initBuf 0 (frag.fragment.take len)
      initNum := len
      wMsgHdr := { frag.msgHeader with fragOff := 0 }
      retransmitting := true
      wrl := frag.savedWrl }
    let (w, ret) := dtls1DoWrite cfg (!frag.isCcs) w c
    ({ s with writer := { w with wrl := saved, retransmitting := false } }, ret, true)

/-- The loop of `dtls1_retransmit_buffered_messages`, with the environment of each call of
`dtls1_do_write`; a call without one fails. -/
def retransmitLoop (s : Sender ω) : Pqueue (SentFragment ω) → List Call → Sender ω × Int
  | [], _ => (s, 1)
  | item :: items, calls =>
    let hdr := item.data.msgHeader
    let seq := (dtls1GetQueuePriority hdr.seq item.data.isCcs % 2 ^ 16).toNat
    let r := dtls1RetransmitMessage cfg s seq (calls.headD ⟨none, 0, 0, []⟩)
    if r.2.1 ≤ 0 then (r.1, -1) else retransmitLoop r.1 items calls.tail

def dtls1RetransmitBufferedMessages (calls : List Call) : Sender ω × Int :=
  retransmitLoop cfg s s.sentMessages calls

/-! ### A handshake -/

/-- What happens on the sending side of a handshake. -/
inductive Event (ω : Type) where
  | construct (m : Message)
  | write (handshake : Bool) (c : Call)
  /-- the write record layer is replaced -/
  | setWriteState (wrl : ω)
  /-- the timer expires -/
  | retransmit (calls : List Call)

/-- An event of the sending side; none if a message cannot be constructed. -/
def step : Event ω → Option (Sender ω)
  | .construct m => constructMessage cfg s m
  | .write handshake c =>
    some { s with writer := (dtls1DoWrite cfg handshake s.writer c).1 }
  | .setWriteState wrl => some { s with writer := { s.writer with wrl := wrl } }
  | .retransmit calls => some (dtls1RetransmitBufferedMessages cfg s calls).1

/-- A sequence of events. -/
def steps (events : List (Event ω)) : Option (Sender ω) :=
  events.foldlM (step cfg) s

/-- The messages that a sequence of events constructs. -/
def messages (events : List (Event ω)) : List Message :=
  events.filterMap fun
    | .construct m => some m
    | _ => none

end QuicTls.DtlsWrite
