import QuicTls.Crypto.Buffer
import QuicTls.Ssl.Tls13Enc

/-!
# QUIC input (ssl/ssl_quic.c, ssl/statem/statem_quic.c, `SSL_clear_quic` of ssl/ssl_lib.c)

The transport hands over CRYPTO stream bytes with `sslProvideQuicData`, which cuts them into
handshake messages; `quicGetMessage` takes the messages one at a time. The singly linked list of
`QUIC_DATA` nodes is a list from head to tail.

Memory may run out at each allocation. The functions take the outcome of every allocation they
may make as an argument.
-/

namespace QuicTls

/-- A `QUIC_DATA` node with the bytes that follow it in memory. -/
structure QuicData (β : Type) where
  level : EncryptionLevel
  bytes : List β
  deriving DecidableEq, Repr

structure SslConnection (Md β : Type) where
  keys : Tls13State Md
  quicInputData : List (QuicData β)
  quicBuf : Option (BufMem β)
  quicLatestLevelReceived : EncryptionLevel
  /-- whether `rwstate` is `SSL_READING` -/
  reading : Bool
  initBuf : BufMem β
  messageType : UInt8
  messageSize : Nat
  fatal : Option SslReason

/-- A new connection. -/
def SslConnection.new {Md : Type} (β : Type) (keys : Tls13State Md) : SslConnection Md β where
  keys := keys
  quicInputData := []
  quicBuf := none
  quicLatestLevelReceived := .initial
  reading := false
  initBuf := .bufMemNew
  messageType := 0
  messageSize := 0
  fatal := none

/-- The allocations of `SSL_provide_quic_data`. -/
inductive AllocSite where
  | fragment
  | node (i : Nat)
  | bufNew
  | save
  deriving DecidableEq, Repr

section Input

variable {Md β : Type} [Cell β]

def ssl3HmHeaderLength : Nat := 4

/-- `n2l3` of the three bytes that follow the message type -/
def n2l3 : List β → Nat
  | _ :: b1 :: b2 :: b3 :: _ =>
    (Cell.val b1).toNat * 65536 + (Cell.val b2).toNat * 256 + (Cell.val b3).toNat
  | _ => 0

/-- The loop of `SSL_provide_quic_data`: the queue, the bytes not consumed, and whether all
allocations succeeded. Each round consumes bytes, so `data.length` rounds are enough. -/
def splitRecords (alloc : Nat → Bool) (level : EncryptionLevel) :
    (fuel i : Nat) → List (QuicData β) → (data : List β) → List (QuicData β) × List β × Bool
  | 0, _, queue, data => (queue, data, true)
  | fuel + 1, i, queue, data =>
    if data.length ≤ ssl3HmHeaderLength then (queue, data, true)
    else
      let l := n2l3 data + ssl3HmHeaderLength
      if data.length < l then (queue, data, true)
      else if !alloc i then (queue, data, false)
      else splitRecords alloc level fuel (i + 1) (queue ++ [⟨level, data.take l⟩]) (data.drop l)

variable (alloc : AllocSite → Bool) (s : SslConnection Md β)

def fragmentLength : Nat :=
  match s.quicBuf with
  | some buf => buf.data.length
  | none => 0

/-- Append the data to a partial message; the bytes to parse are then those of `quic_buf`. -/
def joinFragment (data : List β) : Option (SslConnection Md β × List β) :=
  match s.quicBuf with
  | none => some (s, data)
  | some buf =>
    if buf.data.length = 0 then some (s, data)
    else
      let grown := buf.bufMemGrow (alloc .fragment) (buf.data.length + data.length)
      if grown.2 = 0 then none
      else
        let buf' := grown.1.write buf.data.length data
        some ({ s with quicBuf := some buf' }, buf'.data)

def saveIn (buf : BufMem β) (data : List β) : SslConnection Md β × Except SslReason Unit :=
  let grown := buf.bufMemGrow (alloc .save) data.length
  if grown.2 = 0 then ({ s with quicBuf := some grown.1 }, throw .internalError)
  else ({ s with quicBuf := some (grown.1.write 0 data) }, pure ())

/-- Save the bytes not consumed. `inPlace` says that they are all of `quic_buf` already. -/
def saveUnread (inPlace : Bool) (data : List β) : SslConnection Md β × Except SslReason Unit :=
  if 0 < data.length then
    match s.quicBuf with
    | some buf => if inPlace then (s, pure ()) else saveIn alloc s buf data
    | none => if alloc .bufNew then saveIn alloc s .bufMemNew data else (s, throw .internalError)
  else ({ s with quicBuf := s.quicBuf.map .clear }, pure ())

/-- `SSL_provide_quic_data` from where the data is accepted at `level`. -/
def acceptQuicData (level : EncryptionLevel) (data : List β) :
    SslConnection Md β × Except SslReason Unit :=
  match joinFragment alloc s data with
  | none => (s, throw .internalError)
  | some (s', data') =>
    let r := splitRecords (alloc <| .node ·) level data'.length 0 s'.quicInputData data'
    let s' := { s' with quicInputData := r.1 }
    if r.2.2 then saveUnread alloc s' (fragmentLength s ≠ 0 && r.2.1.length = data'.length) r.2.1
    else (s', throw .internalError)

def sslProvideQuicData (level : EncryptionLevel) (data : List β) :
    SslConnection Md β × Except SslReason Unit :=
  if !s.keys.isQuic then (s, throw .shouldNotHaveBeenCalled)
  -- the level can be different than the current read, but not less
  else if level < s.keys.quicReadLevel
      ∨ (∃ tail ∈ s.quicInputData.getLast?, level < tail.level)
      ∨ level < s.quicLatestLevelReceived then
    (s, throw .wrongEncryptionLevelReceived)
  else if data.length = 0 then (s, pure ())
  -- a message must not cross an encryption level boundary
  else if fragmentLength s ≠ 0 ∧ level ≠ s.quicLatestLevelReceived then
    (s, throw .wrongEncryptionLevelReceived)
  else acceptQuicData alloc { s with quicLatestLevelReceived := level } level data

/-- `quic_get_message`; the message is left in `initBuf`. The result is its type. -/
def quicGetMessage (alloc : Bool) (s : SslConnection Md β) : SslConnection Md β × Option UInt8 :=
  match s.quicInputData with
  | [] => ({ s with reading := true }, none)
  | qd :: next =>
    if qd.bytes.length < ssl3HmHeaderLength then ({ s with fatal := some .badLength }, none)
    else if qd.level ≠ s.keys.quicReadLevel then
      ({ s with fatal := some .wrongEncryptionLevelReceived }, none)
    else
      let grown := s.initBuf.bufMemGrow alloc qd.bytes.length
      if grown.2 = 0 then ({ s with initBuf := grown.1, fatal := some .bufLib }, none)
      else
        let initBuf := grown.1.write 0 qd.bytes
        let mt := (initBuf.data.head?.map Cell.val).getD 0
        ({ s with
            initBuf := initBuf, quicInputData := next
            messageType := mt, messageSize := n2l3 initBuf.data }, some mt)

def sslClearQuic : SslConnection Md β :=
  { s with
    keys := { s.keys with
      quicReadLevel := .initial, quicWriteLevel := .initial
      clientHandTrafficSecret := zeroSecret
      serverHandTrafficSecret := zeroSecret
      clientEarlyTrafficSecret := zeroSecret }
    quicLatestLevelReceived := .initial
    quicInputData := []
    quicBuf := none }

end Input

end QuicTls
