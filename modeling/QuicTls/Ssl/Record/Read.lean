import QuicTls.Ssl.Record.Types
import QuicTls.Theory.Overwrite

/-!
# Reading records (ssl/record/methods/tls_common.c, tlsany_meth.c, tls13_meth.c)

The read buffer with its fields, `tls_default_read_n` and `tls_get_more_records` for TLS. The BIOs
are byte streams with a list of results, one for each `BIO_read`; the address of a new buffer and
the treatment of the records once they have been read (decryption, MAC, `post_process_record`) are
arguments. `OPENSSL_malloc` succeeds. The branches of `tls_default_read_n` for DTLS are left out.
-/

namespace QuicTls.Record.Read

/-! ### Constants -/

def ssl3AlignPayload : Nat := 8
def ssl3RtMaxEncryptedOverhead : Nat := 256 + 64
def ssl3RtMaxCompressedOverhead : Nat := 1024
def ssl3RtMaxCompressedLength : Nat := ssl3RtMaxPlainLength + ssl3RtMaxCompressedOverhead
def ssl3RtMaxEncryptedLength : Nat := ssl3RtMaxEncryptedOverhead + ssl3RtMaxCompressedLength
def ssl3RtMaxTls13EncryptedLength : Nat := ssl3RtMaxPlainLength + 256
def ssl2RtHeaderLength : Nat := 2
def minSsl2RecordLen : Nat := 9
def ssl2MtClientHello : UInt8 := 1
def ssl3VersionMajor : Nat := 3
def ssl2Version : Nat := 0x0002
def tlsAnyVersion : Nat := 0x10000
def maxEmptyRecords : Nat := 32

inductive Version where
  | ssl3
  | tls1
  | tls11
  | tls12
  | tls13
  deriving DecidableEq, Repr

def Version.toNat : Version → Nat
  | ssl3 => 0x0300
  | tls1 => 0x0301
  | tls11 => 0x0302
  | tls12 => 0x0303
  | tls13 => 0x0304

/-- `rl->funcs`, with the version of the layer. -/
inductive Method where
  /-- `tls_any_funcs`; the version is known once it is negotiated -/
  | any (version : Option Version)
  /-- `tls_1_funcs` and `ssl_3_0_funcs` -/
  | tls1 (version : Version)
  /-- `tls_1_3_funcs` -/
  | tls13
  deriving DecidableEq, Repr

/-- `rl->version` -/
def Method.version : Method → Nat
  | any none => tlsAnyVersion
  | any (some v) => v.toNat
  | tls1 v => v.toNat
  | tls13 => Version.tls13.toNat

/-- The fields of `OSSL_RECORD_LAYER` that reading does not change. -/
structure Config where
  meth : Method
  /-- `OSSL_RECORD_ROLE_SERVER` -/
  server : Bool
  maxFragLen : Nat
  /-- `tls_allow_compression` -/
  allowCompression : Bool
  /-- `rl->compctx != NULL` -/
  compctx : Bool
  maxPipelines : Nat
  /-- The cipher has `EVP_CIPH_FLAG_PIPELINE`. -/
  cipherPipelines : Bool
  defaultLen : Nat
  readAhead : Bool
  /-- `SSL_MODE_RELEASE_BUFFERS` -/
  releaseBuffers : Bool
  isFirstHandshake : Bool
  allowPlainAlerts : Bool
  deriving DecidableEq, Repr

/-! ### The buffer -/

/-- `TLS_BUFFER` for reading, with a buffer -/
structure ReadBuffer where
  /-- `len` bytes -/
  buf : Bytes
  /-- The address of the buffer. -/
  addr : Nat
  offset : Nat
  left : Nat
  deriving DecidableEq, Repr

variable (cfg : Config)

/-- The length that `tls_setup_read_buffer` chooses. -/
def readBufferLen : Nat :=
  let align := (ssl3AlignPayload - ssl3RtHeaderLength % ssl3AlignPayload) % ssl3AlignPayload
  let len := cfg.maxFragLen + ssl3RtMaxEncryptedOverhead + ssl3RtHeaderLength + align
  let len := if cfg.allowCompression then len + ssl3RtMaxCompressedOverhead else len
  let len := if cfg.maxPipelines > 1 then len * cfg.maxPipelines else len
  if cfg.defaultLen > len then cfg.defaultLen else len

/-- `tls_setup_read_buffer` when there is no buffer. The other fields are set before they are
used. -/
def tlsSetupReadBuffer (addr : Nat) : ReadBuffer :=
  ⟨List.replicate (readBufferLen cfg) 0, addr, 0, 0⟩

/-- Where the first packet of a buffer starts. -/
def readAlign (addr : Nat) : Nat :=
  ssl3AlignPayload - 1 - (addr + ssl3RtHeaderLength - 1) % ssl3AlignPayload

/-! ### The layer -/

/-- `rl->rstate` -/
inductive RState where
  | readHeader
  | readBody
  deriving DecidableEq, Repr

/-- The fields of `TLS_RL_RECORD` that come from the header. -/
structure RecHeader where
  type : UInt8
  recVersion : Nat
  length : Nat
  deriving DecidableEq, Repr

/-- A record that has been read. -/
structure Rec where
  type : UInt8
  recVersion : Nat
  data : Bytes
  deriving DecidableEq, Repr

/-- The fields of `OSSL_RECORD_LAYER` that reading changes. Between two calls there may be no
buffer. -/
structure Layer (β : Type) where
  rbuf : β
  /-- The index of the packet in the buffer. -/
  packet : Nat
  packetLength : Nat
  rstate : RState
  /-- `rl->rrec[0]` -/
  rr0 : RecHeader
  isFirstRecord : Bool
  deriving DecidableEq, Repr

variable (rl : Layer ReadBuffer)

def Layer.keep : Layer (Option ReadBuffer) :=
  { rl with rbuf := some rl.rbuf }

/-- `tls_release_read_buffer` -/
def Layer.release {β : Type} (rl : Layer β) : Layer (Option ReadBuffer) := { rl with rbuf := none }

/-- The bytes of the packet. -/
def Layer.packetBytes : Bytes :=
  slice rl.rbuf.buf rl.packet rl.packetLength

/-- The function that calls `RLAYERfatal`. -/
inductive Func where
  | tlsDefaultReadN
  | tlsGetMoreRecords
  | validateRecordHeader
  /-- One of the functions for records that have been read. -/
  | process
  deriving DecidableEq, Repr

structure Raised where
  func : Func
  fatal : Fatal
  deriving DecidableEq, Repr

/-! ### The BIOs -/

/-- The result of a `BIO_read` of the transport. -/
inductive BioRead where
  /-- So many bytes, if they are asked for and the stream has them. -/
  | bytes (n : Nat)
  | retry
  | eof
  | error
  deriving DecidableEq, Repr

/-- What is still to be read from the BIOs. -/
structure Io where
  /-- `rl->prev`, a memory BIO with what was left over at the end of the previous epoch -/
  prev : Option Bytes
  bio : Option Bytes
  deriving DecidableEq, Repr

/-- `BIO_read`: the bytes, or a result that has none. -/
def BioRead.read (r : BioRead) (content : Bytes) (asked : Nat) : Bytes × BioRead :=
  match r with
  | bytes n =>
    let d := content.take (min n asked)
    if d.length = 0 then ([], .retry) else (d, r)
  | _ => ([], r)

/-! ### `tls_default_read_n` -/

/-- The turns of the loop of `tls_default_read_n` that read from `rl->prev`, a memory BIO that is
freed when it is empty: the buffer, `left` and `rl->prev` afterwards. -/
def readPrev (n max pos : Nat) (buf : Bytes) (left : Nat) :
    Option Bytes → Bytes × Nat × Option Bytes
  | none => (buf, left, none)
  | some content =>
    let d := content.take (max - left)
    (overwrite buf (pos + left) d, left + d.length,
      if n ≤ left + d.length then some (content.drop d.length) else none)

/-- How the loop of `tls_default_read_n` ends. -/
structure LoopOut where
  buf : Bytes
  left : Nat
  bio : Option Bytes
  results : List BioRead
  ret : Return
  raised : Option Raised
  deriving DecidableEq, Repr

def readBioNotSet : Raised := ⟨.tlsDefaultReadN, .internalError, .readBioNotSet⟩

/-- The loop of `tls_default_read_n`: read from the transport until `n` bytes are there. A BIO
without a further result has no data. -/
def readLoop (n max pos : Nat) : List BioRead → Bytes → Nat → Option Bytes → LoopOut
  | [], buf, left, bio =>
    if n ≤ left then ⟨buf, left, bio, [], .success, none⟩
    else
      match bio with
      | none => ⟨buf, left, none, [], .fatal, some readBioNotSet⟩
      | some content => ⟨buf, left, some content, [], .retry, none⟩
  | r :: rs, buf, left, bio =>
    if n ≤ left then ⟨buf, left, bio, r :: rs, .success, none⟩
    else
      match bio with
      | none => ⟨buf, left, none, r :: rs, .fatal, some readBioNotSet⟩
      | some content =>
        match r.read content (max - left) with
        | (d, .bytes _) =>
          readLoop n max pos rs (overwrite buf (pos + left) d) (left + d.length)
            (some (content.drop d.length))
        | (_, .retry) => ⟨buf, left, some content, rs, .retry, none⟩
        | (_, .eof) => ⟨buf, left, some content, rs, .eof, none⟩
        | (_, .error) => ⟨buf, left, some content, rs, .fatal, none⟩

/-- The result of a step of a call, with the BIOs and their remaining results. -/
inductive Out (α : Type) where
  | ok (a : α) (rl : Layer ReadBuffer) (io : Io) (results : List BioRead)
  | failed (rl : Layer (Option ReadBuffer)) (io : Io) (results : List BioRead) (ret : Return)
      (raised : Option Raised)
  deriving DecidableEq, Repr

def Out.bind {α β : Type} (o : Out α)
    (f : α → Layer ReadBuffer → Io → List BioRead → Out β) : Out β :=
  match o with
  | ok a rl io results => f a rl io results
  | failed rl io results ret raised => failed rl io results ret raised

/-- The packet at the beginning of `tls_default_read_n`: an empty one unless it is extended. -/
def startPacket (extend : Bool) : Layer ReadBuffer :=
  if extend then rl
  else
    let offset := if rl.rbuf.left = 0 then readAlign rl.rbuf.addr else rl.rbuf.offset
    { rl with
      rbuf := { rl.rbuf with offset := offset }
      packet := offset
      packetLength := 0 }

/-- Move the available bytes to the front of the buffer. -/
def moveToFront (clearold : Bool) : Layer ReadBuffer :=
  let rb := rl.rbuf
  let align := readAlign rb.addr
  let len := rl.packetLength
  if rl.packet ≠ align ∧ clearold then
    { rl with
      rbuf := { rb with
        buf := overwrite rb.buf align (slice rb.buf rl.packet (len + rb.left))
        offset := len + align }
      packet := align }
  else rl

/-- The bytes that are there become part of the packet. -/
def takeBytes (n : Nat) : Layer ReadBuffer :=
  { rl with
    rbuf := { rl.rbuf with
      offset := rl.rbuf.offset + n
      left := rl.rbuf.left - n }
    packetLength := rl.packetLength + n }

/-- How many bytes `tls_default_read_n` asks for, if `n` are needed and `room` is left in the
buffer. -/
def readMax (n max room : Nat) : Nat :=
  if !cfg.readAhead then n
  else
    let max := if max < n then n else max
    if max > room then room else max

/-- The part of `tls_default_read_n` after the packet has been moved. -/
def readMore (n max : Nat) (io : Io) (results : List BioRead) : Out Unit :=
  let rb := rl.rbuf
  if rb.left ≥ n then .ok () (takeBytes rl n) io results
  else if n > rb.buf.length - rb.offset then
    -- does not happen
    .failed rl.keep io results .fatal (some ⟨.tlsDefaultReadN, .internalError, .internalError⟩)
  else
    let max := readMax cfg n max (rb.buf.length - rb.offset)
    let len := rl.packetLength
    let pos := readAlign rb.addr + len
    let (buf, left, prev) := readPrev n max pos rb.buf rb.left io.prev
    let out := readLoop n max pos results buf left io.bio
    let rl := { rl with rbuf := { rb with buf := out.buf, left := out.left } }
    let io : Io := ⟨prev, out.bio⟩
    if out.ret = .success then .ok () (takeBytes rl n) io out.results
    else
      let rl := if cfg.releaseBuffers ∧ len + out.left = 0 then rl.release else rl.keep
      .failed rl io out.results out.ret out.raised

def tlsDefaultReadN (n max : Nat) (extend clearold : Bool) (io : Io)
    (results : List BioRead) : Out Unit :=
  if n = 0 then .failed rl.keep io results .nonFatalErr none
  else readMore cfg (moveToFront (startPacket rl extend) clearold) n max io results

/-! ### Headers -/

/-- The part of `tls_get_more_records` that takes a header apart; `len` is the length of the
buffer. -/
def parseHeader (isFirstRecord : Bool) (len : Nat) (packet : Bytes) : Except Fatal RecHeader :=
  match packet with
  | b0 :: b1 :: b2 :: b3 :: b4 :: _ =>
    let sslv2len := b0.toNat * 256 + b1.toNat
    if cfg.server ∧ isFirstRecord ∧ sslv2len ≥ 0x8000 ∧ b2 = ssl2MtClientHello then
      let thisrr : RecHeader := ⟨ssl3RtHandshake, ssl2Version, sslv2len % 0x8000⟩
      if thisrr.length > len - ssl2RtHeaderLength then
        throw ⟨.recordOverflow, .packetLengthTooLong⟩
      else pure thisrr
    else
      let thisrr : RecHeader :=
        ⟨b0, b1.toNat * 256 + b2.toNat, b3.toNat * 256 + b4.toNat⟩
      if thisrr.recVersion = ssl2Version then throw ⟨.protocolVersion, .wrongVersionNumber⟩
      else if thisrr.length > len - ssl3RtHeaderLength then
        throw ⟨.recordOverflow, .packetLengthTooLong⟩
      else pure thisrr
  | _ => throw ⟨.decodeError, .internalError⟩

/-- The characters of a text as bytes. -/
def asciiBytes (s : String) : Bytes := s.toList.map fun c => UInt8.ofNat c.toNat

/-- The errors for a first record that does not look like TLS. -/
def notTls (packet : Bytes) : Fatal :=
  if ["GET ", "POST ", "HEAD ", "PUT "].any fun s => (asciiBytes s).isPrefixOf packet then
    ⟨.noAlert, .httpRequest⟩
  else if (asciiBytes "CONNE").isPrefixOf packet then ⟨.noAlert, .httpsProxyRequest⟩
  else ⟨.noAlert, .wrongVersionNumber⟩

/-- The version check of `tls_validate_record_header` in tlsany_meth.c -/
def anyCheckVersion (version : Option Version) (isFirstRecord : Bool) (packet : Bytes)
    (thisrr : RecHeader) : Except Fatal Unit :=
  if thisrr.recVersion = ssl2Version then
    if version ≠ none then throw ⟨.internalError, .internalError⟩
    else if thisrr.length < minSsl2RecordLen then throw ⟨.decodeError, .lengthTooShort⟩
    else pure ()
  else
    match version with
    | none =>
      if thisrr.recVersion / 256 ≠ ssl3VersionMajor then
        if isFirstRecord then throw (notTls packet)
        else throw ⟨.protocolVersion, .wrongVersionNumber⟩
      else pure ()
    | some .tls13 => pure ()
    | some v =>
      if thisrr.recVersion ≠ v.toNat then
        if v.toNat / 256 = thisrr.recVersion / 256 ∧ thisrr.type = ssl3RtAlert then
          throw ⟨.noAlert, .wrongVersionNumber⟩
        else throw ⟨.protocolVersion, .wrongVersionNumber⟩
      else pure ()

/-- `validate_record_header` of the methods -/
def validateRecordHeader (isFirstRecord : Bool) (packet : Bytes)
    (thisrr : RecHeader) : Except Fatal Unit :=
  match cfg.meth with
  | .any version => do
    anyCheckVersion version isFirstRecord packet thisrr
    if thisrr.length > ssl3RtMaxPlainLength then throw ⟨.recordOverflow, .dataLengthTooLong⟩
    else pure ()
  | .tls1 version =>
    if thisrr.recVersion ≠ version.toNat then throw ⟨.protocolVersion, .wrongVersionNumber⟩
    else
      let len :=
        if cfg.compctx then ssl3RtMaxEncryptedLength
        else ssl3RtMaxEncryptedLength - ssl3RtMaxCompressedOverhead
      if thisrr.length > len then throw ⟨.recordOverflow, .encryptedLengthTooLong⟩ else pure ()
  | .tls13 =>
    if thisrr.type ≠ ssl3RtApplicationData
        ∧ (thisrr.type ≠ ssl3RtChangeCipherSpec ∨ !cfg.isFirstHandshake)
        ∧ (thisrr.type ≠ ssl3RtAlert ∨ !cfg.allowPlainAlerts) then
      throw ⟨.unexpectedMessage, .badRecordType⟩
    else if thisrr.recVersion ≠ Version.tls12.toNat then
      throw ⟨.decodeError, .wrongVersionNumber⟩
    else if thisrr.length > ssl3RtMaxTls13EncryptedLength then
      throw ⟨.recordOverflow, .encryptedLengthTooLong⟩
    else pure ()

/-! ### `tls_get_more_records` -/

/-- Both checks of a header. -/
def checkHeader (isFirstRecord : Bool) (len : Nat) (packet : Bytes) : Except Raised RecHeader :=
  match parseHeader cfg isFirstRecord len packet with
  | .error fatal => .error ⟨.tlsGetMoreRecords, fatal⟩
  | .ok thisrr =>
    match validateRecordHeader cfg isFirstRecord packet thisrr with
    | .error fatal => .error ⟨.validateRecordHeader, fatal⟩
    | .ok () => .ok thisrr

/-- The header of the record, as it is kept or read now. -/
def getHeader (first : Bool) (rl : Layer ReadBuffer) (io : Io)
    (results : List BioRead) : Out RecHeader :=
  if rl.rstate ≠ .readBody ∨ rl.packetLength < ssl3RtHeaderLength then
    (tlsDefaultReadN cfg rl ssl3RtHeaderLength rl.rbuf.buf.length false first io results).bind
      fun _ rl io results =>
        let rl := { rl with rstate := .readBody }
        match checkHeader cfg rl.isFirstRecord rl.rbuf.buf.length rl.packetBytes with
        | .error raised => .failed rl.keep io results .fatal (some raised)
        | .ok thisrr => .ok thisrr (if first then { rl with rr0 := thisrr } else rl) io results
  else .ok rl.rr0 rl io results

/-- How many bytes the rest of the record has. -/
def RecHeader.more (thisrr : RecHeader) : Nat :=
  if thisrr.recVersion = ssl2Version then
    thisrr.length + ssl2RtHeaderLength - ssl3RtHeaderLength
  else thisrr.length

/-- Where the data of the record starts in the packet. -/
def RecHeader.start (thisrr : RecHeader) : Nat :=
  if thisrr.recVersion = ssl2Version then ssl2RtHeaderLength else ssl3RtHeaderLength

/-- The rest of the record. -/
def getBody (thisrr : RecHeader) (rl : Layer ReadBuffer) (io : Io)
    (results : List BioRead) : Out Rec :=
  (if thisrr.more > 0 then
    tlsDefaultReadN cfg rl thisrr.more thisrr.more true false io results
  else .ok () rl io results).bind fun _ rl io results =>
    .ok ⟨thisrr.type, thisrr.recVersion, slice rl.rbuf.buf (rl.packet + thisrr.start) thisrr.length⟩
      { rl with rstate := .readHeader, packetLength := 0, isFirstRecord := false } io results

def tlsRecordAppDataWaiting (rb : ReadBuffer) : Bool :=
  match slice rb.buf rb.offset rb.left with
  | b0 :: _ :: _ :: b3 :: b4 :: _ =>
    decide (b0 = ssl3RtApplicationData ∧ rb.left ≥ ssl3RtHeaderLength + (b3.toNat * 256 + b4.toNat))
  | _ => false

/-- `RLAYER_USE_EXPLICIT_IV` and the flag of the cipher -/
def Config.pipelines : Bool :=
  (cfg.meth.version = Version.tls11.toNat ∨ cfg.meth.version = Version.tls12.toNat) ∧
    cfg.cipherPipelines

/-- The loop of `tls_get_more_records`, for at most so many records. -/
def getRecords : Nat → Bool → Layer ReadBuffer → Io → List BioRead → Out (List Rec)
  | 0, _, rl, io, results => .ok [] rl io results
  | k + 1, first, rl, io, results =>
    (getHeader cfg first rl io results).bind fun thisrr rl io results =>
    (getBody cfg thisrr rl io results).bind fun rec rl io results =>
      if k > 0 ∧ rec.type = ssl3RtApplicationData ∧ cfg.pipelines
          ∧ tlsRecordAppDataWaiting rl.rbuf then
        (getRecords k false rl io results).bind fun recs rl io results =>
          .ok (rec :: recs) rl io results
      else .ok [rec] rl io results

/-- The layer and its BIOs between two calls; `π` is the state of what is done with the records
that have been read. -/
structure State (π : Type) where
  rl : Layer (Option ReadBuffer)
  io : Io
  proc : π
  deriving DecidableEq, Repr

/-- What a call returns. -/
inductive Outcome where
  | records (recs : List Rec)
  | failed (ret : Return) (raised : Option Raised)
  deriving DecidableEq, Repr

/-- A call: the address of the buffer if a new one is needed, and the results of the BIOs. -/
structure Call where
  addr : Nat
  results : List BioRead
  deriving DecidableEq, Repr

/-- `tls_release_record` for all records that a call returned: only a released buffer is seen by the
next call. -/
def releaseRecords (recs : List Rec) : Layer (Option ReadBuffer) :=
  if recs ≠ [] ∧ cfg.releaseBuffers ∧ rl.rbuf.left = 0 then rl.release else rl.keep

section

variable {π : Type} (process : Config → π → List Rec → Except Fatal (π × List Rec))

/-- `tls_get_more_records`, after which all records are released -/
def tlsGetMoreRecords (cfg : Config) (s : State π) (c : Call) : State π × Outcome :=
  let rb := s.rl.rbuf.getD (tlsSetupReadBuffer cfg c.addr)
  let maxRecs := if cfg.maxPipelines = 0 then 1 else cfg.maxPipelines
  match getRecords cfg maxRecs true { s.rl with rbuf := rb } s.io c.results with
  | .failed rl io _ ret raised => (⟨rl, io, s.proc⟩, .failed ret raised)
  | .ok recs rl io _ =>
    match process cfg s.proc recs with
    | .error fatal => (⟨rl.keep, io, s.proc⟩, .failed .fatal (some ⟨.process, fatal⟩))
    | .ok (proc, recs) => (⟨releaseRecords cfg rl recs, io, proc⟩, .records recs)

/-- Calls up to the first fatal error. -/
def runCalls (cfg : Config) (s : State π) : List Call → State π × List Outcome
  | [] => (s, [])
  | c :: cs =>
    match tlsGetMoreRecords process cfg s c with
    | (s', .failed .fatal raised) => (s', [.failed .fatal raised])
    | (s', out) =>
      let (s'', outs) := runCalls cfg s' cs
      (s'', out :: outs)

end

/-! ### Records without protection -/

/-- A ChangeCipherSpec message that TLS 1.3 ignores. -/
def ignoredCcs (rec : Rec) : Bool :=
  rec.type = ssl3RtChangeCipherSpec ∧ cfg.meth.version = Version.tls13.toNat ∧ cfg.isFirstHandshake

/-- The checks of a record in the last loop of `tls_get_more_records`, with
`tls_default_post_process_record` and without compression; the number is
`rl->empty_record_count`. -/
def postProcess (emptyRecordCount : Nat) (rec : Rec) : Except Fatal Nat :=
  if rec.data.length > ssl3RtMaxPlainLength then throw ⟨.recordOverflow, .dataLengthTooLong⟩
  else if cfg.maxFragLen ≠ ssl3RtMaxPlainLength ∧ rec.data.length > cfg.maxFragLen then
    throw ⟨.recordOverflow, .dataLengthTooLong⟩
  else if rec.data.length = 0 then
    if emptyRecordCount + 1 > maxEmptyRecords then throw ⟨.unexpectedMessage, .recordTooSmall⟩
    else pure (emptyRecordCount + 1)
  else pure 0

/-- The rest of `tls_get_more_records` for a layer without a cipher and a MAC. -/
def processPlain (emptyRecordCount : Nat) (recs : List Rec) : Except Fatal (Nat × List Rec) :=
  match recs with
  | [rec] =>
    if ignoredCcs cfg rec then
      if rec.data ≠ [1] then throw ⟨.illegalParameter, .invalidCcsMessage⟩
      else if emptyRecordCount + 1 > maxEmptyRecords then
        throw ⟨.unexpectedMessage, .unexpectedCcsMessage⟩
      else pure (emptyRecordCount + 1, [])
    else do
      let emptyRecordCount ← postProcess cfg emptyRecordCount rec
      pure (emptyRecordCount, [rec])
  | recs => do
    let emptyRecordCount ← recs.foldlM (postProcess cfg) emptyRecordCount
    pure (emptyRecordCount, recs)

/-- The layer before its first call. -/
def Layer.new (first : Bool) : Layer (Option ReadBuffer) :=
  ⟨none, 0, 0, .readHeader, ⟨0, 0, 0⟩, first⟩

end QuicTls.Record.Read
