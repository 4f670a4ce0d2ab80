import QuicTls.Ssl.Statem.Lib

/-!
# The server's state machine (ssl/statem/statem_srvr.c)

A `case` that falls through to the next one is a function that ends in the next one's function.
-/

namespace QuicTls

namespace Statem

variable (s : Statem)

/-! ### Reading -/

/-- `case TLS_ST_SR_END_OF_EARLY_DATA` and `case TLS_ST_SW_FINISHED` -/
def readClientFlight (mt : MessageType) : Statem × Bool :=
  if s.certRequest then
    if mt = .certificate then s.accept .srCert
    else if mt = .compressedCertificate ∧ s.compressCertificateSent then s.accept .srCompCert
    else s.reject
  else if mt = .finished then s.accept .srFinished
  else s.reject

def server13ReadTransition (mt : MessageType) : Statem × Bool :=
  match s.handState with
  | .earlyData =>
    if s.helloRetryRequest = .pending then
      if mt = .clientHello then s.accept .srClntHello else s.reject
    else if s.earlyData = .accepted ∧ !s.isQuic then
      if mt = .endOfEarlyData then s.accept .srEndOfEarlyData else s.reject
    else s.readClientFlight mt
  | .srEndOfEarlyData | .swFinished => s.readClientFlight mt
  | .srCompCert | .srCert =>
    if !s.peer then
      if mt = .finished then s.accept .srFinished else s.reject
    else if mt = .certificateVerify then s.accept .srCertVrfy
    else s.reject
  | .srCertVrfy => if mt = .finished then s.accept .srFinished else s.reject
  | .ok =>
    if s.earlyDataState = .reading then s.reject
    else if s.postHandshakeAuth = .requested ∧ mt = .certificate then s.accept .srCert
    else if s.postHandshakeAuth = .requested ∧ mt = .compressedCertificate
        ∧ s.compressCertificateSent then s.accept .srCompCert
    else if mt = .keyUpdate ∧ !s.isQuicHandshake then s.accept .srKeyUpdate
    else s.reject
  | _ => s.reject

/-- `case TLS_ST_SW_SRVR_DONE` -/
def readAfterSrvrDone (mt : MessageType) : Statem × Bool :=
  if mt = .clientKeyExchange then
    if s.certRequest then
      if s.isSsl3 then
        if s.verifyMode.peer ∧ s.verifyMode.failIfNoPeerCert then (s.fatal, false)
        else s.accept .srKeyExch
      else s.reject
    else s.accept .srKeyExch
  else if s.certRequest ∧ mt = .certificate then s.accept .srCert
  else s.reject

/-- The `switch` of `ossl_statem_server_read_transition` -/
def server12ReadTransition (mt : MessageType) : Statem × Bool :=
  match s.handState with
  | .before | .ok | .dtlsSwHelloVerifyRequest =>
    if mt = .clientHello then s.accept .srClntHello else s.reject
  | .swSrvrDone => s.readAfterSrvrDone mt
  | .srCert => if mt = .clientKeyExchange then s.accept .srKeyExch else s.reject
  | .srKeyExch =>
    if !s.peer ∨ s.noCertVerify then
      if mt = .changeCipherSpec then s.accept .srChange else s.reject
    else if mt = .certificateVerify then s.accept .srCertVrfy
    else s.reject
  | .srCertVrfy => if mt = .changeCipherSpec then s.accept .srChange else s.reject
  | .srChange => if mt = .finished then s.accept .srFinished else s.reject
  | .swFinished => if mt = .changeCipherSpec then s.accept .srChange else s.reject
  | _ => s.reject

def serverReadTransition (mt : MessageType) : Statem × Bool :=
  unexpected mt (if s.isTls13 then s.server13ReadTransition mt else s.server12ReadTransition mt)

/-! ### Processing -/

/-- `tls_process_client_hello`, with what `tls_post_process_client_hello` settles. -/
def tlsProcessClientHello (b : Body) : Statem × MsgProcessReturn :=
  if !s.renegotiate ∧ !s.isFirstHandshake ∧ s.isTls13 then s.processError
  else if !s.renegotiate ∧ !s.isFirstHandshake ∧ s.noRenegotiation then (s, .finishedReading)
  else
    let s := if !s.renegotiate ∧ !s.isFirstHandshake then { s with renegotiate := true } else s
    if !b.valid then s.processError
    else if s.dtls ∧ s.cookieExchange ∧ !b.hasCookie then (s, .finishedReading)
    else ({ s with
      toSettled := b.settled
      cookieVerified := s.cookieVerified || s.dtls && s.cookieExchange }, .continueProcessing)

def tlsProcessEndOfEarlyData (b : Body) : Statem × MsgProcessReturn :=
  if b.valid ∧ (s.earlyDataState = .reading ∨ s.earlyDataState = .readRetry) then
    ({ s with earlyDataState := .finishedReading }, .continueReading)
  else s.processError

/-- `tls_process_client_certificate`, `tls_process_client_rpk` and, after decompression,
`tls_process_client_compressed_certificate` -/
def tlsProcessClientCertificate (b : Body) : Statem × MsgProcessReturn :=
  if !b.valid then s.processError
  else if !b.hasCert ∧ (s.isSsl3 ∨ s.verifyMode.peer ∧ s.verifyMode.failIfNoPeerCert) then
    s.processError
  else ({ s with
    peer := b.hasCert
    sentTickets := if s.isTls13 then 0 else s.sentTickets }, .continueReading)

def tlsProcessClientKeyExchange (b : Body) : Statem × MsgProcessReturn :=
  if !b.valid then s.processError
  else ({ s with
    noCertVerify := s.noCertVerify
      || b.certKeyUsed && s.newCipher.algorithmMkey &&& sslkGOST != 0 }, .continueProcessing)

def serverProcessMessage (b : Body) : Statem × MsgProcessReturn :=
  match s.handState with
  | .srClntHello => s.tlsProcessClientHello b
  | .srEndOfEarlyData => s.tlsProcessEndOfEarlyData b
  | .srCert | .srCompCert => s.tlsProcessClientCertificate b
  | .srKeyExch => s.tlsProcessClientKeyExchange b
  | .srCertVrfy => s.tlsProcessCertVerify b
  | .srChange => s.tlsProcessChangeCipherSpec b
  | .srFinished => s.tlsProcessFinished b
  | .srKeyUpdate => s.tlsProcessKeyUpdate b
  | _ => s.processError

def serverPostProcessMessage (w : Work) : Statem × WorkState :=
  match s.handState with
  | .srClntHello =>
    match w with
    | .fail => (s.fatal, .error)
    | .retry => (s, .more)
    | .done _ => (s, .finishedStop)
  | .srKeyExch => s.flushed w
  | _ => (s.fatal, .error)

/-! ### Writing -/

def sendServerKeyExchange : Bool :=
  s.newCipher.algorithmMkey &&& (sslkDHE ||| sslkECDHE) != 0
    || (s.newCipher.algorithmMkey &&& (sslkPSK ||| sslkRSAPSK) != 0 && s.pskIdentityHint)
    || s.newCipher.algorithmMkey &&& (sslPSK &&& (sslkDHEPSK ||| sslkECDHEPSK)) != 0

def sendCertificateRequest : Bool :=
  s.verifyMode.peer
    && (!s.isTls13 || !s.verifyMode.postHandshake || s.postHandshakeAuth == .requestPending)
    && (s.certreqsSent < 1 || !s.verifyMode.clientOnce)
    && (s.newCipher.algorithmAuth &&& sslaNULL == 0 || s.verifyMode.failIfNoPeerCert)
    && s.newCipher.algorithmAuth &&& sslaPSK == 0

def compressedCertificateAlg : Option Nat :=
  s.cert.bind fun algs => s.compressCertificateFromPeer.find? (algs.contains ·)

/-- `do_compressed_cert` -/
def serverDoCompressedCert : Bool := s.serverCertX509 && s.compressedCertificateAlg.isSome

/-- The state in which the server's certificate is sent in TLS 1.3. -/
def serverCertState : HandState := if s.serverDoCompressedCert then .swCompCert else .swCert

def server13WriteTransition : Statem × WriteTran :=
  match s.handState with
  | .ok =>
    if s.keyUpdate ≠ .none then s.moveTo .swKeyUpdate
    else if s.postHandshakeAuth = .requestPending then s.moveTo .swCertReq
    else if 0 < s.extraTicketsExpected then s.moveTo .swSessionTicket
    else (s, .finished)
  | .srClntHello => s.moveTo .swSrvrHello
  | .swSrvrHello =>
    s.moveTo (if s.enableMiddleboxCompat ∧ s.helloRetryRequest ≠ .complete then .swChange
      else if s.helloRetryRequest = .pending then .earlyData
      else .swEncryptedExtensions)
  | .swChange =>
    s.moveTo (if s.helloRetryRequest = .pending then .earlyData else .swEncryptedExtensions)
  | .swEncryptedExtensions =>
    s.moveTo (if s.hit then .swFinished
      else if s.sendCertificateRequest then .swCertReq
      else s.serverCertState)
  | .swCertReq =>
    if s.postHandshakeAuth = .requestPending then
      { s with postHandshakeAuth := .requested }.moveTo .ok
    else s.moveTo s.serverCertState
  | .swCompCert | .swCert => s.moveTo .swCertVrfy
  | .swCertVrfy => s.moveTo .swFinished
  | .swFinished => s.moveTo .earlyData
  | .earlyData => (s, .finished)
  | .srFinished =>
    let ticket : HandState := if s.sentTickets < s.numTickets then .swSessionTicket else .ok
    if s.postHandshakeAuth = .requested then
      { s with postHandshakeAuth := .extReceived }.moveTo ticket
    else if !s.ticketExpected then s.moveTo .ok
    else s.moveTo ticket
  | .srKeyUpdate | .swKeyUpdate => s.moveTo .ok
  | .swSessionTicket =>
    if !s.isFirstHandshake ∧ 0 < s.extraTicketsExpected then (s, .continue)
    else if s.hit ∨ s.numTickets ≤ s.sentTickets then s.moveTo .ok
    else (s, .continue)
  | _ => (s.fatal, .error)

/-- `case TLS_ST_SW_KEY_EXCH` -/
def writeAfterKeyExch : Statem × WriteTran :=
  s.moveTo (if s.sendCertificateRequest then .swCertReq else .swSrvrDone)

/-- `case TLS_ST_SW_CERT_STATUS` -/
def writeAfterCertStatus : Statem × WriteTran :=
  if s.sendServerKeyExchange then s.moveTo .swKeyExch else s.writeAfterKeyExch

/-- The `switch` of `ossl_statem_server_write_transition`; `setup` is the outcome of
`tls_setup_handshake`. -/
def server12WriteTransition (setup : Bool) : Statem × WriteTran :=
  match s.handState with
  | .ok =>
    if s.requestState = .swHelloReq then { s with requestState := .before }.moveTo .swHelloReq
    else if setup then ((s.tlsSetupHandshake true).1, .finished)
    else (s.fatal, .error)
  | .before => (s, .finished)
  | .swHelloReq => s.moveTo .ok
  | .srClntHello =>
    s.moveTo (if s.dtls ∧ !s.cookieVerified ∧ s.cookieExchange then .dtlsSwHelloVerifyRequest
      -- the renegotiation was rejected
      else if !s.renegotiate ∧ !s.isFirstHandshake then .ok
      else .swSrvrHello)
  | .dtlsSwHelloVerifyRequest => (s, .finished)
  | .swSrvrHello =>
    s.moveTo (if s.hit then
        if s.ticketExpected then .swSessionTicket else .swChange
      else if s.newCipher.algorithmAuth &&& (sslaNULL ||| sslaPSK) = 0 then .swCert
      else if s.sendServerKeyExchange then .swKeyExch
      else if s.sendCertificateRequest then .swCertReq
      else .swSrvrDone)
  | .swCert => if s.statusExpected then s.moveTo .swCertStatus else s.writeAfterCertStatus
  | .swCertStatus => s.writeAfterCertStatus
  | .swKeyExch => s.writeAfterKeyExch
  | .swCertReq => s.moveTo .swSrvrDone
  | .swSrvrDone => (s, .finished)
  | .srFinished =>
    s.moveTo (if s.hit then .ok else if s.ticketExpected then .swSessionTicket else .swChange)
  | .swSessionTicket => s.moveTo .swChange
  | .swChange => s.moveTo .swFinished
  | .swFinished => if s.hit then (s, .finished) else s.moveTo .ok
  | _ => (s.fatal, .error)

def serverWriteTransition (setup : Bool) : Statem × WriteTran :=
  if s.isTls13 then s.server13WriteTransition else s.server12WriteTransition setup

def serverPreWork (w : Work) : Statem × WorkState :=
  match s.handState with
  | .swHelloReq | .dtlsSwHelloVerifyRequest => ({ s with sentShutdown := false }, .finishedContinue)
  | .swSessionTicket =>
    if s.isTls13 ∧ s.sentTickets = 0 ∧ s.extraTicketsExpected = 0 then
      s.tlsFinishHandshake w false false
    else (s, .finishedContinue)
  | .swChange => if !s.isTls13 ∧ w = .fail then (s.fatal, .error) else (s, .finishedContinue)
  | .earlyData =>
    if s.earlyDataState ≠ .accepting ∧ !s.stateless then (s, .finishedContinue)
    else s.tlsFinishHandshake w true true
  | .ok => s.tlsFinishHandshake w true true
  | _ => (s, .finishedContinue)

/-- `tls_construct_new_session_ticket`; a TLS 1.3 server may decide not to send the ticket. -/
def tlsConstructNewSessionTicket (send : Bool) : Statem × Option MessageType :=
  if s.isTls13 then
    ({ s with
      sentTickets := s.sentTickets + 1
      extraTicketsExpected := s.extraTicketsExpected - 1 },
      if send then some .newsessionTicket else none)
  else (s, some .newsessionTicket)

/-- `ossl_statem_server_construct_message` and the construction function it selects: the state and
the message type, `none` standing for no message. -/
def serverConstructMessage (send : Bool) : Option (Statem × Option MessageType) :=
  match s.handState with
  | .swChange => some (s, some .changeCipherSpec)
  | .dtlsSwHelloVerifyRequest => some (s, some .helloVerifyRequest)
  | .swHelloReq => some (s, some .helloRequest)
  | .swSrvrHello => some (s, some .serverHello)
  | .swCert => some (s, some .certificate)
  | .swCompCert => some (s, some .compressedCertificate)
  | .swCertVrfy => some (s, some .certificateVerify)
  | .swKeyExch => some (s, some .serverKeyExchange)
  | .swCertReq =>
    some ({ s with certreqsSent := s.certreqsSent + 1, certRequest := true },
      some .certificateRequest)
  | .swSrvrDone => some (s, some .serverDone)
  | .swSessionTicket => some (s.tlsConstructNewSessionTicket send)
  | .swCertStatus => some (s, some .certificateStatus)
  | .swFinished => some (s.tlsConstructFinished, some .finished)
  | .earlyData => some (s, none)
  | .swEncryptedExtensions => some (s, some .encryptedExtensions)
  | .swKeyUpdate => s.tlsConstructKeyUpdate.map (·, some .keyUpdate)
  | _ => none

/-- Without compression the algorithms of the peer are forgotten. -/
def dropCompression : Statem :=
  if !s.isTls13 ∨ s.noTxCertificateCompression then
    { s with compressCertificateFromPeer := [] } else s

def serverPostWork (w : Work) : Statem × WorkState :=
  match s.handState with
  | .swHelloReq | .dtlsSwHelloVerifyRequest | .swSrvrHello | .swChange | .swSrvrDone
  | .swKeyUpdate | .swSessionTicket => s.flushed w
  | .swFinished =>
    match w with
    | .done _ =>
      (if s.isTls13 ∧ s.isQuic ∧ s.earlyData = .accepted then
        { s with earlyDataState := .finishedReading } else s, .finishedContinue)
    | w => s.flushed w
  | .swCertReq =>
    if s.postHandshakeAuth = .requestPending then s.flushed w
    else (s.dropCompression, .finishedContinue)
  | .swEncryptedExtensions =>
    (if !s.hit ∧ !s.sendCertificateRequest then s.dropCompression else s, .finishedContinue)
  | _ => (s, .finishedContinue)

end Statem
end QuicTls
