import QuicTls.Ssl.Statem.Lib

/-!
# The client's state machine (ssl/statem/statem_clnt.c)

A `case` that falls through to the next one is a function that ends in the next one's function.
-/

namespace QuicTls

namespace Statem

variable (s : Statem)

/-! ### Reading -/

def certReqAllowed : Bool :=
  !((!s.isSsl3 && s.newCipher.algorithmAuth &&& sslaNULL != 0)
    || s.newCipher.algorithmAuth &&& sslaPSK != 0)

def keyExchangeExpected : Bool :=
  s.newCipher.algorithmMkey &&& (sslkDHE ||| sslkECDHE ||| sslkDHEPSK ||| sslkECDHEPSK) != 0

/-- `ossl_statem_client13_read_transition`; `restored` says whether the digest for
post-handshake authentication can be restored. -/
def client13ReadTransition (restored : Bool) (mt : MessageType) : Statem × Bool :=
  match s.handState with
  | .cwClntHello => if mt = .serverHello then s.accept .crSrvrHello else s.reject
  | .crSrvrHello =>
    if mt = .encryptedExtensions then s.accept .crEncryptedExtensions else s.reject
  | .crEncryptedExtensions =>
    if s.hit then
      if mt = .finished then s.accept .crFinished else s.reject
    else if mt = .certificateRequest then s.accept .crCertReq
    else if mt = .certificate then s.accept .crCert
    else if mt = .compressedCertificate ∧ s.compressCertificateSent then s.accept .crCompCert
    else s.reject
  | .crCertReq =>
    if mt = .certificate then s.accept .crCert
    else if mt = .compressedCertificate ∧ s.compressCertificateSent then s.accept .crCompCert
    else s.reject
  | .crCert | .crCompCert => if mt = .certificateVerify then s.accept .crCertVrfy else s.reject
  | .crCertVrfy => if mt = .finished then s.accept .crFinished else s.reject
  | .ok =>
    if mt = .newsessionTicket then s.accept .crSessionTicket
    else if mt = .keyUpdate ∧ !s.isQuicHandshake then s.accept .crKeyUpdate
    else if mt = .certificateRequest ∧ !s.dtls ∧ s.postHandshakeAuth = .extSent then
      let s := { s with postHandshakeAuth := .requested }
      if restored then s.accept .crCertReq else (s.fatal, false)
    else s.reject
  | _ => s.reject

variable (mt : MessageType)

/-- `case TLS_ST_CR_CERT_REQ` -/
def readAfterCertReq : Statem × Bool :=
  if mt = .serverDone then s.accept .crSrvrDone else s.reject

/-- `case TLS_ST_CR_KEY_EXCH` -/
def readAfterKeyExch : Statem × Bool :=
  if mt = .certificateRequest then
    if s.certReqAllowed then s.accept .crCertReq else s.reject
  else s.readAfterCertReq mt

/-- `case TLS_ST_CR_CERT_STATUS`; the ServerKeyExchange is optional for some PSK suites. -/
def readAfterCertStatus : Statem × Bool :=
  if s.keyExchangeExpected
      ∨ (s.newCipher.algorithmMkey &&& sslPSK ≠ 0 ∧ mt = .serverKeyExchange) then
    if mt = .serverKeyExchange then s.accept .crKeyExch else s.reject
  else s.readAfterKeyExch mt

/-- `case TLS_ST_CR_CERT`; the CertificateStatus is optional. -/
def readAfterCert : Statem × Bool :=
  if s.statusExpected ∧ mt = .certificateStatus then s.accept .crCertStatus
  else s.readAfterCertStatus mt

/-- `case TLS_ST_CR_SRVR_HELLO` -/
def readAfterSrvrHello : Statem × Bool :=
  if s.hit then
    if s.ticketExpected then
      if mt = .newsessionTicket then s.accept .crSessionTicket else s.reject
    else if mt = .changeCipherSpec then s.accept .crChange
    else s.reject
  else if s.dtls ∧ mt = .helloVerifyRequest then s.accept .dtlsCrHelloVerifyRequest
  else if !s.isSsl3 ∧ s.sessionSecretCb ∧ s.tick ∧ mt = .changeCipherSpec then
    -- EAP-FAST: the server resumes without having said so in its hello
    { s with hit := true }.accept .crChange
  else if s.newCipher.algorithmAuth &&& (sslaNULL ||| sslaPSK) = 0 then
    if mt = .certificate then s.accept .crCert else s.reject
  else if s.keyExchangeExpected
      ∨ (s.newCipher.algorithmMkey &&& sslPSK ≠ 0 ∧ mt = .serverKeyExchange) then
    if mt = .serverKeyExchange then s.accept .crKeyExch else s.reject
  else if mt = .certificateRequest ∧ s.certReqAllowed then s.accept .crCertReq
  else if mt = .serverDone then s.accept .crSrvrDone
  else s.reject

/-- The `switch` of `ossl_statem_client_read_transition` -/
def client12ReadTransition : Statem × Bool :=
  match s.handState with
  | .cwClntHello =>
    if mt = .serverHello then s.accept .crSrvrHello
    else if s.dtls ∧ mt = .helloVerifyRequest then s.accept .dtlsCrHelloVerifyRequest
    else s.reject
  | .earlyData => if mt = .serverHello then s.accept .crSrvrHello else s.reject
  | .crSrvrHello => s.readAfterSrvrHello mt
  | .crCert | .crCompCert => s.readAfterCert mt
  | .crCertStatus => s.readAfterCertStatus mt
  | .crKeyExch => s.readAfterKeyExch mt
  | .crCertReq => s.readAfterCertReq mt
  | .cwFinished =>
    if s.ticketExpected then
      if mt = .newsessionTicket then s.accept .crSessionTicket else s.reject
    else if mt = .changeCipherSpec then s.accept .crChange
    else s.reject
  | .crSessionTicket => if mt = .changeCipherSpec then s.accept .crChange else s.reject
  | .crChange => if mt = .finished then s.accept .crFinished else s.reject
  | .ok => if mt = .helloRequest then s.accept .crHelloReq else s.reject
  | _ => s.reject

def clientReadTransition (restored : Bool) (mt : MessageType) : Statem × Bool :=
  unexpected mt (if s.isTls13 then s.client13ReadTransition restored mt
    else s.client12ReadTransition mt)

/-! ### Processing -/

def tlsProcessServerHello (b : Body) : Statem × MsgProcessReturn :=
  if !b.valid then s.processError
  else if b.isHelloRetryRequest then
    if s.helloRetryRequest ≠ .none then s.processError
    else ({ s with helloRetryRequest := .pending }, .finishedReading)
  else ({ s with toSettled := b.settled }, .continueReading)

def tlsProcessCertificateRequest (b : Body) : Statem × MsgProcessReturn :=
  if s.isTls13 ∧ s.sentShutdown then (s, .finishedReading)
  else if !b.valid then s.processError
  else
    let s := { s with certReq := .cert }
    if s.isTls13 ∧ s.postHandshakeAuth ≠ .requested then (s, .continueReading)
    else (s, .continueProcessing)

def tlsProcessHelloReq (b : Body) : Statem × MsgProcessReturn :=
  if !b.valid then s.processError
  else if s.noRenegotiation then (s, .finishedReading)
  else ({ s with renegotiate := true }, .finishedReading)

def clientProcessMessage (b : Body) : Statem × MsgProcessReturn :=
  match s.handState with
  | .crSrvrHello => s.tlsProcessServerHello b
  | .dtlsCrHelloVerifyRequest => if !b.valid then s.processError else (s, .finishedReading)
  | .crCert | .crCompCert => if !b.valid then s.processError else (s, .continueProcessing)
  | .crCertVrfy => s.tlsProcessCertVerify b
  | .crCertStatus | .crKeyExch => if !b.valid then s.processError else (s, .continueReading)
  | .crCertReq => s.tlsProcessCertificateRequest b
  | .crSrvrDone => if !b.valid then s.processError else (s, .finishedReading)
  | .crChange => s.tlsProcessChangeCipherSpec b
  | .crSessionTicket =>
    if !b.valid then s.processError
    else (s, if s.isTls13 then .finishedReading else .continueReading)
  | .crFinished => s.tlsProcessFinished b
  | .crHelloReq => s.tlsProcessHelloReq b
  | .crEncryptedExtensions =>
    if !b.valid then s.processError
    else ({ s with
      earlyData := b.settled.earlyData
      clientCertX509 := b.settled.clientCertX509
      serverCertX509 := b.settled.serverCertX509 }, .continueReading)
  | .crKeyUpdate => s.tlsProcessKeyUpdate b
  | _ => s.processError

def tlsPrepareClientCertificate (w : Work) : Statem × WorkState :=
  match w with
  | .fail => (s.fatal, .error)
  | .retry => (s, .more)
  | .done hasCert =>
    if !hasCert ∧ s.isSsl3 then ({ s with certReq := .none }, .finishedContinue)
    else
      let s := if hasCert then s else
        { s with certReq := .empty, compressCertificateFromPeer := [] }
      let s := if !s.isTls13 ∨ s.noTxCertificateCompression then
        { s with compressCertificateFromPeer := [] } else s
      (s, if s.postHandshakeAuth = .requested then .finishedStop else .finishedContinue)

def clientPostProcessMessage (w : Work) : Statem × WorkState :=
  match s.handState with
  | .crCert | .crCompCert => s.flushed w
  | .crCertVrfy | .crCertReq => s.tlsPrepareClientCertificate w
  | _ => (s.fatal, .error)

/-! ### Writing -/

/-- `do_compressed_cert` -/
def clientDoCompressedCert : Bool := s.clientCertX509 && !s.compressCertificateFromPeer.isEmpty

/-- The state in which the client's certificate is sent. -/
def certState : HandState := if s.clientDoCompressedCert then .cwCompCert else .cwCert

/-- `case TLS_ST_CW_END_OF_EARLY_DATA` and `case TLS_ST_CW_CHANGE` -/
def writeAfterChange : Statem × WriteTran :=
  s.moveTo (if s.certReq = .none then .cwFinished else s.certState)

def client13WriteTransition : Statem × WriteTran :=
  match s.handState with
  | .crCertReq =>
    if s.postHandshakeAuth = .requested then s.moveTo s.certState
    else if !s.sentShutdown then (s.fatal, .error)
    else s.moveTo .ok
  | .crFinished =>
    if s.earlyDataState = .writeRetry ∨ s.earlyDataState = .finishedWriting then
      s.moveTo .pendingEarlyDataEnd
    else if s.enableMiddleboxCompat ∧ s.helloRetryRequest = .none then s.moveTo .cwChange
    else s.writeAfterChange
  | .pendingEarlyDataEnd =>
    if s.earlyData = .accepted then s.moveTo .cwEndOfEarlyData else s.writeAfterChange
  | .cwEndOfEarlyData | .cwChange => s.writeAfterChange
  | .cwCompCert | .cwCert =>
    s.moveTo (if s.certReq = .cert then .cwCertVrfy else .cwFinished)
  | .cwCertVrfy => s.moveTo .cwFinished
  | .crKeyUpdate | .cwKeyUpdate | .crSessionTicket | .cwFinished => s.moveTo .ok
  | .ok => if s.keyUpdate ≠ .none then s.moveTo .cwKeyUpdate else (s, .finished)
  | _ => (s.fatal, .error)

/-- The `switch` of `ossl_statem_client_write_transition`; `renegotiate` is the outcome of
`ssl3_renegotiate_check`, `setup` that of `tls_setup_handshake`. -/
def client12WriteTransition (renegotiate setup : Bool) : Statem × WriteTran :=
  match s.handState with
  | .ok => if !s.renegotiate then (s, .finished) else s.moveTo .cwClntHello
  | .before => s.moveTo .cwClntHello
  | .cwClntHello =>
    if s.earlyDataState = .connecting then
      s.moveTo (if s.enableMiddleboxCompat then .cwChange else .earlyData)
    else (s, .finished)
  | .crSrvrHello =>
    s.moveTo (if s.enableMiddleboxCompat ∧ s.earlyDataState ≠ .finishedWriting then .cwChange
      else .cwClntHello)
  | .earlyData => (s, .finished)
  | .dtlsCrHelloVerifyRequest => s.moveTo .cwClntHello
  | .crSrvrDone => s.moveTo (if s.certReq ≠ .none then .cwCert else .cwKeyExch)
  | .cwCert => s.moveTo .cwKeyExch
  | .cwKeyExch =>
    s.moveTo (if s.certReq = .cert ∧ !s.skipCertVerify then .cwCertVrfy else .cwChange)
  | .cwCertVrfy => s.moveTo .cwChange
  | .cwChange =>
    s.moveTo (if s.helloRetryRequest = .pending then .cwClntHello
      else if s.earlyDataState = .connecting then .earlyData
      else .cwFinished)
  | .cwFinished => if s.hit then s.moveTo .ok else (s, .finished)
  | .crFinished => s.moveTo (if s.hit then .cwChange else .ok)
  | .crHelloReq =>
    if renegotiate then
      let s := { s with inInit := true, requestState := .swHelloReq }
      if setup then (s.tlsSetupHandshake true).1.moveTo .cwClntHello else (s.fatal, .error)
    else s.moveTo .ok
  | _ => (s.fatal, .error)

def clientWriteTransition (renegotiate setup : Bool) : Statem × WriteTran :=
  if s.isTls13 then s.client13WriteTransition else s.client12WriteTransition renegotiate setup

def clientPreWork (w : Work) : Statem × WorkState :=
  match s.handState with
  | .cwClntHello =>
    let s := { s with sentShutdown := false }
    if w = .fail then (s.fatal, .error) else (s, .finishedContinue)
  | .pendingEarlyDataEnd =>
    if s.earlyDataState = .finishedWriting ∨ s.earlyDataState = .none then (s, .finishedContinue)
    else s.tlsFinishHandshake w false true
  | .earlyData => s.tlsFinishHandshake w false true
  | .ok => s.tlsFinishHandshake w true true
  | _ => (s, .finishedContinue)

/-- `ossl_statem_client_construct_message` and the construction function it selects: the state and
the message type, `none` standing for `SSL3_MT_DUMMY`. -/
def clientConstructMessage : Option (Statem × Option MessageType) :=
  match s.handState with
  | .cwChange => some (s, some .changeCipherSpec)
  | .cwClntHello => some (s, some .clientHello)
  | .cwEndOfEarlyData =>
    if s.isQuic then some (s, none)
    else if s.earlyDataState ≠ .writeRetry ∧ s.earlyDataState ≠ .finishedWriting then none
    else some ({ s with earlyDataState := .finishedWriting }, some .endOfEarlyData)
  | .pendingEarlyDataEnd => some (s, none)
  | .cwCert => some (s, some .certificate)
  | .cwCompCert => some (s, some .compressedCertificate)
  | .cwKeyExch => some (s, some .clientKeyExchange)
  | .cwCertVrfy => some (s, some .certificateVerify)
  | .cwFinished => some (s.tlsConstructFinished, some .finished)
  | .cwKeyUpdate => s.tlsConstructKeyUpdate.map (·, some .keyUpdate)
  | _ => none

def clientPostWork (w : Work) : Statem × WorkState :=
  match s.handState with
  | .cwClntHello | .cwKeyExch | .cwChange | .cwFinished | .cwKeyUpdate => s.flushed w
  | _ => (s, .finishedContinue)

end Statem
end QuicTls
