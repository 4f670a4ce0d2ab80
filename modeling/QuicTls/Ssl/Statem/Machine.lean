import QuicTls.Ssl.Statem.Client
import QuicTls.Ssl.Statem.Server

/-!
# The message flow (ssl/statem/statem.c)

A step of `Statem.step` is one round of the loop of `read_state_machine` or `write_state_machine`,
or a call by which the application enters `state_machine`. Between any two of them control may go
back to the application, when a function wants to be called again or the transport blocks; an event
that does not apply to the state the flow is in has no effect.
-/

namespace QuicTls

/-- The settings of a new `SSL_CTX`. -/
def AppState.sslCtxNew : AppState where
  sentShutdown := false
  enableMiddleboxCompat := true
  noTxCertificateCompression := false
  cookieExchange := false
  noRenegotiation := false
  verifyMode := ⟨false, false, false, false⟩
  pskIdentityHint := false
  sessionSecretCb := false
  stateless := false
  earlyDataState := .none
  numTickets := 2
  extraTicketsExpected := 0

/-- What is settled on a new connection: nothing. -/
def Settled.unsettled : Settled where
  version := none
  hit := false
  newCipher := ⟨0, 0⟩
  ticketExpected := false
  statusExpected := false
  earlyData := .notSent
  helloRetryRequest := .none
  postHandshakeAuth := .none
  compressCertificateSent := false
  compressCertificateFromPeer := []
  clientCertX509 := true
  serverCertX509 := true
  cert := none
  peer := false
  tick := false

def Statem.sslNew (server dtls isQuic : Bool) (settings : AppState) : Statem where
  toSettled := .unsettled
  toAppState := settings
  server := server
  dtls := dtls
  isQuic := isQuic
  isQuicHandshake := false
  flow := .uninited
  handState := .before
  requestState := .before
  inInit := true
  noCertVerify := false
  cleanuphand := false
  renegotiate := false
  cookieVerified := false
  finishMd := false
  peerFinishMd := false
  changeCipherSpec := false
  certReq := .none
  certRequest := false
  certreqsSent := 0
  sentTickets := 0
  keyUpdate := .none
  skipCertVerify := false

/-- What happens to a connection. -/
inductive StatemEvent where
  /-- the application changes its settings, or sends early data or close_notify -/
  | app (settings : AppState)
  /-- `SSL_do_handshake`, or with `sending` `SSL_read` or `SSL_write`; `setup` is the outcome of
  `tls_setup_handshake` -/
  | call (sending : Option Bool) (setup : Bool)
  /-- a handshake record arrives outside of a handshake -/
  | record (setup : Bool)
  /-- `ssl3_write_bytes` finds that a KeyUpdate or a ticket is due, with no writes pending -/
  | writeDue (setup : Bool)
  /-- `SSL_key_update` -/
  | keyUpdate (updatetype : KeyUpdate)
  /-- `SSL_renegotiate` -/
  | renegotiate
  /-- `ssl3_renegotiate_check` finds that the time has come to renegotiate -/
  | renegotiateCheck
  /-- `SSL_verify_client_post_handshake` -/
  | verifyClient
  /-- the header of a message arrives, of an acceptable size or not -/
  | header (mt : MessageType) (restored sizeOk : Bool)
  | body (b : Body)
  | postProcess (w : Work)
  | transition (renegotiate setup : Bool)
  /-- pre-work, then the message is constructed, with `ok` its outcome -/
  | preWork (w : Work) (send ok : Bool)
  | send
  | postWork (w : Work)

namespace Statem

variable (s : Statem)

/-! ### Both roles -/

def readTransition (restored : Bool) (mt : MessageType) : Statem × Bool :=
  if s.server then s.serverReadTransition mt else s.clientReadTransition restored mt

def processMessage (b : Body) : Statem × MsgProcessReturn :=
  if s.server then s.serverProcessMessage b else s.clientProcessMessage b

def postProcessMessage (w : Work) : Statem × WorkState :=
  if s.server then s.serverPostProcessMessage w else s.clientPostProcessMessage w

def writeTransition (renegotiate setup : Bool) : Statem × WriteTran :=
  if s.server then s.serverWriteTransition setup else s.clientWriteTransition renegotiate setup

def preWork (w : Work) : Statem × WorkState :=
  if s.server then s.serverPreWork w else s.clientPreWork w

def constructMessage (send : Bool) : Option (Statem × Option MessageType) :=
  if s.server then s.serverConstructMessage send else s.clientConstructMessage

def postWork (w : Work) : Statem × WorkState :=
  if s.server then s.serverPostWork w else s.clientPostWork w

/-! ### `read_state_machine` -/

/-- `SUB_STATE_FINISHED` of the reading side -/
def startWriting : Statem := { s with flow := .writing .transition }

/-- `SUB_STATE_FINISHED` of the writing side -/
def startReading : Statem := { s with flow := .reading .header }

/-- `case READ_STATE_HEADER` -/
def readHeader (mt : MessageType) (restored sizeOk : Bool) : Statem :=
  let r := s.readTransition restored mt
  if !r.2 then r.1
  else if !sizeOk then r.1.fatal
  else { r.1 with flow := .reading .body }

/-- `case READ_STATE_BODY` -/
def readBody (b : Body) : Statem :=
  let r := s.processMessage b
  match r.2 with
  | .error => r.1.fatal
  | .finishedReading => r.1.startWriting
  | .continueProcessing => { r.1 with flow := .reading .postProcess }
  | .continueReading => r.1.startReading

/-- `case READ_STATE_POST_PROCESS` -/
def readPostProcess (w : Work) : Statem :=
  let r := s.postProcessMessage w
  match r.2 with
  | .error => r.1.fatal
  | .more => r.1
  | .finishedContinue => r.1.startReading
  | .finishedStop => r.1.startWriting

/-! ### `write_state_machine` -/

/-- `case WRITE_STATE_TRANSITION` -/
def writeTransitionStep (renegotiate setup : Bool) : Statem :=
  let r := s.writeTransition renegotiate setup
  match r.2 with
  | .error => r.1.fatal
  | .finished => r.1.startReading
  | .continue => { r.1 with flow := .writing .preWork }

/-- `case WRITE_STATE_PRE_WORK` -/
def writePreWork (w : Work) (send ok : Bool) : Statem :=
  let r := s.preWork w
  match r.2 with
  | .error => r.1.fatal
  | .more => r.1
  | .finishedStop => { r.1 with flow := .finished }
  | .finishedContinue =>
    match r.1.constructMessage send with
    | none => r.1.fatal
    | some (s, mt) =>
      if !ok then s.fatal
      else
        match mt with
        | none => { s with flow := .writing .postWork }
        | some mt => { s with flow := .writing (.send mt) }

/-- `case WRITE_STATE_POST_WORK` -/
def writePostWork (w : Work) : Statem :=
  let r := s.postWork w
  match r.2 with
  | .error => r.1.fatal
  | .more => r.1
  | .finishedContinue => r.1.startWriting
  | .finishedStop => { r.1 with flow := .finished }

/-! ### `state_machine` -/

/-- `ossl_ssl_connection_reset` -/
def sslClear : Statem := { s with
  helloRetryRequest := .none, sentTickets := 0, hit := false, sentShutdown := false
  version := none, compressCertificateFromPeer := [], compressCertificateSent := false
  flow := .uninited, handState := .before, inInit := true, noCertVerify := false
  keyUpdate := .none, finishMd := false, peerFinishMd := false, changeCipherSpec := false
  certReq := .none, certRequest := false, skipCertVerify := false }

/-- The rest of the initialisation, once it is known whether a handshake is set up. -/
def startHandshake (fresh setup : Bool) : Statem :=
  let s := { s with changeCipherSpec := false }
  if fresh ∨ s.renegotiate then
    if setup then (s.tlsSetupHandshake true).1.startWriting else s.fatal
  else s.startWriting

/-- `state_machine`, up to its loop -/
def stateMachine (setup : Bool) : Statem :=
  match s.flow with
  | .error => s
  | .uninited =>
    if s.handState = .before then
      if s.renegotiate then s
      else { s.sslClear with requestState := .before }.startHandshake true setup
    else { s with handState := .before, requestState := .before }.startHandshake true setup
  | .finished => s.startHandshake false setup
  | _ => s

def checkFinishInit : Option Bool → Statem
  | none =>
    if s.handState = .pendingEarlyDataEnd ∨ s.handState = .earlyData then
      { s with
        inInit := true
        earlyDataState :=
          if s.earlyDataState = .writeRetry then .finishedWriting else s.earlyDataState }
    else s
  | some sending =>
    if !s.server then
      if sending ∧ (s.handState = .pendingEarlyDataEnd ∨ s.handState = .earlyData)
          ∧ s.earlyDataState ≠ .writing ∨ !sending ∧ s.handState = .earlyData then
        { s with
          inInit := true
          earlyDataState :=
            if sending ∧ s.earlyDataState = .writeRetry then .finishedWriting
            else s.earlyDataState }
      else s
    else if s.earlyDataState = .finishedReading ∧ s.handState = .earlyData then
      { s with inInit := true }
    else s

def sslKeyUpdate (updatetype : KeyUpdate) : Option Statem :=
  if s.isTls13 ∧ updatetype ≠ .none ∧ !s.inInit ∧ s.handState = .ok then
    some { s with inInit := true, keyUpdate := updatetype }
  else none

/-- The next state, and the message that is sent. -/
def step : StatemEvent → Statem × Option MessageType
  | .app settings => ({ s with toAppState := settings }, none)
  | .call sending setup =>
    let s := s.checkFinishInit sending
    (if s.inInit then s.stateMachine setup else s, none)
  | .record setup => (if s.inInit then s else { s with inInit := true }.stateMachine setup, none)
  | .writeDue setup =>
    (if s.keyUpdate ≠ .none ∨ 0 < s.extraTicketsExpected then
      { s with inInit := true }.stateMachine setup else s, none)
  | .keyUpdate updatetype => ((s.sslKeyUpdate updatetype).getD s, none)
  | .renegotiate =>
    (if !s.isTls13 ∧ !s.noRenegotiation then { s with renegotiate := true } else s, none)
  | .renegotiateCheck =>
    (if s.renegotiate ∧ !s.inInit then
      { s with inInit := true, requestState := .swHelloReq } else s, none)
  | .verifyClient =>
    let s' := { s with postHandshakeAuth := .requestPending, inInit := true }
    (if s.isTls13 ∧ s.server ∧ !s.inInit ∧ s.handState = .ok
        ∧ s.postHandshakeAuth = .extReceived ∧ s'.sendCertificateRequest then s' else s, none)
  | .header mt restored sizeOk =>
    (if s.flow = .reading .header then s.readHeader mt restored sizeOk else s, none)
  | .body b => (if s.flow = .reading .body then s.readBody b else s, none)
  | .postProcess w => (if s.flow = .reading .postProcess then s.readPostProcess w else s, none)
  | .transition renegotiate setup =>
    (if s.flow = .writing .transition then s.writeTransitionStep renegotiate setup else s, none)
  | .preWork w send ok =>
    (if s.flow = .writing .preWork then s.writePreWork w send ok else s, none)
  | .send =>
    match s.flow with
    | .writing (.send mt) => ({ s with flow := .writing .postWork }, some mt)
    | _ => (s, none)
  | .postWork w => (if s.flow = .writing .postWork then s.writePostWork w else s, none)

end Statem
end QuicTls
