import QuicTls.Ssl.Types

/-!
# The state of the handshake state machines (ssl/statem/)

`Statem` holds what the functions of statem.c, statem_clnt.c and statem_srvr.c read or write of an
`SSL_CONNECTION`. What the contents of messages settle and what the application sets are
parts of their own, `Settled` and `AppState`: the models of the functions take the new values as
inputs where the code would parse a message or return to the application.
-/

namespace QuicTls

/-- `OSSL_HANDSHAKE_STATE` -/
inductive HandState where
  | before
  | ok
  | dtlsCrHelloVerifyRequest
  | crSrvrHello
  | crCert
  | crCompCert
  | crCertStatus
  | crKeyExch
  | crCertReq
  | crSrvrDone
  | crSessionTicket
  | crChange
  | crFinished
  | cwClntHello
  | cwCert
  | cwCompCert
  | cwKeyExch
  | cwCertVrfy
  | cwChange
  | cwFinished
  | swHelloReq
  | srClntHello
  | dtlsSwHelloVerifyRequest
  | swSrvrHello
  | swCert
  | swCompCert
  | swKeyExch
  | swCertReq
  | swSrvrDone
  | srCert
  | srCompCert
  | srKeyExch
  | srCertVrfy
  | srChange
  | srFinished
  | swSessionTicket
  | swCertStatus
  | swChange
  | swFinished
  | swEncryptedExtensions
  | crEncryptedExtensions
  | crCertVrfy
  | swCertVrfy
  | crHelloReq
  | swKeyUpdate
  | cwKeyUpdate
  | srKeyUpdate
  | crKeyUpdate
  | earlyData
  | pendingEarlyDataEnd
  | cwEndOfEarlyData
  | srEndOfEarlyData
  deriving DecidableEq, Repr

/-- The `SSL3_MT_` constants; `other` is any other type byte. -/
inductive MessageType where
  | helloRequest
  | clientHello
  | serverHello
  | helloVerifyRequest
  | newsessionTicket
  | endOfEarlyData
  | encryptedExtensions
  | certificate
  | serverKeyExchange
  | certificateRequest
  | serverDone
  | certificateVerify
  | clientKeyExchange
  | finished
  | certificateStatus
  | keyUpdate
  | compressedCertificate
  | changeCipherSpec
  | other (value : UInt8)
  deriving DecidableEq, Repr

/-- The protocol versions, DTLS 1.0 and 1.2 being `tls1_1` and `tls1_2` with `dtls` set. -/
inductive TlsVersion where
  | ssl3
  | tls1
  | tls1_1
  | tls1_2
  | tls1_3
  deriving DecidableEq, Repr

structure CipherSuite where
  algorithmMkey : UInt32
  algorithmAuth : UInt32
  deriving DecidableEq, Repr

def sslkDHE : UInt32 := 0x2
def sslkECDHE : UInt32 := 0x4
def sslkPSK : UInt32 := 0x8
def sslkGOST : UInt32 := 0x10
def sslkRSAPSK : UInt32 := 0x40
def sslkECDHEPSK : UInt32 := 0x80
def sslkDHEPSK : UInt32 := 0x100
def sslPSK : UInt32 := sslkPSK ||| sslkRSAPSK ||| sslkECDHEPSK ||| sslkDHEPSK
def sslaNULL : UInt32 := 0x4
def sslaPSK : UInt32 := 0x10

/-- `ext.early_data` -/
inductive ExtEarlyData where
  | notSent
  | rejected
  | accepted
  deriving DecidableEq, Repr

inductive HelloRetryRequest where
  | none
  | pending
  | complete
  deriving DecidableEq, Repr

inductive PhaState where
  | none
  | extSent
  | extReceived
  | requestPending
  | requested
  deriving DecidableEq, Repr

inductive KeyUpdate where
  | none
  | notRequested
  | requested
  deriving DecidableEq, Repr

/-- `cert_req` of a client: no request, a certificate to send, or none to send. -/
inductive CertReq where
  | none
  | cert
  | empty
  deriving DecidableEq, Repr

structure VerifyMode where
  peer : Bool
  failIfNoPeerCert : Bool
  clientOnce : Bool
  postHandshake : Bool
  deriving DecidableEq, Repr

inductive WriteTran where
  | error
  | continue
  | finished
  deriving DecidableEq, Repr

inductive MsgProcessReturn where
  | error
  | finishedReading
  | continueProcessing
  | continueReading
  deriving DecidableEq, Repr

inductive WorkState where
  | error
  | finishedStop
  | finishedContinue
  /-- `WORK_MORE_A`, `_B` or `_C`: the function wants to be called again -/
  | more
  deriving DecidableEq, Repr

inductive ReadState where
  | header
  | body
  | postProcess
  deriving DecidableEq, Repr

inductive WriteState where
  | transition
  | preWork
  /-- a constructed message waits to be sent -/
  | send (mt : MessageType)
  | postWork
  deriving DecidableEq, Repr

/-- `MSG_FLOW_STATE` with its sub-state. -/
inductive MsgFlow where
  | uninited
  | error
  | reading (state : ReadState)
  | writing (state : WriteState)
  | finished
  deriving DecidableEq, Repr

/-- What the hello messages and the encrypted extensions settle. -/
structure Settled where
  version : Option TlsVersion
  hit : Bool
  /-- `s3.tmp.new_cipher` -/
  newCipher : CipherSuite
  ticketExpected : Bool
  statusExpected : Bool
  earlyData : ExtEarlyData
  helloRetryRequest : HelloRetryRequest
  postHandshakeAuth : PhaState
  compressCertificateSent : Bool
  /-- `compress_certificate_from_peer`, up to its end mark -/
  compressCertificateFromPeer : List Nat
  /-- `client_cert_type` and `server_cert_type` are X.509, not raw public keys -/
  clientCertX509 : Bool
  serverCertX509 : Bool
  /-- whether a certificate is selected, and the algorithms it is compressed with -/
  cert : Option (List Nat)
  /-- the session has a peer certificate or public key -/
  peer : Bool
  /-- the session has a ticket -/
  tick : Bool
  deriving DecidableEq, Repr

/-- What the application sets. -/
structure AppState where
  /-- `SSL_SENT_SHUTDOWN` -/
  sentShutdown : Bool
  enableMiddleboxCompat : Bool
  noTxCertificateCompression : Bool
  cookieExchange : Bool
  noRenegotiation : Bool
  verifyMode : VerifyMode
  pskIdentityHint : Bool
  sessionSecretCb : Bool
  stateless : Bool
  earlyDataState : EarlyDataState
  numTickets : Nat
  extraTicketsExpected : Nat
  deriving DecidableEq, Repr

structure Statem extends Settled, AppState where
  server : Bool
  dtls : Bool
  /-- `quic_method` is set -/
  isQuic : Bool
  /-- `TLS1_FLAGS_QUIC` -/
  isQuicHandshake : Bool
  flow : MsgFlow
  handState : HandState
  requestState : HandState
  inInit : Bool
  noCertVerify : Bool
  cleanuphand : Bool
  renegotiate : Bool
  cookieVerified : Bool
  /-- `finish_md_len` and `peer_finish_md_len` are not zero -/
  finishMd : Bool
  peerFinishMd : Bool
  changeCipherSpec : Bool
  certReq : CertReq
  certRequest : Bool
  certreqsSent : Nat
  sentTickets : Nat
  keyUpdate : KeyUpdate
  skipCertVerify : Bool
  deriving DecidableEq, Repr

namespace Statem

variable (s : Statem)

/-- `SSL_CONNECTION_IS_TLS13` -/
def isTls13 : Bool := !s.dtls && s.version == some .tls1_3

/-- `version == SSL3_VERSION` -/
def isSsl3 : Bool := !s.dtls && s.version == some .ssl3

def isFirstHandshake : Bool := !s.finishMd || !s.peerFinishMd

/-- `SSLfatal` -/
def fatal : Statem := { s with inInit := true, flow := .error }

/-- `hand_state = h; return 1` of a read transition -/
def accept (h : HandState) : Statem × Bool := ({ s with handState := h }, true)

/-- A read transition that is not allowed. -/
def reject : Statem × Bool := (s, false)

/-- `hand_state = h; return WRITE_TRAN_CONTINUE` -/
def moveTo (h : HandState) : Statem × WriteTran := ({ s with handState := h }, .continue)

end Statem

/-- What the contents of a message decide when it is processed. -/
structure Body where
  /-- the message parses and its cryptographic checks succeed -/
  valid : Bool
  /-- a ServerHello is a HelloRetryRequest -/
  isHelloRetryRequest : Bool
  /-- what a hello message or the encrypted extensions settle -/
  settled : Settled
  /-- there is a cookie in a ClientHello -/
  hasCookie : Bool
  /-- there is a certificate in a Certificate message -/
  hasCert : Bool
  /-- the key in the client's certificate was used in the key exchange -/
  certKeyUsed : Bool
  /-- a KeyUpdate message asks for one in return -/
  updateRequested : Bool

/-- What the callbacks and the output decide in a work function. -/
inductive Work where
  | fail
  | retry
  /-- done; `hasCert` says whether a client has found a certificate to send -/
  | done (hasCert : Bool)
  deriving DecidableEq, Repr

end QuicTls
