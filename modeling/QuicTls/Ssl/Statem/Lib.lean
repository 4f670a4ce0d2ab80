import QuicTls.Ssl.Statem.Types

/-!
# Functions of both roles (ssl/statem/statem_lib.c)

A function that fails has called `SSLfatal`. `Body` and `Work` say what the contents of a message,
the callbacks and the output decide.
-/

namespace QuicTls

namespace Statem

variable (s : Statem)

/-- What both read transitions do when the message is not allowed: DTLS drops a ChangeCipherSpec
that is out of order. -/
def unexpected (mt : MessageType) (r : Statem × Bool) : Statem × Bool :=
  if r.2 then r
  else if r.1.dtls ∧ mt = .changeCipherSpec then r
  else (r.1.fatal, false)

/-- A message that is rejected when it is processed. -/
def processError : Statem × MsgProcessReturn := (s.fatal, .error)

def tlsSetupHandshake (ok : Bool) : Statem × Bool :=
  if !ok then (s.fatal, false)
  else if s.server then
    (if s.isFirstHandshake then s else { s with certRequest := false }, true)
  else ({ s with hit := false, certReq := .none }, true)

def tlsFinishHandshake (w : Work) (clearbufs stop : Bool) : Statem × WorkState :=
  if clearbufs ∧ w = .fail then (s.fatal, .error)
  else
    let s := if s.isTls13 ∧ !s.server ∧ s.postHandshakeAuth = .requested then
      { s with postHandshakeAuth := .extSent } else s
    let s := if s.cleanuphand then
      { s with renegotiate := false, cleanuphand := false, ticketExpected := false } else s
    if stop then ({ s with inInit := false }, .finishedStop)
    else ({ s with inInit := true }, .finishedContinue)

def tlsConstructFinished : Statem :=
  let s := if !s.server ∧ s.postHandshakeAuth ≠ .requested then
    { s with cleanuphand := true } else s
  { s with finishMd := true }

def tlsConstructKeyUpdate : Option Statem :=
  if s.isQuic then none else some { s with keyUpdate := .none }

def tlsProcessKeyUpdate (b : Body) : Statem × MsgProcessReturn :=
  if !b.valid ∨ s.isQuic then s.processError
  else if b.updateRequested then ({ s with keyUpdate := .notRequested }, .finishedReading)
  else (s, .finishedReading)

def tlsProcessChangeCipherSpec (b : Body) : Statem × MsgProcessReturn :=
  if !b.valid then s.processError else ({ s with changeCipherSpec := true }, .continueReading)

/-- `ssl3_take_mac` and `tls_process_finished` -/
def tlsProcessFinished (b : Body) : Statem × MsgProcessReturn :=
  let s := { s with peerFinishMd := true }
  let s := if s.server ∧ s.postHandshakeAuth ≠ .requested then { s with cleanuphand := true } else s
  if !s.isTls13 ∧ !s.changeCipherSpec then s.processError
  else if !b.valid then s.processError
  else ({ s with changeCipherSpec := false }, .finishedReading)

def tlsProcessCertVerify (b : Body) : Statem × MsgProcessReturn :=
  if !b.valid then s.processError
  else if !s.server ∧ s.isTls13 ∧ s.certReq = .cert then (s, .continueProcessing)
  else (s, .continueReading)

/-- A work function that only waits for the output to be flushed. -/
def flushed : Work → Statem × WorkState
  | .fail => (s.fatal, .error)
  | .retry => (s, .more)
  | .done _ => (s, .finishedContinue)

end Statem
end QuicTls
