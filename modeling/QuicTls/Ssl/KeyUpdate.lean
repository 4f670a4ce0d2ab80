import QuicTls.Ssl.Tls13Enc
import QuicTls.Ssl.Statem.Machine

/-!
# KeyUpdate

An end of a TLS 1.3 connection whose handshake is over: its state machine, its secrets and the
records it has written and read. A record is written with the secret of the record layer in place;
one that is read with another secret does not decrypt, which is fatal.

After the handshake the traffic secrets change in `tls13_update_key` only: post-handshake
authentication leaves the cipher state alone (`post_handshake_auth == SSL_PHA_REQUESTED`). Of the
messages other than KeyUpdate only the type is kept.
-/

namespace QuicTls

/-- A record on its way. -/
structure Record where
  /-- the secret of the record layer it was written with -/
  secret : Option Bytes
  /-- the type of the handshake message, `none` for application data -/
  message : Option MessageType
  /-- `update_requested` in a KeyUpdate message -/
  updateRequested : Bool
  deriving DecidableEq, Repr

/-- Who asked for a KeyUpdate message to be sent. -/
inductive AskedBy where
  | application
  | peer
  deriving DecidableEq, Repr

structure Endpoint (Md : Type) where
  statem : Statem
  keys : Tls13State Md
  /-- `update_requested` of the KeyUpdate message in `init_buf` -/
  initBuf : Bool
  /-- the records written and the records read, with the secret they were read with -/
  written : List Record
  read : List (Record × Option Bytes)
  /-- who asked for the message that `key_update` announces -/
  asked : Option AskedBy
  /-- the KeyUpdate message in `init_buf` is a reply -/
  reply : Bool
  /-- calls of `SSL_key_update` that succeeded -/
  calls : Nat
  /-- KeyUpdate messages sent and flushed -/
  sent : Nat
  /-- KeyUpdate messages sent in reply -/
  replies : Nat
  /-- KeyUpdate messages processed, and those of them that request an update -/
  processed : Nat
  requests : Nat

/-- The state that writes a KeyUpdate message. -/
def Statem.writesKeyUpdate (s : Statem) : Bool :=
  s.handState = if s.server then .swKeyUpdate else .cwKeyUpdate

/-- The state that reads a KeyUpdate message. -/
def Statem.readsKeyUpdate (s : Statem) : Bool :=
  s.handState = if s.server then .srKeyUpdate else .crKeyUpdate

/-- An end after the handshake. -/
def Endpoint.new {Md : Type} (statem : Statem) (keys : Tls13State Md) : Endpoint Md where
  statem := statem
  keys := keys
  initBuf := false
  written := []
  read := []
  asked := none
  reply := false
  calls := 0
  sent := 0
  replies := 0
  processed := 0
  requests := 0

namespace Endpoint

variable {Md : Type} (K : Kdf Md) (p : Endpoint Md)

/-- `tls13_update_key`; when it fails it has called `SSLfatal`. -/
def updateKey (sending : Bool) : Endpoint Md :=
  match tls13UpdateKey K p.keys sending with
  | .ok keys => { p with keys := keys }
  | .error _ => { p with statem := p.statem.fatal }

def sslKeyUpdate (updatetype : KeyUpdate) : Endpoint Md :=
  match p.statem.sslKeyUpdate updatetype with
  | some s => { p with statem := s, asked := some .application, calls := p.calls + 1 }
  | none => p

/-- Pre-work and construction; `tls_construct_key_update` puts the value of `key_update`. -/
def preWork (w : Work) (send ok : Bool) : Endpoint Md :=
  let s := (p.statem.step (.preWork w send ok)).1
  if p.statem.flow = .writing .preWork ∧ s.flow = .writing (.send .keyUpdate) then
    { p with
      statem := s
      initBuf := p.statem.keyUpdate = .requested
      asked := none
      reply := p.asked = some .peer }
  else { p with statem := s }

/-- A message is written. -/
def send : Endpoint Md :=
  match p.statem.step .send with
  | (s, some mt) =>
    { p with
      statem := s
      written := p.written ++ [⟨p.keys.recordLayer .write, some mt, mt = .keyUpdate ∧ p.initBuf⟩]
      replies := if mt = .keyUpdate ∧ p.reply then p.replies + 1 else p.replies }
  | (s, none) => { p with statem := s }

/-- Post-work: the secret is updated once a KeyUpdate message has been flushed. -/
def postWork (w : Work) : Endpoint Md :=
  let s := (p.statem.step (.postWork w)).1
  if p.statem.flow = .writing .postWork ∧ p.statem.writesKeyUpdate
      ∧ (p.statem.postWork w).2 = .finishedContinue then
    updateKey K { p with statem := s, sent := p.sent + 1 } true
  else { p with statem := s }

/-- A message is processed, for a KeyUpdate with what it says. -/
def body (b : Body) : Endpoint Md :=
  let b := if p.statem.readsKeyUpdate then { b with updateRequested := p.initBuf } else b
  let s := (p.statem.step (.body b)).1
  if p.statem.flow = .reading .body ∧ p.statem.readsKeyUpdate
      ∧ (p.statem.processMessage b).2 ≠ .error then
    updateKey K { p with
      statem := s
      asked := if p.initBuf then some .peer else p.asked
      processed := p.processed + 1
      requests := if p.initBuf then p.requests + 1 else p.requests } false
  else { p with statem := s }

/-- A step of the state machine. -/
def machine : StatemEvent → Endpoint Md
  -- messages come in records only
  | .header _ _ _ => p
  | .keyUpdate updatetype => p.sslKeyUpdate updatetype
  | .preWork w send ok => p.preWork w send ok
  | .send => p.send
  | .postWork w => p.postWork K w
  | .body b => p.body K b
  | e => { p with statem := (p.statem.step e).1 }

/-- `SSL_write`, once the handshake functions that are due have run. -/
def write : Endpoint Md :=
  if p.statem.flow = .finished ∧ !p.statem.inInit then
    { p with written := p.written ++ [⟨p.keys.recordLayer .write, none, false⟩] }
  else p

/-- The record is decrypted. -/
def decrypt (r : Record) : Endpoint Md :=
  let used := p.keys.recordLayer .read
  let p := { p with read := p.read ++ [(r, used)] }
  if r.secret = used then p else { p with statem := p.statem.fatal }

/-- The next record is read: application data by `SSL_read` or by a handshake that waits for a
message, a handshake message by the latter. -/
def receive (r : Record) (restored sizeOk : Bool) : Endpoint Md :=
  match r.message with
  | none =>
    if p.statem.flow = .finished ∨ p.statem.flow = .reading .header then p.decrypt r else p
  | some mt =>
    if p.statem.flow = .reading .header then
      let p := { p.decrypt r with initBuf := r.updateRequested }
      { p with statem := (p.statem.step (.header mt restored sizeOk)).1 }
    else p

end Endpoint

/-- What an end does. -/
inductive EndpointEvent where
  | machine (e : StatemEvent)
  | write
  | receive (restored sizeOk : Bool)

/-- A step of an end; the records of its peer arrive in order. -/
def Endpoint.step {Md : Type} (K : Kdf Md) (p peer : Endpoint Md) : EndpointEvent → Endpoint Md
  | .machine e => p.machine K e
  | .write => p.write
  | .receive restored sizeOk =>
    match peer.written[p.read.length]? with
    | some r => p.receive r restored sizeOk
    | none => p

structure Connection (Md : Type) where
  client : Endpoint Md
  server : Endpoint Md

/-- A step of one of the two ends. -/
def Connection.step {Md : Type} (K : Kdf Md) (n : Connection Md) :
    Side × EndpointEvent → Connection Md
  | (.client, e) => { n with client := n.client.step K n.server e }
  | (.server, e) => { n with server := n.server.step K n.client e }

end QuicTls
