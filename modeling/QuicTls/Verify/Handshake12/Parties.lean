import QuicTls.Theory.Network
import QuicTls.Verify.Statem.Step

/-!
# Honest parties before TLS 1.3

A client and a server that are honest and share what is negotiated, as two processes over FIFO
channels, and the flights of messages that they exchange.
-/

namespace QuicTls

open Network Statem

/-- What an honest client and an honest server bring to a handshake. -/
structure Negotiated where
  /-- what both sides settle with the hello messages -/
  settled : Settled
  version : settled.version = some .tls1 ∨ settled.version = some .tls1_1
    ∨ settled.version = some .tls1_2
  noRetry : settled.helloRetryRequest = .none
  noPostHandshake : settled.postHandshakeAuth ≠ .requested
  /-- a new session has no certificate of the client -/
  newSession : settled.hit = false → settled.peer = false
  client : AppState
  server : AppState
  noEarlyData : client.earlyDataState = .none
  /-- the client has a certificate to send -/
  hasCert : Bool
  notAnonymous : settled.newCipher.algorithmAuth &&& sslaNULL ≠ 0 →
    server.verifyMode.failIfNoPeerCert = false
  /-- a client without a certificate and a server that asks for one and insists on it share no
  choice -/
  choice : settled.hit = false → server.verifyMode.peer = true →
    settled.newCipher.algorithmAuth &&& sslaPSK = 0 → hasCert = false →
    server.verifyMode.failIfNoPeerCert = false

namespace Negotiated

variable (p : Negotiated)

/-- A message of the handshake; it settles what is negotiated where it is a hello. -/
def body : Body where
  valid := true
  isHelloRetryRequest := false
  settled := p.settled
  hasCookie := false
  hasCert := p.hasCert
  certKeyUsed := false
  updateRequested := false

/-- The next step of an honest party. -/
def act (s : Statem) : Action Statem MessageType :=
  match s.flow with
  | .uninited => .silent (s.step (.call none true)).1
  | .reading .header => .receive fun mt => (s.step (.header mt true true)).1
  | .reading .body => .silent (s.step (.body p.body)).1
  | .reading .postProcess => .silent (s.step (.postProcess (.done p.hasCert))).1
  | .writing .transition => .silent (s.step (.transition false true)).1
  | .writing .preWork => .silent (s.step (.preWork (.done p.hasCert) true true)).1
  | .writing (.send mt) => .send mt (s.step .send).1
  | .writing .postWork => .silent (s.step (.postWork (.done p.hasCert))).1
  | .error | .finished => .halt

/-- The client and the server before the handshake. -/
def start : Net Statem MessageType where
  left := sslNew false false false p.client
  right := sslNew true false false p.server
  toRight := []
  toLeft := []

/-- The server sends a certificate. -/
def sendsCert : Bool := p.settled.newCipher.algorithmAuth &&& (sslaNULL ||| sslaPSK) == 0

/-- The server sends a ServerKeyExchange. -/
def sendsKeyExch : Bool :=
  p.settled.newCipher.algorithmMkey &&& (sslkDHE ||| sslkECDHE) != 0
    || (p.settled.newCipher.algorithmMkey &&& (sslkPSK ||| sslkRSAPSK) != 0
      && p.server.pskIdentityHint)
    || p.settled.newCipher.algorithmMkey &&& (sslPSK &&& (sslkDHEPSK ||| sslkECDHEPSK)) != 0

/-- The server asks for a certificate. -/
def asksCert : Bool :=
  p.server.verifyMode.peer
    && (p.settled.newCipher.algorithmAuth &&& sslaNULL == 0
      || p.server.verifyMode.failIfNoPeerCert)
    && p.settled.newCipher.algorithmAuth &&& sslaPSK == 0

theorem and_or_eq_zero_iff (x a b : UInt32) : x &&& (a ||| b) = 0 ↔ x &&& a = 0 ∧ x &&& b = 0 := by
  simp only [← UInt32.toBitVec_inj, UInt32.toBitVec_and, UInt32.toBitVec_or, UInt32.toBitVec_zero]
  rw [BitVec.and_or_distrib_left, BitVec.or_eq_zero_iff]

theorem psk_and_eq :
    sslPSK &&& (sslkDHEPSK ||| sslkECDHEPSK) = sslkDHEPSK ||| sslkECDHEPSK := by decide

/-- A ServerKeyExchange that is sent is one that the client expects or allows. -/
theorem allowed_of_sendsKeyExch (hkey : p.sendsKeyExch = true) :
    p.settled.newCipher.algorithmMkey
        &&& (sslkDHE ||| sslkECDHE ||| sslkDHEPSK ||| sslkECDHEPSK) ≠ 0 ∨
      p.settled.newCipher.algorithmMkey &&& sslPSK ≠ 0 := by
  simp only [sendsKeyExch, psk_and_eq, Bool.or_eq_true, Bool.and_eq_true, bne_iff_ne] at hkey
  simp only [sslPSK, ne_eq, and_or_eq_zero_iff] at hkey ⊢
  tauto

/-- One that is not sent is not expected. -/
theorem not_expected_of_sendsKeyExch (hkey : p.sendsKeyExch = false) :
    p.settled.newCipher.algorithmMkey
      &&& (sslkDHE ||| sslkECDHE ||| sslkDHEPSK ||| sslkECDHEPSK) = 0 := by
  simp only [sendsKeyExch, psk_and_eq, Bool.or_eq_false_iff, bne_eq_false_iff_eq,
    and_or_eq_zero_iff] at hkey ⊢
  tauto

/-- The server asks for certificates only where the client allows it. -/
theorem allowed_of_asksCert (hask : p.asksCert = true) :
    p.settled.newCipher.algorithmAuth &&& sslaNULL = 0 ∧
      p.settled.newCipher.algorithmAuth &&& sslaPSK = 0 := by
  simp only [asksCert, Bool.and_eq_true, beq_iff_eq] at hask
  refine ⟨?_, hask.2⟩
  by_contra hnull
  have hfail := p.notAnonymous hnull
  simp [hnull, hfail] at hask

/-- A message that is sent in some handshakes only. -/
def optional (sent : Bool) (mt : MessageType) : List MessageType := if sent then [mt] else []

/-- From the ServerKeyExchange to the ServerHelloDone. -/
def keyFlight : List MessageType :=
  optional p.sendsKeyExch .serverKeyExchange ++ (optional p.asksCert .certificateRequest
    ++ [.serverDone])

/-- The first flight of the server in a full handshake. -/
def serverFlight : List MessageType :=
  .serverHello :: (optional p.sendsCert .certificate
    ++ (optional (p.sendsCert && p.settled.statusExpected) .certificateStatus ++ p.keyFlight))

/-- The flight of the client in a full handshake. -/
def clientFlight : List MessageType :=
  optional p.asksCert .certificate ++ ([.clientKeyExchange]
    ++ (optional (p.asksCert && p.hasCert) .certificateVerify ++ [.changeCipherSpec, .finished]))

/-- The last flight of the server in a full handshake, and what follows its hello in a resumed
one. -/
def ticketFlight : List MessageType :=
  optional p.settled.ticketExpected .newsessionTicket ++ [.changeCipherSpec, .finished]

/-! ### Rounds of the loop -/

variable {p} {s s₁ s₂ s₃ s₄ : Statem} {mt : MessageType}

/-- The write transition after which the party waits for the other one. -/
theorem emits_wait (hf : s.flow = .writing .transition)
    (htr : s.writeTransition false true = (s, .finished)) :
    Flight p.act true s [] { s with flow := .reading .header } := by
  have h₁ : p.act s = .silent { s with flow := .reading .header } := by
    simp [act, hf, step, writeTransitionStep, htr, startReading]
  exact .silent h₁ (.refl _)

section
variable (hf : s.flow = .writing .transition) (htr : s.writeTransition false true = (s₁, .continue))
include hf htr

theorem act_transition : p.act s = .silent { s₁ with flow := .writing .preWork } := by
  simp [act, hf, step, writeTransitionStep, htr]

/-- Writing a message. -/
theorem emits_write
    (hpre : { s₁ with flow := .writing .preWork }.preWork (.done p.hasCert)
      = (s₂, .finishedContinue)) (hcon : s₂.constructMessage true = some (s₃, some mt))
    (hpost : { s₃ with flow := .writing .postWork }.postWork (.done p.hasCert)
      = (s₄, .finishedContinue)) :
    Flight p.act true s [mt] { s₄ with flow := .writing .transition } := by
  have h₂ : p.act { s₁ with flow := .writing .preWork }
      = .silent { s₃ with flow := .writing (.send mt) } := by
    simp [act, step, writePreWork, hpre, hcon]
  have h₃ : p.act { s₃ with flow := .writing (.send mt) }
      = .send mt { s₃ with flow := .writing .postWork } := by
    simp [act, step]
  have h₄ : p.act { s₃ with flow := .writing .postWork }
      = .silent { s₄ with flow := .writing .transition } := by
    simp [act, step, writePostWork, hpost, startWriting]
  exact .silent (act_transition hf htr) (.silent h₂ (.send h₃ (.silent h₄ (.refl _))))

theorem emits_finish
    (hpre : { s₁ with flow := .writing .preWork }.preWork (.done p.hasCert) = (s₂, .finishedStop)) :
    Flight p.act true s [] { s₂ with flow := .finished } := by
  have h₂ : p.act { s₁ with flow := .writing .preWork } =
      .silent { s₂ with flow := .finished } := by
    simp [act, step, writePreWork, hpre]
  exact .silent (act_transition hf htr) (.silent h₂ (.refl _))

end

section
variable (hf : s.flow = .reading .header) (hread : s.readTransition true mt = (s₁, true))
include hf hread

/-- Reading a message. -/
theorem absorbs_message (hbody : p.act { s₁ with flow := .reading .body } = .silent s₂) :
    Flight p.act false s [mt] s₂ := by
  have h₁ : p.act s = .receive fun mt => (s.step (.header mt true true)).1 := by rw [act, hf]
  have h₂ : (s.step (.header mt true true)).1 = { s₁ with flow := .reading .body } := by
    simp [step, hf, readHeader, hread]
  exact .receive h₁ (h₂ ▸ .silent hbody (.refl _))

/-- After the message another one is read. -/
theorem absorbs_continue
    (hproc : { s₁ with flow := .reading .body }.processMessage p.body = (s₂, .continueReading)) :
    Flight p.act false s [mt] { s₂ with flow := .reading .header } :=
  absorbs_message hf hread (by simp [act, step, readBody, hproc, startReading])

/-- The message is the last one of a flight. -/
theorem absorbs_last
    (hproc : { s₁ with flow := .reading .body }.processMessage p.body = (s₂, .finishedReading)) :
    Flight p.act false s [mt] { s₂ with flow := .writing .transition } :=
  absorbs_message hf hread (by simp [act, step, readBody, hproc, startWriting])

/-- There is work to do after the message. -/
theorem absorbs_postProcess
    (hproc : { s₁ with flow := .reading .body }.processMessage p.body
      = (s₂, .continueProcessing)) :
    Flight p.act false s [mt] { s₂ with flow := .reading .postProcess } :=
  absorbs_message hf hread (by simp [act, step, readBody, hproc])

end

theorem absorbs_work (hf : s.flow = .reading .postProcess)
    (hpost : s.postProcessMessage (.done p.hasCert) = (s₁, .finishedContinue)) :
    Flight p.act false s [] { s₁ with flow := .reading .header } := by
  have h₁ : p.act s = .silent { s₁ with flow := .reading .header } := by
    simp [act, hf, step, readPostProcess, hpost, startReading]
  exact .silent h₁ (.refl _)

/-- The work after a message that is the last one of its flight. -/
theorem absorbs_workStop (hf : s.flow = .reading .postProcess)
    (hpost : s.postProcessMessage (.done p.hasCert) = (s₁, .finishedStop)) :
    Flight p.act false s [] { s₁ with flow := .writing .transition } := by
  have h₁ : p.act s = .silent { s₁ with flow := .writing .transition } := by
    simp [act, hf, step, readPostProcess, hpost, startWriting]
  exact .silent h₁ (.refl _)

/-- A party at the end of its handshake. -/
structure Done (s : Statem) : Prop where
  handState : s.handState = .ok
  flow : s.flow = .finished

/-- What stays as it was settled. -/
structure Common (p : Negotiated) (s : Statem) : Prop where
  dtls : s.dtls = false
  version : s.version = p.settled.version
  hit : s.hit = p.settled.hit
  newCipher : s.newCipher = p.settled.newCipher
  ticketExpected : s.ticketExpected = p.settled.ticketExpected
  statusExpected : s.statusExpected = p.settled.statusExpected

theorem Common.isTls13 (hs : Common p s) : s.isTls13 = false := by
  rw [Statem.isTls13, hs.dtls, hs.version]
  rcases p.version with hv | hv | hv <;> rw [hv] <;> rfl

theorem Common.isSsl3 (hs : Common p s) : s.isSsl3 = false := by
  rw [Statem.isSsl3, hs.dtls, hs.version]
  rcases p.version with hv | hv | hv <;> rw [hv] <;> rfl

theorem tlsConstructFinished_eq (s : Statem) :
    ∃ cleanup, s.tlsConstructFinished = { s with cleanuphand := cleanup, finishMd := true } := by
  unfold tlsConstructFinished
  split <;> exact ⟨_, rfl⟩

theorem tlsProcessFinished_eq (hccs : s.changeCipherSpec = true) :
    ∃ cleanup, s.tlsProcessFinished p.body = ({ s with
      cleanuphand := cleanup, peerFinishMd := true, changeCipherSpec := false },
        .finishedReading) := by
  unfold tlsProcessFinished
  dsimp only
  split <;> exact ⟨_, (if_neg (by simp [hccs])).trans (if_neg nofun)⟩

theorem tlsFinishHandshake_stop (s : Statem) (hasCert clearbufs : Bool) :
    ∃ t, s.tlsFinishHandshake (.done hasCert) clearbufs true = (t, .finishedStop) ∧
      t.handState = s.handState := by
  rw [tlsFinishHandshake, if_neg (by simp)]
  refine ⟨_, rfl, ?_⟩
  split_ifs <;> rfl

/-! ### Parties -/

/-- A property that does not depend on what the two sides do alike. -/
def Stable (K : Statem → Prop) : Prop :=
  ∀ ⦃s h f c fin peer ccs⦄, K s → K { s with
    handState := h, flow := f, cleanuphand := c, finishMd := fin, peerFinishMd := peer
    changeCipherSpec := ccs }

/-- A party in a state of the handshake; `K` is what only concerns its own side. -/
structure At (p : Negotiated) (K : Statem → Prop) (b : Bool) (s : Statem) (h : HandState)
    (f : MsgFlow) : Prop extends Common p s where
  stable : Stable K
  server : s.server = b
  handState : s.handState = h
  flow : s.flow = f
  kept : K s

variable {K : Statem → Prop} {b : Bool} {h h' : HandState} {f f' : MsgFlow}

/-- The messages that the party sends lead to a state with `P`. -/
abbrev Sends (p : Negotiated) (s : Statem) (ms : List MessageType) (P : Statem → Prop) : Prop :=
  Reaches p.act true s ms P

/-- The messages that the party receives lead to a state with `P`. -/
abbrev Reads (p : Negotiated) (s : Statem) (ms : List MessageType) (P : Statem → Prop) : Prop :=
  Reaches p.act false s ms P

theorem At.changed {c fin peer ccs : Bool} (hs : At p K b s h f) : At p K b { s with
    handState := h', flow := f', cleanuphand := c, finishMd := fin, peerFinishMd := peer
    changeCipherSpec := ccs } h' f' :=
  { hs with handState := rfl, flow := rfl, kept := hs.stable hs.kept }

theorem At.moved (hs : At p K b s h f) (h' : HandState) (f' : MsgFlow) :
    At p K b { s with handState := h', flow := f' } h' f' :=
  hs.changed

theorem At.flowing (hs : At p K b s h f) (f' : MsgFlow) : At p K b { s with flow := f' } h f' :=
  hs.handState ▸ hs.changed

/-- The write transition of a side before TLS 1.3. -/
@[simp]
def write12 (b : Bool) (s : Statem) : Statem × WriteTran :=
  bif b then s.server12WriteTransition true else s.client12WriteTransition false true

/-- The read transition of a side before TLS 1.3. -/
@[simp]
def read12 (b : Bool) (s : Statem) (mt : MessageType) : Statem × Bool :=
  bif b then s.server12ReadTransition mt else s.client12ReadTransition mt

theorem At.writeTransition (hs : At p K b s h f) : s.writeTransition false true = write12 b s := by
  rw [Statem.writeTransition, hs.server]
  cases b <;> simp [clientWriteTransition, serverWriteTransition, hs.isTls13]

theorem At.readTransition (hs : At p K b s h f) (hr : read12 b s mt = s.accept h') :
    s.readTransition true mt = ({ s with handState := h' }, true) := by
  have hr' : s.readTransition true mt = unexpected mt (read12 b s mt) := by
    cases b <;> simp [Statem.readTransition, hs.server, clientReadTransition,
      serverReadTransition, hs.isTls13]
  rw [hr', hr]
  rfl

theorem At.sends_nothing (hs : At p K b s h (.writing .transition))
    (htr : write12 b s = (s, .finished)) : p.Sends s [] (At p K b · h (.reading .header)) :=
  ⟨_, emits_wait hs.flow (hs.writeTransition.trans htr), hs.flowing _⟩

/-- The messages that only move the state of the side that sends them. -/
def message : Bool → HandState → Option MessageType
  | false, .cwCert => some .certificate
  | false, .cwKeyExch => some .clientKeyExchange
  | false, .cwCertVrfy => some .certificateVerify
  | false, .cwChange => some .changeCipherSpec
  | true, .swSrvrHello => some .serverHello
  | true, .swCert => some .certificate
  | true, .swCertStatus => some .certificateStatus
  | true, .swKeyExch => some .serverKeyExchange
  | true, .swSrvrDone => some .serverDone
  | true, .swSessionTicket => some .newsessionTicket
  | true, .swChange => some .changeCipherSpec
  | _, _ => none

theorem At.work_message (hs : At p K b s h f) (hm : message b h = some mt) :
    s.preWork (.done p.hasCert) = (s, .finishedContinue)
      ∧ s.constructMessage true = some (s, some mt)
      ∧ s.postWork (.done p.hasCert) = (s, .finishedContinue) := by
  have hh := hs.handState
  have h13 := hs.isTls13
  simp only [preWork, constructMessage, postWork, hs.server]
  unfold message at hm
  split at hm <;>
    simp_all [clientPreWork, clientConstructMessage, clientPostWork, serverPreWork,
      serverConstructMessage, tlsConstructNewSessionTicket, serverPostWork, flushed]

theorem At.sends (hs : At p K b s h (.writing .transition)) (htr : write12 b s = s.moveTo h')
    (hm : message b h' = some mt) : p.Sends s [mt] (At p K b · h' (.writing .transition)) := by
  obtain ⟨hpre, hcon, -⟩ := (hs.moved h' (.writing .preWork)).work_message hm
  obtain ⟨-, -, hpost⟩ := (hs.moved h' (.writing .postWork)).work_message hm
  exact ⟨_, emits_write hs.flow (hs.writeTransition.trans htr) hpre hcon hpost, hs.changed⟩

/-- The state in which a side sends its Finished. -/
@[simp]
def writesFinished (b : Bool) : HandState := bif b then .swFinished else .cwFinished

/-- A party sends its Finished. -/
theorem At.sends_finished (hs : At p K b s h (.writing .transition))
    (htr : write12 b s = s.moveTo (writesFinished b)) :
    p.Sends s [.finished] (At p K b · (writesFinished b) (.writing .transition)) := by
  let u : Statem := { s with handState := writesFinished b, flow := .writing .preWork }
  obtain ⟨cleanup, hfin⟩ := tlsConstructFinished_eq u
  let t : Statem := { u with cleanuphand := cleanup, finishMd := true, flow := .writing .postWork }
  have ht : At p K b t (writesFinished b) (.writing .postWork) := hs.changed
  have hpre : u.preWork (.done p.hasCert) = (u, .finishedContinue) := by
    cases b <;> simp [preWork, u, clientPreWork, serverPreWork]
  have hcon : u.constructMessage true = some ({ t with flow := .writing .preWork },
      some .finished) := by
    rw [show { t with flow := .writing .preWork } = u.tlsConstructFinished from hfin.symm,
      constructMessage, show u.server = b from hs.server]
    cases b <;> rfl
  have hpost : t.postWork (.done p.hasCert) = (t, .finishedContinue) := by
    cases b <;>
      simp [postWork, clientPostWork, serverPostWork, ht.handState, ht.isTls13, flushed]
  exact ⟨_, emits_write hs.flow (hs.writeTransition.trans htr) hpre hcon hpost, hs.changed⟩

theorem At.sends_ok (hs : At p K b s h (.writing .transition))
    (htr : write12 b s = s.moveTo .ok) : p.Sends s [] Done := by
  let u : Statem := { s with handState := .ok, flow := .writing .preWork }
  obtain ⟨t, ht, hh⟩ := tlsFinishHandshake_stop u p.hasCert true
  have hpre : u.preWork (.done p.hasCert) = (t, .finishedStop) := by
    cases b <;> simp [preWork, u, clientPreWork, serverPreWork, ← ht]
  exact ⟨_, emits_finish hs.flow (hs.writeTransition.trans htr) hpre, hh, rfl⟩

/-- The states in which a side has read the last two messages of the other one. -/
@[simp]
def readsChange (b : Bool) : HandState := bif b then .srChange else .crChange

@[simp]
def readsFinished (b : Bool) : HandState := bif b then .srFinished else .crFinished

/-- A party reads ChangeCipherSpec and Finished. -/
theorem At.reads_finished (hs : At p K b s h (.reading .header))
    (hr : read12 b s .changeCipherSpec = s.accept (readsChange b)) :
    p.Reads s [.changeCipherSpec, .finished]
      (At p K b · (readsFinished b) (.writing .transition)) := by
  let t : Statem := { s with
    handState := readsChange b, flow := .reading .header, changeCipherSpec := true }
  have ht : At p K b t (readsChange b) (.reading .header) := hs.changed
  have hproc : { s with handState := readsChange b, flow := .reading .body }.processMessage p.body
      = ({ t with flow := .reading .body }, .continueReading) := by
    rw [processMessage]
    cases b with
    | false => exact if_neg (by simp [hs.server])
    | true =>
      rw [if_pos (show s.server = true from hs.server), serverProcessMessage]
      exact if_neg nofun
  have hr' : read12 b t .finished = t.accept (readsFinished b) := by
    cases b <;> simp [client12ReadTransition, server12ReadTransition, ht.handState]
  obtain ⟨cleanup, hfin⟩ := @tlsProcessFinished_eq p
    { t with handState := readsFinished b, flow := .reading .body } rfl
  have hproc' : { t with handState := readsFinished b, flow := .reading .body }.processMessage
      p.body = { t with handState := readsFinished b, flow := .reading .body }.tlsProcessFinished
        p.body := by
    cases b with
    | false => exact if_neg (by simp [t, hs.server])
    | true => exact if_pos hs.server
  have hread := absorbs_continue hs.flow (hs.readTransition hr) hproc
  have hread' := absorbs_last ht.flow (ht.readTransition hr') (hproc'.trans hfin)
  exact ⟨_, hread.trans hread', hs.changed⟩

end Negotiated
end QuicTls
