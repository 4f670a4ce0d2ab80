import QuicTls.Theory.Run
import QuicTls.Ssl.Statem.Machine

/-!
# What a step of the state machine can do

`step_cases` is the inversion of `Statem.step`: apart from entering the state machine and from a
server that asks for post-handshake authentication, a step either leaves the flow and the handshake
state alone or is the round of the loop that the flow is in.
-/

namespace QuicTls

namespace Statem

variable {s s' : Statem} {e : StatemEvent} {h : HandState} {o : Option MessageType}

/-- A step that changes neither the flow nor what a handshake depends on. -/
structure Frame (s s' : Statem) : Prop where
  settled : s'.toSettled = s.toSettled
  server : s'.server = s.server
  dtls : s'.dtls = s.dtls
  flow : s'.flow = s.flow
  handState : s'.handState = s.handState
  noCertVerify : s'.noCertVerify = s.noCertVerify

theorem Frame.refl (s : Statem) : Frame s s := ⟨rfl, rfl, rfl, rfl, rfl, rfl⟩

theorem Frame.isTls13 (h : Frame s s') : s'.isTls13 = s.isTls13 := by
  rw [Statem.isTls13, Statem.isTls13, h.settled, h.dtls]

theorem frame_checkFinishInit (sending : Option Bool) : Frame s (s.checkFinishInit sending) := by
  unfold checkFinishInit
  repeat' split
  all_goals exact ⟨rfl, rfl, rfl, rfl, rfl, rfl⟩

/-- The cases of a step. -/
inductive StepCases (s : Statem) : StatemEvent → Statem → Prop
  | frame {e : StatemEvent} {s' : Statem} : Frame s s' → StepCases s e s'
  /-- the state machine is entered at the start or after the end of a handshake -/
  | enter {e : StatemEvent} {s₁ : Statem} (setup : Bool) :
    Frame s s₁ → s.flow = .uninited ∨ s.flow = .finished →
    StepCases s e (s₁.stateMachine setup)
  | verifyClient : s.isTls13 = true → s.server = true → s.handState = .ok →
    s.postHandshakeAuth = .extReceived →
    StepCases s .verifyClient { s with postHandshakeAuth := .requestPending, inInit := true }
  | header {mt restored sizeOk} : s.flow = .reading .header →
    StepCases s (.header mt restored sizeOk) (s.readHeader mt restored sizeOk)
  | body {b} : s.flow = .reading .body → StepCases s (.body b) (s.readBody b)
  | postProcess {w} : s.flow = .reading .postProcess →
    StepCases s (.postProcess w) (s.readPostProcess w)
  | transition {renegotiate setup} : s.flow = .writing .transition →
    StepCases s (.transition renegotiate setup) (s.writeTransitionStep renegotiate setup)
  | preWork {w send ok} : s.flow = .writing .preWork →
    StepCases s (.preWork w send ok) (s.writePreWork w send ok)
  | send {mt} : s.flow = .writing (.send mt) →
    StepCases s .send { s with flow := .writing .postWork }
  | postWork {w} : s.flow = .writing .postWork → StepCases s (.postWork w) (s.writePostWork w)

theorem stepCases_enter {s₁ : Statem} (h : Frame s s₁) (setup : Bool) :
    StepCases s e (s₁.stateMachine setup) := by
  cases hf : s.flow with
  | uninited => exact .enter setup h (.inl hf)
  | finished => exact .enter setup h (.inr hf)
  | error | reading | writing =>
    have hs : s₁.stateMachine setup = s₁ := by rw [stateMachine, h.flow, hf]
    rw [hs]
    exact .frame h

/-- What a step can do. -/
theorem step_cases (s : Statem) (e : StatemEvent) : StepCases s e (s.step e).1 := by
  cases e with
  | app settings => exact .frame ⟨rfl, rfl, rfl, rfl, rfl, rfl⟩
  | call sending setup =>
    simp only [step]
    split
    · exact stepCases_enter (frame_checkFinishInit sending) setup
    · exact .frame (frame_checkFinishInit sending)
  | record setup | writeDue setup =>
    simp only [step]
    split
    all_goals first
      | exact .frame (.refl s)
      | exact stepCases_enter (by exact ⟨rfl, rfl, rfl, rfl, rfl, rfl⟩) setup
  | keyUpdate updatetype =>
    simp only [step, sslKeyUpdate]
    split <;> exact .frame ⟨rfl, rfl, rfl, rfl, rfl, rfl⟩
  | renegotiate | renegotiateCheck =>
    simp only [step]
    split <;> exact .frame ⟨rfl, rfl, rfl, rfl, rfl, rfl⟩
  | verifyClient =>
    simp only [step]
    split
    · rename_i h
      exact .verifyClient h.1 h.2.1 h.2.2.2.1 h.2.2.2.2.1
    · exact .frame (.refl s)
  | header | body | postProcess | transition | preWork | send | postWork =>
    simp only [step]
    split
    · rename_i hf
      first
        | exact .header hf | exact .body hf | exact .postProcess hf | exact .transition hf
        | exact .preWork hf | exact .send hf | exact .postWork hf
    · exact .frame (.refl s)

/-- What a read transition does: reject the message, or accept it and go to a state of `R`. -/
def Outcome (s : Statem) (R : HandState → Prop) (r : Statem × Bool) : Prop :=
  r = s.reject ∨ ∃ h, R h ∧ r = s.accept h

variable {R : HandState → Prop}

theorem outcome_reject : Outcome s R s.reject := .inl rfl

theorem outcome_accept (hR : R h) : Outcome s R (s.accept h) :=
  .inr ⟨h, hR, rfl⟩

theorem Outcome.ite {c : Prop} [Decidable c] {r r' : Statem × Bool} (hr : c → Outcome s R r)
    (hr' : ¬ c → Outcome s R r') : Outcome s R (if c then r else r') := by
  split
  · exact hr ‹_›
  · exact hr' ‹_›

/-- The usual form: one message type is accepted. -/
theorem Outcome.accept_if {c : Prop} [Decidable c] (hR : c → R h) :
    Outcome s R (if c then s.accept h else s.reject) :=
  .ite (fun hc => outcome_accept (hR hc)) fun _ => outcome_reject

/-! ### Work and messages that are constructed -/

/-- A step that does not go to another handshake. -/
structure Keeps (s s' : Statem) : Prop where
  server : s'.server = s.server
  dtls : s'.dtls = s.dtls
  version : s'.version = s.version
  hit : s'.hit = s.hit
  noCertVerify : s'.noCertVerify = s.noCertVerify

theorem Keeps.refl (s : Statem) : Keeps s s := ⟨rfl, rfl, rfl, rfl, rfl⟩

theorem Keeps.trans {t : Statem} (hk : Keeps s s') (hk' : Keeps s' t) : Keeps s t where
  server := hk'.server.trans hk.server
  dtls := hk'.dtls.trans hk.dtls
  version := hk'.version.trans hk.version
  hit := hk'.hit.trans hk.hit
  noCertVerify := hk'.noCertVerify.trans hk.noCertVerify

theorem Keeps.isTls13 (hk : Keeps s s') : s'.isTls13 = s.isTls13 := by
  rw [Statem.isTls13, Statem.isTls13, hk.version, hk.dtls]

/-- A function that stays in the handshake state. -/
structure Stays (s s' : Statem) : Prop extends Keeps s s' where
  handState : s'.handState = s.handState
  flow : s'.flow = s.flow ∨ s'.flow = .error

theorem Stays.refl (s : Statem) : Stays s s := ⟨.refl s, rfl, .inl rfl⟩

theorem Stays.trans {t : Statem} (hs : Stays s s') (hs' : Stays s' t) : Stays s t where
  toKeeps := hs.toKeeps.trans hs'.toKeeps
  handState := hs'.handState.trans hs.handState
  flow := hs'.flow.elim (fun heq => hs.flow.imp heq.trans heq.trans) .inr

theorem stays_fatal : Stays s s.fatal := ⟨⟨rfl, rfl, rfl, rfl, rfl⟩, rfl, .inr rfl⟩

/-- What the work before or after a message does. -/
structure Works (s : Statem) (r : Statem × WorkState) : Prop extends Stays s r.1 where
  keyUpdate : r.1.keyUpdate = s.keyUpdate
  more : r.2 = .more → r.1 = s

theorem works_self (w : WorkState) : Works s (s, w) := ⟨.refl s, rfl, fun _ => rfl⟩

theorem works_fatal : Works s (s.fatal, .error) := ⟨stays_fatal, rfl, by rintro ⟨⟩⟩

theorem works_flushed (w : Work) : Works s (s.flushed w) := by
  cases w with
  | fail => exact works_fatal
  | retry | done => exact works_self _

theorem works_tlsFinishHandshake (w : Work) (clearbufs stop : Bool) :
    Works s (s.tlsFinishHandshake w clearbufs stop) := by
  unfold tlsFinishHandshake
  dsimp only
  repeat' split
  all_goals first
    | exact works_fatal
    | exact ⟨⟨⟨rfl, rfl, rfl, rfl, rfl⟩, rfl, .inl rfl⟩, rfl, by rintro ⟨⟩⟩

theorem works_preWork (s : Statem) (w : Work) : Works s (s.preWork w) := by
  unfold preWork serverPreWork clientPreWork
  repeat' split
  all_goals first
    | exact works_self _
    | exact works_fatal
    | exact works_tlsFinishHandshake ..
    | exact ⟨⟨⟨rfl, rfl, rfl, rfl, rfl⟩, rfl, .inl rfl⟩, rfl, by rintro ⟨⟩⟩
    | exact ⟨⟨⟨rfl, rfl, rfl, rfl, rfl⟩, rfl, .inr rfl⟩, rfl, by rintro ⟨⟩⟩

theorem works_postWork (s : Statem) (w : Work) : Works s (s.postWork w) := by
  unfold postWork serverPostWork clientPostWork dropCompression
  repeat' split
  all_goals first
    | exact works_self _
    | exact works_flushed _
    | exact ⟨⟨⟨rfl, rfl, rfl, rfl, rfl⟩, rfl, .inl rfl⟩, rfl, by rintro ⟨⟩⟩

theorem works_postProcessMessage (s : Statem) (w : Work) : Works s (s.postProcessMessage w) := by
  unfold postProcessMessage serverPostProcessMessage clientPostProcessMessage
    tlsPrepareClientCertificate
  dsimp only
  repeat' split
  all_goals first
    | exact works_self _
    | exact works_fatal
    | exact works_flushed _
    | exact ⟨⟨⟨rfl, rfl, rfl, rfl, rfl⟩, rfl, .inl rfl⟩, rfl, by rintro ⟨⟩⟩

/-- A round of the loop that does some work is repeated, or goes on to a flow of `fs`. -/
structure Round (fs : List MsgFlow) (s s' : Statem) : Prop extends Keeps s s' where
  handState : s'.handState = s.handState
  keyUpdate : s'.keyUpdate = s.keyUpdate
  flow : s' = s ∨ s'.flow ∈ fs

theorem round_readPostProcess (s : Statem) (w : Work) :
    Round [.error, .reading .header, .writing .transition] s (s.readPostProcess w) := by
  have hw := works_postProcessMessage s w
  unfold readPostProcess
  dsimp only
  split
  case h_2 h =>
    rw [hw.more h]
    exact ⟨.refl s, rfl, rfl, .inl rfl⟩
  all_goals exact ⟨{ hw.toKeeps with }, hw.handState, hw.keyUpdate,
    .inr (by simp [fatal, startReading, startWriting])⟩

theorem round_writePostWork (s : Statem) (w : Work) :
    Round [.error, .writing .transition, .finished] s (s.writePostWork w) := by
  have hw := works_postWork s w
  unfold writePostWork
  dsimp only
  split
  case h_2 h =>
    rw [hw.more h]
    exact ⟨.refl s, rfl, rfl, .inl rfl⟩
  all_goals exact ⟨{ hw.toKeeps with }, hw.handState, hw.keyUpdate,
    .inr (by simp [fatal, startWriting])⟩

/-- What the construction of a message does. -/
structure Constructs (s s' : Statem) (o : Option MessageType) : Prop extends Stays s s' where
  message : o = some .keyUpdate ↔ s.handState = if s.server then .swKeyUpdate else .cwKeyUpdate
  keyUpdate : s'.keyUpdate = if o = some .keyUpdate then .none else s.keyUpdate

theorem constructs_other (hh : s.handState = h)
    (hne : h ≠ if s.server then .swKeyUpdate else .cwKeyUpdate) (ho : o ≠ some .keyUpdate)
    (hs : Stays s s' ∧ s'.keyUpdate = s.keyUpdate) : Constructs s s' o :=
  ⟨hs.1, ⟨fun h => absurd h ho, fun h => absurd (hh.symm.trans h) hne⟩, by rw [if_neg ho, hs.2]⟩

theorem constructs_keyUpdate (hh : s.handState = if s.server then .swKeyUpdate else .cwKeyUpdate)
    (hc : s.tlsConstructKeyUpdate.map (·, some MessageType.keyUpdate) = some (s', o)) :
    Constructs s s' o := by
  unfold tlsConstructKeyUpdate at hc
  split at hc
  · cases hc
  · cases hc
    exact ⟨⟨⟨rfl, rfl, rfl, rfl, rfl⟩, rfl, .inl rfl⟩, ⟨fun _ => hh, fun _ => rfl⟩, rfl⟩

/-- Constructing a message. -/
theorem constructs_constructMessage {send : Bool} (hc : s.constructMessage send = some (s', o)) :
    Constructs s s' o := by
  unfold constructMessage at hc
  split at hc
  · rename_i hserver
    unfold serverConstructMessage tlsConstructNewSessionTicket tlsConstructFinished at hc
    split at hc
    case h_16 hh => exact constructs_keyUpdate (hh.trans (if_pos hserver).symm) hc
    case h_17 => cases hc
    all_goals
      repeat' split at hc
      all_goals
        cases hc
        exact constructs_other ‹_› (by simp [hserver]) (by simp)
          ⟨⟨⟨rfl, rfl, rfl, rfl, rfl⟩, rfl, .inl rfl⟩, rfl⟩
  · rename_i hserver
    unfold clientConstructMessage tlsConstructFinished at hc
    split at hc
    case h_10 hh => exact constructs_keyUpdate (hh.trans (if_neg hserver).symm) hc
    case h_11 => cases hc
    all_goals
      repeat' split at hc
      all_goals
        cases hc <;> exact constructs_other ‹_› (by simp [hserver]) (by simp)
          ⟨⟨⟨rfl, rfl, rfl, rfl, rfl⟩, rfl, .inl rfl⟩, rfl⟩

/-! ### Messages processed -/

/-- What processing a message leaves unchanged; only a hello of the peer begins a handshake. -/
structure Processes (s s' : Statem) : Prop where
  server : s'.server = s.server
  dtls : s'.dtls = s.dtls
  handState : s'.handState = s.handState
  noCertVerify : s.noCertVerify = true → s'.noCertVerify = true
  settled : s.handState ≠ (if s.server then .srClntHello else .crSrvrHello) →
    s'.version = s.version ∧ s'.hit = s.hit
  keyUpdate : s.handState ≠ (if s.server then .srKeyUpdate else .crKeyUpdate) →
    s'.keyUpdate = s.keyUpdate

/-- Processing a message. -/
theorem processes_processMessage (s : Statem) (b : Body) : Processes s (s.processMessage b).1 := by
  unfold processMessage
  split
  · have hserver : s.server = true := ‹_›
    unfold serverProcessMessage tlsProcessClientHello tlsProcessEndOfEarlyData
      tlsProcessClientCertificate tlsProcessClientKeyExchange tlsProcessCertVerify
      tlsProcessChangeCipherSpec tlsProcessFinished tlsProcessKeyUpdate
    dsimp only
    split
    case h_1 hs => -- srClntHello
      repeat' split
      all_goals exact ⟨rfl, rfl, rfl, id,
        fun hne => (hne (hs.trans (if_pos hserver).symm)).elim, fun _ => rfl⟩
    case h_5 => -- srKeyExch
      split
      · exact ⟨rfl, rfl, rfl, id, fun _ => ⟨rfl, rfl⟩, fun _ => rfl⟩
      · exact ⟨rfl, rfl, rfl, fun h => by simp [h], fun _ => ⟨rfl, rfl⟩, fun _ => rfl⟩
    case h_9 hs => -- srKeyUpdate
      repeat' split
      all_goals exact ⟨rfl, rfl, rfl, id, fun _ => ⟨rfl, rfl⟩,
        fun hne => (hne (hs.trans (if_pos hserver).symm)).elim⟩
    all_goals
      repeat' split
      all_goals exact ⟨rfl, rfl, rfl, id, fun _ => ⟨rfl, rfl⟩, fun _ => rfl⟩
  · have hserver : ¬ s.server = true := ‹_›
    unfold clientProcessMessage tlsProcessServerHello tlsProcessCertVerify
      tlsProcessCertificateRequest tlsProcessChangeCipherSpec tlsProcessFinished
      tlsProcessHelloReq tlsProcessKeyUpdate
    dsimp only
    split
    case h_1 hs => -- crSrvrHello
      repeat' split
      all_goals exact ⟨rfl, rfl, rfl, id,
        fun hne => (hne (hs.trans (if_neg hserver).symm)).elim, fun _ => rfl⟩
    case h_15 hs => -- crKeyUpdate
      repeat' split
      all_goals exact ⟨rfl, rfl, rfl, id, fun _ => ⟨rfl, rfl⟩,
        fun hne => (hne (hs.trans (if_neg hserver).symm)).elim⟩
    all_goals
      repeat' split
      all_goals exact ⟨rfl, rfl, rfl, id, fun _ => ⟨rfl, rfl⟩, fun _ => rfl⟩

theorem processes_readBody (s : Statem) (b : Body) : Processes s (s.readBody b) := by
  have h := processes_processMessage s b
  unfold readBody
  dsimp only
  split <;> exact { h with }

/-- The handshake state in which the step processes a message with success. -/
def processed (s : Statem) : StatemEvent → Option HandState
  | .body b =>
    if s.flow = .reading .body ∧ (s.processMessage b).2 ≠ .error then some s.handState else none
  | _ => none

theorem processed_body {b : Body} {ret : MsgProcessReturn} (hf : s.flow = .reading .body)
    (hproc : s.processMessage b = (s', ret)) (hret : ret ≠ .error) :
    s.processed (.body b) = some s.handState := by
  rw [processed, if_pos ⟨hf, by rwa [hproc]⟩]

theorem processed_eq_some (hp : s.processed e = some h) :
    ∃ b, e = .body b ∧ s.flow = .reading .body ∧ (s.processMessage b).2 ≠ .error
      ∧ s.handState = h ∧ (s.step e).1 = s.readBody b := by
  unfold processed at hp
  split at hp
  · split at hp
    · obtain ⟨hf, hret⟩ := ‹_ ∧ _›
      cases hp
      exact ⟨_, rfl, hf, hret, rfl, by simp [step, hf]⟩
    · cases hp
  · cases hp

theorem readBody_refused {b : Body} (hf : s.flow = .reading .body)
    (hproc : s.processed (.body b) = none) : (s.readBody b).flow = .error := by
  have hret : (s.processMessage b).2 = .error := by
    by_contra hne
    rw [processed, if_pos ⟨hf, hne⟩] at hproc
    cases hproc
  rw [readBody]
  rw [hret]
  rfl

/-- A step together with the message it processes. -/
def observe (s : Statem) (e : StatemEvent) : Statem × Option HandState :=
  ((s.step e).1, s.processed e)

/-- What was observed of the messages processed along a run, in order. -/
def messages {α : Type} (log : List (StatemEvent × Option α)) : List α := log.filterMap (·.2)

theorem messages_concat {α : Type} (log : List (StatemEvent × Option α)) (x) :
    messages (log ++ [x]) = messages log ++ x.2.toList := by
  cases h : x.2 <;> simp [messages, h]

end Statem
end QuicTls
