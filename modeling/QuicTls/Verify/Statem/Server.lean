import QuicTls.Verify.Statem.Step

/-!
# The server's transitions

The states that the server's read transitions lead to, and what the other functions of the server
leave unchanged.
-/

namespace QuicTls

/-- The states in which the client's certificate is processed. -/
def HandState.IsClientCert (c : HandState) : Prop := c = .srCert ∨ c = .srCompCert

/-- The states of the client's messages from its key exchange on, before TLS 1.3. -/
def HandState.InClientFlight (h : HandState) : Prop :=
  h = .srKeyExch ∨ h = .srCertVrfy ∨ h = .srChange ∨ h = .srFinished

/-- The flow of a connection that neither reads nor is new. -/
def MsgFlow.NotReading (f : MsgFlow) : Prop := f = .error ∨ f = .finished ∨ ∃ w, f = .writing w

theorem MsgFlow.NotReading.ne_uninited {f : MsgFlow} (hf : f.NotReading) : f ≠ .uninited := by
  rcases hf with rfl | rfl | ⟨w, rfl⟩ <;> nofun

namespace Statem

variable {s s' : Statem} {mt : MessageType} {h : HandState} {restored : Bool}

/-! ### Reading -/

/-- The states that the server goes to from one state when it reads a message in TLS 1.3; `peer`
says whether the client has a certificate. -/
inductive Reads13 (peer : Bool) : HandState → HandState → Prop
  | hello : Reads13 peer .earlyData .srClntHello
  | endOfEarlyData : Reads13 peer .earlyData .srEndOfEarlyData
  | cert {h c : HandState} : c.IsClientCert → ¬ h.IsClientCert → h ≠ .srCertVrfy → Reads13 peer h c
  | finished {h : HandState} : ¬ h.IsClientCert → Reads13 peer h .srFinished
  | noCert {c : HandState} : c.IsClientCert → peer = false → Reads13 peer c .srFinished
  | certVrfy {c : HandState} : c.IsClientCert → peer = true → Reads13 peer c .srCertVrfy
  | keyUpdate : Reads13 peer .ok .srKeyUpdate

/-- The same before TLS 1.3. -/
inductive Reads12 (peer noCertVerify : Bool) : HandState → HandState → Prop
  | hello {h : HandState} : h = .before ∨ h = .ok ∨ h = .dtlsSwHelloVerifyRequest →
    Reads12 peer noCertVerify h .srClntHello
  | cert : Reads12 peer noCertVerify .swSrvrDone .srCert
  | keyExch : Reads12 peer noCertVerify .swSrvrDone .srKeyExch
  | certKeyExch : Reads12 peer noCertVerify .srCert .srKeyExch
  | certVrfy : peer = true → noCertVerify = false → Reads12 peer noCertVerify .srKeyExch .srCertVrfy
  | noCertVrfy : peer = false ∨ noCertVerify = true → Reads12 peer noCertVerify .srKeyExch .srChange
  | change : Reads12 peer noCertVerify .srCertVrfy .srChange
  | hitChange : Reads12 peer noCertVerify .swFinished .srChange
  | finished : Reads12 peer noCertVerify .srChange .srFinished

theorem readClientFlight_outcome (hh : ¬ h.IsClientCert) (hv : h ≠ .srCertVrfy) :
    Outcome s (Reads13 s.peer h) (s.readClientFlight mt) := by
  refine .ite (fun _ => .ite (fun _ => ?_) fun _ => ?_) fun _ => ?_
  · exact outcome_accept (.cert (.inl rfl) hh hv)
  · exact .accept_if fun _ => .cert (.inr rfl) hh hv
  · exact .accept_if fun _ => .finished hh

theorem certRead_outcome (hc : h.IsClientCert) :
    Outcome s (Reads13 s.peer h)
      (if !s.peer then
        if mt = .finished then s.accept .srFinished else s.reject
      else if mt = .certificateVerify then s.accept .srCertVrfy
      else s.reject) := by
  refine .ite (fun hp => .accept_if fun _ => .noCert hc ?_)
    fun hp => .accept_if fun _ => .certVrfy hc ?_
  · rwa [Bool.not_eq_true'] at hp
  · rwa [Bool.not_eq_true', Bool.not_eq_false] at hp

/-- What the TLS 1.3 server reads. -/
theorem server13ReadTransition_outcome :
    Outcome s (Reads13 s.peer s.handState) (s.server13ReadTransition mt) := by
  unfold server13ReadTransition
  split
  case _ hs =>
    rw [hs]
    refine .ite (fun _ => .accept_if fun _ => .hello) fun _ => .ite (fun _ => ?_) fun _ => ?_
    · exact .accept_if fun _ => .endOfEarlyData
    · exact readClientFlight_outcome (by nofun) nofun
  case _ hs | _ hs =>
    rw [hs]
    exact readClientFlight_outcome (by nofun) nofun
  case _ hs =>
    rw [hs]
    exact certRead_outcome (.inr rfl)
  case _ hs =>
    rw [hs]
    exact certRead_outcome (.inl rfl)
  case _ hs =>
    rw [hs]
    exact .accept_if fun _ => .finished (by nofun)
  case _ hs =>
    rw [hs]
    refine .ite (fun _ => outcome_reject) fun _ => .ite (fun _ => ?_) fun _ =>
      .ite (fun _ => ?_) fun _ => .accept_if fun _ => .keyUpdate
    · exact outcome_accept (.cert (.inl rfl) (by nofun) nofun)
    · exact outcome_accept (.cert (.inr rfl) (by nofun) nofun)
  case _ => exact outcome_reject

/-- The key exchange is refused where a certificate is required. -/
theorem server12ReadTransition_outcome : s.server12ReadTransition mt = (s.fatal, false) ∨
    Outcome s (Reads12 s.peer s.noCertVerify s.handState) (s.server12ReadTransition mt) := by
  unfold server12ReadTransition
  split
  case _ hs | _ hs | _ hs =>
    rw [hs]
    exact .inr (.accept_if fun _ => .hello (by simp))
  case _ hs =>
    rw [hs, readAfterSrvrDone]
    split
    · split
      · split
        · split
          · exact .inl rfl
          · exact .inr (outcome_accept .keyExch)
        · exact .inr outcome_reject
      · exact .inr (outcome_accept .keyExch)
    · exact .inr (.accept_if fun _ => .cert)
  case _ hs =>
    rw [hs]
    exact .inr (.accept_if fun _ => .certKeyExch)
  case _ hs =>
    rw [hs]
    refine .inr (.ite (fun hp => .accept_if fun _ => .noCertVrfy ?_)
      fun hp => .accept_if fun _ => .certVrfy ?_ ?_)
    all_goals simp_all
  case _ hs =>
    rw [hs]
    exact .inr (.accept_if fun _ => .change)
  case _ hs =>
    rw [hs]
    exact .inr (.accept_if fun _ => .finished)
  case _ hs =>
    rw [hs]
    exact .inr (.accept_if fun _ => .hitChange)
  case _ => exact .inr outcome_reject

/-- The states that the server goes to when it reads a message. -/
def ServerReads (s : Statem) (h : HandState) : Prop :=
  if s.isTls13 then Reads13 s.peer s.handState h
  else Reads12 s.peer s.noCertVerify s.handState h

/-- A header is dropped (in DTLS) or refused, or names a message that is read. -/
theorem server_readHeader_cases (hserver : s.server = true) (sizeOk : Bool) :
    s.readHeader mt restored sizeOk = s ∨ s.readHeader mt restored sizeOk = s.fatal ∨
    ∃ h, ServerReads s h ∧ (s.readHeader mt restored sizeOk = { s with handState := h }.fatal ∨
        s.readHeader mt restored sizeOk = { s with handState := h, flow := .reading .body }) := by
  rw [readHeader, readTransition, if_pos hserver, serverReadTransition]
  generalize hr : (if s.isTls13 then s.server13ReadTransition mt
    else s.server12ReadTransition mt) = r
  have hout : r = (s.fatal, false) ∨ Outcome s (ServerReads s) r := by
    rw [← hr]
    unfold ServerReads
    split
    · exact .inr server13ReadTransition_outcome
    · exact server12ReadTransition_outcome
  rcases hout with heq | heq | ⟨h, hR, heq⟩
  · have hun : unexpected mt (s.fatal, false) = (s.fatal, false) := by
      rw [unexpected, if_neg nofun]
      split <;> rfl
    rw [heq, hun]
    exact .inr (.inl rfl)
  · rw [heq]
    by_cases hd : s.dtls ∧ mt = .changeCipherSpec
    · left
      simp [unexpected, reject, hd]
    · right
      left
      simp [unexpected, reject, hd]
  · rw [heq]
    refine .inr (.inr ⟨h, hR, ?_⟩)
    cases sizeOk
    · exact .inl rfl
    · exact .inr rfl

/-! ### Writing -/

/-- What a write transition of the server does. -/
structure WriteSpec (s : Statem) (r : Statem × WriteTran) : Prop where
  keeps : Keeps s r.1
  moved : r.2 = .continue → ¬ r.1.handState.InClientFlight
  stayed : r.2 ≠ .continue → r.1.handState = s.handState
  finished : r.2 = .finished → ¬ s.handState.InClientFlight
    ∧ (s.handState = .swFinished → s.isTls13 = false → s.hit = true)

theorem writeSpec_moveTo (hk : Keeps s s') (hh : ¬ h.InClientFlight) :
    WriteSpec s (s'.moveTo h) where
  keeps := { hk with }
  moved _ := hh
  stayed hne := absurd rfl hne
  finished := nofun

theorem writeSpec_fatal (hk : Keeps s s') (hh : s'.handState = s.handState) :
    WriteSpec s (s'.fatal, .error) where
  keeps := { hk with }
  moved := nofun
  stayed _ := hh
  finished := nofun

theorem writeSpec_finished (hh : ¬ s.handState.InClientFlight)
    (hsw : s.handState = .swFinished → s.isTls13 = false → s.hit = true) :
    WriteSpec s (s, .finished) where
  keeps := .refl s
  moved := nofun
  stayed _ := rfl
  finished _ := ⟨hh, hsw⟩

theorem WriteSpec.ite {c : Prop} [Decidable c] {r r' : Statem × WriteTran} (hr : c → WriteSpec s r)
    (hr' : ¬ c → WriteSpec s r') : WriteSpec s (if c then r else r') := by
  split
  · exact hr ‹_›
  · exact hr' ‹_›

theorem WriteSpec.move (hh : ¬ h.InClientFlight) : WriteSpec s (s.moveTo h) :=
  writeSpec_moveTo (.refl s) hh

/-- What the TLS 1.3 server writes. -/
theorem server13WriteTransition_spec : WriteSpec s s.server13WriteTransition := by
  unfold server13WriteTransition
  split
  case _ hs => -- ok
    refine .ite (fun _ => ?_) fun _ => .ite (fun _ => ?_) fun _ => .ite (fun _ => ?_) fun _ => ?_
    · exact .move (by nofun)
    · exact .move (by nofun)
    · exact .move (by nofun)
    · exact writeSpec_finished (hs ▸ by nofun) (hs ▸ nofun)
  case _ => exact .move (by nofun)
  case _ => exact .move (by split_ifs <;> nofun)
  case _ => exact .move (by split_ifs <;> nofun)
  case _ => exact .move (by unfold serverCertState; split_ifs <;> nofun)
  case _ => -- swCertReq
    refine .ite (fun _ => ?_) fun _ => .move (by unfold serverCertState; split_ifs <;> nofun)
    exact writeSpec_moveTo ⟨rfl, rfl, rfl, rfl, rfl⟩ (by nofun)
  case _ | _ | _ | _ => exact .move (by nofun)
  case _ hs => exact writeSpec_finished (hs ▸ by nofun) (hs ▸ nofun)
  case _ => -- srFinished
    refine .ite (fun _ => ?_) fun _ => .ite (fun _ => .move (by nofun)) fun _ =>
      .move (by split_ifs <;> nofun)
    exact writeSpec_moveTo ⟨rfl, rfl, rfl, rfl, rfl⟩ (by split_ifs <;> nofun)
  case _ | _ => exact .move (by nofun)
  case _ hs => -- swSessionTicket
    have hagain : WriteSpec s (s, .continue) :=
      ⟨.refl s, fun _ => hs ▸ by nofun, fun hne => absurd rfl hne, nofun⟩
    refine .ite (fun _ => hagain) fun _ => .ite (fun _ => .move (by nofun)) fun _ => hagain
  case _ => exact writeSpec_fatal (.refl s) rfl

theorem writeAfterKeyExch_spec : WriteSpec s s.writeAfterKeyExch :=
  .move (by split_ifs <;> nofun)

theorem writeAfterCertStatus_spec : WriteSpec s s.writeAfterCertStatus :=
  .ite (fun _ => .move (by nofun)) fun _ => writeAfterKeyExch_spec

theorem keeps_writePreWork (hf : s.flow = .writing .preWork) (w : Work) (send ok : Bool) :
    let s' := s.writePreWork w send ok
    Keeps s s' ∧ s'.handState = s.handState ∧ s'.flow.NotReading := by
  have hpre := (works_preWork s w).toStays
  unfold writePreWork
  generalize s.preWork w = r at hpre
  obtain ⟨t, work⟩ := r
  have ⟨hk, hh, hflow⟩ := hpre
  cases work with
  | error => exact ⟨{ hk with }, hh, .inl rfl⟩
  | more =>
    refine ⟨hk, hh, ?_⟩
    exact hflow.elim (fun heq => .inr (.inr ⟨_, heq.trans hf⟩)) .inl
  | finishedStop => exact ⟨{ hk with }, hh, .inr (.inl rfl)⟩
  | finishedContinue =>
    dsimp only
    split
    · exact ⟨{ hk with }, hh, .inl rfl⟩
    rename_i u mt hc
    have ⟨hk, hh, _⟩ := hpre.trans (constructs_constructMessage hc).toStays
    split
    · exact ⟨{ hk with }, hh, .inl rfl⟩
    · split <;> exact ⟨{ hk with }, hh, .inr (.inr ⟨_, rfl⟩)⟩

theorem readBody_flow (s : Statem) (b : Body) : (s.readBody b).flow ≠ .uninited := by
  unfold readBody
  dsimp only
  split <;> nofun

section

variable (hserver : s.server = true)
include hserver

theorem keeps_tlsSetupHandshake :
    Keeps s (s.tlsSetupHandshake true).1 ∧
      (s.tlsSetupHandshake true).1.handState = s.handState := by
  rw [tlsSetupHandshake, if_neg nofun, if_pos hserver]
  split
  · exact ⟨.refl s, rfl⟩
  · exact ⟨⟨rfl, rfl, rfl, rfl, rfl⟩, rfl⟩

/-- What the server writes up to TLS 1.2. -/
theorem server12WriteTransition_spec (setup : Bool) :
    WriteSpec s (s.server12WriteTransition setup) := by
  unfold server12WriteTransition
  split
  case _ hs => -- ok
    refine .ite (fun _ => ?_) fun _ => .ite (fun _ => ?_) fun _ => writeSpec_fatal (.refl s) rfl
    · exact writeSpec_moveTo ⟨rfl, rfl, rfl, rfl, rfl⟩ (by nofun)
    · obtain ⟨hk, hh⟩ := keeps_tlsSetupHandshake hserver
      exact ⟨hk, nofun, fun _ => hh, fun _ => ⟨hs ▸ by nofun, hs ▸ nofun⟩⟩
  case _ hs => exact writeSpec_finished (hs ▸ by nofun) (hs ▸ nofun)
  case _ => exact .move (by nofun)
  case _ => exact .move (by split_ifs <;> nofun)
  case _ hs => exact writeSpec_finished (hs ▸ by nofun) (hs ▸ nofun)
  case _ => exact .move (by split_ifs <;> nofun)
  case _ => exact .ite (fun _ => .move (by nofun)) fun _ => writeAfterCertStatus_spec
  case _ => exact writeAfterCertStatus_spec
  case _ => exact writeAfterKeyExch_spec
  case _ => exact .move (by nofun)
  case _ hs => exact writeSpec_finished (hs ▸ by nofun) (hs ▸ nofun)
  case _ => exact .move (by split_ifs <;> nofun)
  case _ | _ => exact .move (by nofun)
  case _ hs =>
    exact .ite (fun hhit => writeSpec_finished (hs ▸ by nofun) fun _ _ => hhit)
      fun _ => .move (by nofun)
  case _ => exact writeSpec_fatal (.refl s) rfl

theorem server_writeTransition_spec (renegotiate setup : Bool) :
    WriteSpec s (s.writeTransition renegotiate setup) := by
  rw [writeTransition, if_pos hserver]
  exact .ite (fun _ => server13WriteTransition_spec)
    fun _ => server12WriteTransition_spec hserver setup

/-- A write transition moves on, fails, or turns to reading. -/
theorem server_writeTransitionStep (renegotiate setup : Bool) :
    let s' := s.writeTransitionStep renegotiate setup
    Keeps s s' ∧ (s'.flow = .writing .preWork ∧ ¬ s'.handState.InClientFlight ∨
        s'.flow = .error ∧ s'.handState = s.handState ∨
        s'.flow = .reading .header ∧ s'.handState = s.handState ∧ ¬ s.handState.InClientFlight
          ∧ (s.handState = .swFinished → s.isTls13 = false → s.hit = true)) := by
  have hspec := server_writeTransition_spec hserver renegotiate setup
  unfold writeTransitionStep
  generalize s.writeTransition renegotiate setup = r at hspec
  obtain ⟨t, tran⟩ := r
  obtain ⟨hk, hmoved, hstayed, hfinished⟩ := hspec
  cases tran with
  | error => exact ⟨{ hk with }, .inr (.inl ⟨rfl, hstayed nofun⟩)⟩
  | «continue» => exact ⟨{ hk with }, .inl ⟨rfl, hmoved rfl⟩⟩
  | finished =>
    exact ⟨{ hk with }, .inr (.inr ⟨rfl, hstayed nofun, hfinished rfl⟩)⟩

/-- A handshake is set up, or the state machine entered for a message after a handshake. -/
theorem server_startHandshake (fresh setup : Bool) :
    let s' := s.startHandshake fresh setup
    Keeps s s' ∧ s'.handState = s.handState ∧ s'.flow.NotReading := by
  have hk : Keeps s { s with changeCipherSpec := false } := ⟨rfl, rfl, rfl, rfl, rfl⟩
  unfold startHandshake
  dsimp only
  split
  · split
    · obtain ⟨hk', hh⟩ := @keeps_tlsSetupHandshake { s with changeCipherSpec := false } hserver
      exact ⟨{ hk.trans hk' with }, hh, .inr (.inr ⟨_, rfl⟩)⟩
    · exact ⟨{ hk with }, rfl, .inl rfl⟩
  · exact ⟨{ hk with }, rfl, .inr (.inr ⟨_, rfl⟩)⟩

theorem server_stateMachine_uninited (hf : s.flow = .uninited) (setup : Bool) :
    s.stateMachine setup = s ∨ ((s.stateMachine setup).server = true
      ∧ (s.stateMachine setup).handState = .before ∧ (s.stateMachine setup).flow.NotReading) := by
  unfold stateMachine
  split
  case h_2 =>
    split
    · split
      · exact .inl rfl
      · obtain ⟨hk, hh, hfl⟩ :=
          @server_startHandshake { s.sslClear with requestState := .before } hserver true setup
        exact .inr ⟨hk.server.trans hserver, hh, hfl⟩
    · obtain ⟨hk, hh, hfl⟩ := @server_startHandshake
        { s with handState := .before, requestState := .before } hserver true setup
      exact .inr ⟨hk.server.trans hserver, hh, hfl⟩
  all_goals simp_all

end

theorem Round.ne_uninited {fs : List MsgFlow} (hr : Round fs s s') (hf : s.flow ≠ .uninited)
    (hfs : .uninited ∉ fs) : s'.flow ≠ .uninited :=
  hr.flow.elim (fun heq => heq ▸ hf) fun hm heq => hfs (heq ▸ hm)

/-- A server whose state machine has been entered. -/
structure InUse (s : Statem) : Prop where
  server : s.server = true
  flow : s.flow ≠ .uninited

/-- `no_cert_verify` is not cleared while the connection is in use. -/
theorem InUse.step (hu : InUse s) (e : StatemEvent) :
    InUse (s.step e).1 ∧ (s.noCertVerify = true → (s.step e).1.noCertVerify = true) := by
  have hcases := step_cases s e
  generalize (s.step e).1 = s' at hcases
  have keep {t : Statem} (hk : Keeps s t) (hf : t.flow ≠ .uninited) :
      InUse t ∧ (s.noCertVerify = true → t.noCertVerify = true) :=
    ⟨⟨hk.server.trans hu.server, hf⟩, hk.noCertVerify.trans⟩
  cases hcases with
  | frame hf => exact ⟨⟨hf.server.trans hu.server, hf.flow ▸ hu.flow⟩, hf.noCertVerify.trans⟩
  | @enter _ t setup hf hfl =>
    have hfl : s.flow = .finished := hfl.resolve_left hu.flow
    have hstart : t.stateMachine setup = t.startHandshake false setup := by
      rw [stateMachine, hf.flow, hfl]
    obtain ⟨hk, -, hnr⟩ := @server_startHandshake t (hf.server.trans hu.server) false setup
    rw [hstart]
    exact ⟨⟨hk.server.trans (hf.server.trans hu.server), hnr.ne_uninited⟩,
      fun h => hk.noCertVerify.trans (hf.noCertVerify.trans h)⟩
  | verifyClient => exact ⟨⟨hu.server, hu.flow⟩, id⟩
  | @header mt restored sizeOk hf =>
    rcases @server_readHeader_cases s mt restored hu.server sizeOk with
      heq | heq | ⟨h, -, heq | heq⟩
    · rw [heq]
      exact ⟨hu, id⟩
    all_goals
      rw [heq]
      exact ⟨⟨hu.server, by rintro ⟨⟩⟩, id⟩
  | @body b hf =>
    have hspec := processes_readBody s b
    exact ⟨⟨hspec.server.trans hu.server, readBody_flow s b⟩, hspec.noCertVerify⟩
  | postProcess hf =>
    have hr := round_readPostProcess s ‹_›
    exact keep hr.toKeeps (hr.ne_uninited hu.flow (by decide))
  | transition hf =>
    obtain ⟨hk, hfl⟩ := server_writeTransitionStep hu.server _ _
    refine keep hk ?_
    rcases hfl with ⟨hfl, -⟩ | ⟨hfl, -⟩ | ⟨hfl, -⟩
    all_goals exact hfl ▸ (by rintro ⟨⟩)
  | preWork hf =>
    obtain ⟨hk, -, hfl⟩ := keeps_writePreWork hf _ _ _
    exact keep hk hfl.ne_uninited
  | send => exact ⟨⟨hu.server, by rintro ⟨⟩⟩, id⟩
  | postWork hf =>
    have hr := round_writePostWork s ‹_›
    exact keep hr.toKeeps (hr.ne_uninited hu.flow (by decide))

end Statem
end QuicTls
