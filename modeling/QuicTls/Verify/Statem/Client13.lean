import QuicTls.Verify.Statem.Step

/-!
# The TLS 1.3 client

The messages that `ossl_statem_client13_read_transition` accepts after the ServerHello, and what an
unresumed handshake has processed when the client reaches `TLS_ST_OK` (`client13_grammar`).
-/

namespace QuicTls

/-- A message that carries the server's certificate, and the state it is read in; `compress` is
`compress_certificate_sent`. -/
inductive ServerCert (compress : Bool) : MessageType → HandState → Prop
  | certificate : ServerCert compress .certificate .crCert
  | compressed : compress = true → ServerCert compress .compressedCertificate .crCompCert

/-- The messages of a server from its hello to its Finished; `hit` says that a session is
resumed. -/
inductive ServerFlight (compress : Bool) : (hit : Bool) → List MessageType → Prop
  | resumed : ServerFlight compress true [.encryptedExtensions, .finished]
  | full {cert : MessageType} {c : HandState} : ServerCert compress cert c →
    ServerFlight compress false [.encryptedExtensions, cert, .certificateVerify, .finished]
  | requested {cert : MessageType} {c : HandState} : ServerCert compress cert c →
    ServerFlight compress false
      [.encryptedExtensions, .certificateRequest, cert, .certificateVerify, .finished]

/-- The states in which the server's certificate is processed. -/
def HandState.IsServerCert (c : HandState) : Prop := c = .crCert ∨ c = .crCompCert

theorem ServerCert.isServerCert {compress : Bool} {mt : MessageType} {c : HandState}
    (hc : ServerCert compress mt c) : c.IsServerCert := by
  cases hc with
  | certificate => exact .inl rfl
  | compressed => exact .inr rfl

namespace Statem

variable {s s' : Statem} {restored : Bool} {mt : MessageType} {mts : List MessageType}
  {c h h' : HandState} {hit compress : Bool} {ms : List HandState}

/-- The messages that are read in the initial handshake, with the states they lead to. -/
inductive Reads (hit compress : Bool) : HandState → MessageType → HandState → Prop
  | serverHello : Reads hit compress .cwClntHello .serverHello .crSrvrHello
  | extensions : Reads hit compress .crSrvrHello .encryptedExtensions .crEncryptedExtensions
  | resumed : hit = true → Reads hit compress .crEncryptedExtensions .finished .crFinished
  | request : hit = false → Reads hit compress .crEncryptedExtensions .certificateRequest .crCertReq
  | cert {mt : MessageType} {c : HandState} : hit = false → ServerCert compress mt c →
    Reads hit compress .crEncryptedExtensions mt c
  | requestedCert {mt : MessageType} {c : HandState} : ServerCert compress mt c →
    Reads hit compress .crCertReq mt c
  | verify : Reads hit compress .crCert .certificateVerify .crCertVrfy
  | verifyCompressed : Reads hit compress .crCompCert .certificateVerify .crCertVrfy
  | finished : Reads hit compress .crCertVrfy .finished .crFinished

theorem Reads.ne (hr : Reads hit compress h mt h') : h' ≠ .ok ∧ h' ≠ .cwClntHello := by
  cases hr with
  | cert _ hc | requestedCert hc => cases hc <;> exact ⟨nofun, nofun⟩
  | serverHello | extensions | resumed | request | verify | verifyCompressed | finished =>
    exact ⟨nofun, nofun⟩

theorem serverCert_outcome {R : HandState → Prop}
    (hR : ∀ c, ServerCert s.compressCertificateSent mt c → R c) :
    Outcome s R (if mt = .certificate then s.accept .crCert
      else if mt = .compressedCertificate ∧ s.compressCertificateSent then s.accept .crCompCert
      else s.reject) :=
  .ite (fun hmt => outcome_accept (hR _ (hmt ▸ .certificate))) fun _ =>
    .accept_if fun hmt => hR _ (hmt.1 ▸ .compressed hmt.2)

/-- In the initial handshake a message is rejected or read. -/
theorem client13ReadTransition_outcome (hok : s.handState ≠ .ok) :
    Outcome s (Reads s.hit s.compressCertificateSent s.handState mt)
      (s.client13ReadTransition restored mt) := by
  unfold client13ReadTransition
  split
  case _ hs => exact .accept_if fun hmt => hmt ▸ hs ▸ .serverHello
  case _ hs => exact .accept_if fun hmt => hmt ▸ hs ▸ .extensions
  case _ hs =>
    rw [hs]
    refine .ite (fun hhit => .accept_if fun hmt => hmt ▸ .resumed hhit) fun hhit => ?_
    rw [Bool.not_eq_true] at hhit
    exact .ite (fun hmt => outcome_accept (hmt ▸ .request hhit)) fun _ =>
      serverCert_outcome fun _ hc => .cert hhit hc
  case _ hs => exact serverCert_outcome fun _ hc => hs ▸ .requestedCert hc
  case _ hs => exact .accept_if fun hmt => hmt ▸ hs ▸ .verify
  case _ hs => exact .accept_if fun hmt => hmt ▸ hs ▸ .verifyCompressed
  case _ hs => exact .accept_if fun hmt => hmt ▸ hs ▸ .finished
  case _ hs => exact absurd hs hok
  case _ => exact outcome_reject

theorem Reads.accept (hr : Reads s.hit s.compressCertificateSent s.handState mt h) :
    s.client13ReadTransition restored mt = s.accept h := by
  generalize hs : s.handState = hand at hr
  cases hr with
  | serverHello | extensions | verify | verifyCompressed | finished =>
    rw [client13ReadTransition, hs]
    rfl
  | resumed hhit | request hhit => simp [client13ReadTransition, hs, hhit]
  | cert hhit hc | requestedCert hc => cases hc <;> simp_all [client13ReadTransition]

/-- A message that is not accepted leaves the handshake state as it was, in any state. -/
theorem client13ReadTransition_rejected (hr : (s.client13ReadTransition restored mt).2 = false) :
    (s.client13ReadTransition restored mt).1.handState = s.handState
      ∧ (s.client13ReadTransition restored mt).1.dtls = s.dtls := by
  by_cases hok : s.handState = .ok
  · simp only [client13ReadTransition, hok] at hr ⊢
    split_ifs at hr ⊢ <;> first | exact ⟨hok, rfl⟩ | exact ⟨rfl, rfl⟩ | cases hr
  · rcases @client13ReadTransition_outcome s restored mt hok with heq | ⟨h, -, heq⟩
    · rw [heq]
      exact ⟨rfl, rfl⟩
    · rw [heq] at hr
      cases hr

/-! ### Sequences of messages -/

/-- Feeds message types to the read transition, as long as they are accepted. -/
def feed (restored : Bool) (s : Statem) : List MessageType → Option Statem
  | [] => some s
  | mt :: mts =>
    let r := s.client13ReadTransition restored mt
    if r.2 then r.1.feed restored mts else none

theorem feed_append (s : Statem) (us vs : List MessageType) :
    s.feed restored (us ++ vs) = (s.feed restored us).bind (·.feed restored vs) := by
  induction us generalizing s with
  | nil => rfl
  | cons mt us ih =>
    simp only [List.cons_append, feed]
    split
    · exact ih _
    · rfl

/-- The messages that lead from a state to `TLS_ST_CR_FINISHED`. -/
inductive Remaining (hit compress : Bool) : HandState → List MessageType → Prop
  | done : Remaining hit compress .crFinished []
  | read {h h' : HandState} {mt : MessageType} {mts : List MessageType} :
    Reads hit compress h mt h' → Remaining hit compress h' mts →
    Remaining hit compress h (mt :: mts)

theorem remaining_nil_iff : Remaining hit compress h [] ↔ h = .crFinished := by
  constructor
  · rintro ⟨⟩
    rfl
  · rintro rfl
    exact .done

theorem remaining_cons_iff : Remaining hit compress h (mt :: mts) ↔
    ∃ h', Reads hit compress h mt h' ∧ Remaining hit compress h' mts := by
  constructor
  · rintro (_ | ⟨hr, hrest⟩)
    exact ⟨_, hr, hrest⟩
  · rintro ⟨h', hr, hrest⟩
    exact .read hr hrest

theorem feed_iff_remaining (hok : s.handState ≠ .ok) :
    (∃ s', s.feed restored mts = some s' ∧ s'.handState = .crFinished) ↔
      Remaining s.hit s.compressCertificateSent s.handState mts := by
  induction mts generalizing s with
  | nil =>
    rw [remaining_nil_iff]
    exact ⟨fun ⟨_, heq, hs⟩ => Option.some.inj heq ▸ hs, fun hs => ⟨s, rfl, hs⟩⟩
  | cons mt mts ih =>
    rw [remaining_cons_iff]
    simp only [feed]
    constructor
    · intro hf
      rcases @client13ReadTransition_outcome s restored mt hok with heq | ⟨h, hr, heq⟩
      · rw [heq] at hf
        obtain ⟨s', ⟨⟩, -⟩ := hf
      · rw [heq] at hf
        exact ⟨h, hr, (@ih { s with handState := h } hr.ne.1).mp hf⟩
    · rintro ⟨h, hr, hrest⟩
      rw [hr.accept]
      exact (@ih { s with handState := h } hr.ne.1).mpr hrest

theorem remaining_cert_iff (hc : c.IsServerCert) :
    Remaining hit compress c mts ↔ mts = [.certificateVerify, .finished] := by
  constructor
  · intro hr
    have hv : ∃ mts', mts = .certificateVerify :: mts' ∧
        Remaining hit compress .crCertVrfy mts' := by
      rcases hc with rfl | rfl
      all_goals
        obtain _ | ⟨⟨⟩, hrest⟩ := hr
        exact ⟨_, rfl, hrest⟩
    obtain ⟨_, rfl, _ | ⟨⟨⟩, _ | ⟨⟨⟩, -⟩⟩⟩ := hv
    rfl
  · rintro rfl
    rcases hc with rfl | rfl
    · exact .read .verify (.read .finished .done)
    · exact .read .verifyCompressed (.read .finished .done)

/-- What is read after the ServerHello is the server's flight. -/
theorem remaining_iff_serverFlight :
    Remaining hit compress .crSrvrHello mts ↔ ServerFlight compress hit mts := by
  constructor
  · rintro (_ | ⟨⟨⟩, _ | ⟨hr, hrest⟩⟩)
    cases hr with
    | resumed hhit =>
      obtain _ | ⟨⟨⟩, -⟩ := hrest
      exact hhit ▸ .resumed
    | request hhit =>
      obtain _ | ⟨hr, hrest⟩ := hrest
      cases hr with
      | requestedCert hc =>
        rw [remaining_cert_iff hc.isServerCert] at hrest
        exact hhit ▸ hrest ▸ .requested hc
    | cert hhit hc =>
      rw [remaining_cert_iff hc.isServerCert] at hrest
      exact hhit ▸ hrest ▸ .full hc
  · rintro (_ | hc | hc)
    · exact .read .extensions (.read (.resumed rfl) .done)
    · exact .read .extensions (.read (.cert rfl hc)
        ((remaining_cert_iff hc.isServerCert).mpr rfl))
    · exact .read .extensions (.read (.request rfl) (.read (.requestedCert hc)
        ((remaining_cert_iff hc.isServerCert).mpr rfl)))

/-- Whatever is read can still lead to the end. -/
theorem Reads.remaining (hr : Reads hit compress h mt h') (hne : h ≠ .cwClntHello) :
    ∃ mts, Remaining hit compress h' mts := by
  cases hr with
  | serverHello => exact absurd rfl hne
  | extensions =>
    cases hit with
    | true => exact ⟨_, .read (.resumed rfl) .done⟩
    | false =>
      exact ⟨_, .read (.cert rfl .certificate) ((remaining_cert_iff (.inl rfl)).mpr rfl)⟩
  | request =>
    exact ⟨_, .read (.requestedCert .certificate) ((remaining_cert_iff (.inl rfl)).mpr rfl)⟩
  | cert _ hc | requestedCert hc => exact ⟨_, (remaining_cert_iff hc.isServerCert).mpr rfl⟩
  | verify | verifyCompressed => exact ⟨_, .read .finished .done⟩
  | resumed | finished => exact ⟨_, .done⟩

theorem feed_frame (hs : s.handState ≠ .ok ∧ s.handState ≠ .cwClntHello)
    (hf : s.feed restored mts = some s') :
    (s'.handState ≠ .ok ∧ s'.handState ≠ .cwClntHello)
      ∧ s'.hit = s.hit ∧ s'.compressCertificateSent = s.compressCertificateSent := by
  induction mts generalizing s with
  | nil =>
    cases hf
    exact ⟨hs, rfl, rfl⟩
  | cons mt mts ih =>
    rcases @client13ReadTransition_outcome s restored mt hs.1 with heq | ⟨h, hr, heq⟩
    · rw [feed, heq] at hf
      cases hf
    · rw [feed, heq] at hf
      exact @ih { s with handState := h } hr.ne hf

/-- A message that continues no flight of a server is rejected. -/
theorem client13ReadTransition_reject {us : List MessageType} (hs : s.handState = .crSrvrHello)
    (hf : s.feed restored us = some s')
    (hmt : ∀ vs, ¬ ServerFlight s.compressCertificateSent s.hit (us ++ mt :: vs)) :
    s'.client13ReadTransition restored mt = s'.reject := by
  have hne : s.handState ≠ .ok ∧ s.handState ≠ .cwClntHello := hs ▸ ⟨nofun, nofun⟩
  obtain ⟨hne', hhit, hcompress⟩ := feed_frame hne hf
  rcases @client13ReadTransition_outcome s' restored mt hne'.1 with heq | ⟨h, hr, -⟩
  · exact heq
  -- what is accepted can be completed to a flight
  obtain ⟨vs, hvs⟩ := hr.remaining hne'.2
  have hrest := (@feed_iff_remaining s' restored (mt :: vs) hne'.1).mpr (.read hr hvs)
  have hall : ∃ t, s.feed restored (us ++ mt :: vs) = some t ∧ t.handState = .crFinished := by
    rwa [feed_append, hf]
  rw [feed_iff_remaining hne.1, hs, remaining_iff_serverFlight] at hall
  exact absurd hall (hmt vs)

/-! ### Runs -/

/-- An unresumed handshake, from the ServerHello on, that has not read both the certificate of the
server and its CertificateVerify. -/
inductive Stage (ms : List HandState) : MsgFlow → HandState → Prop
  | error {h : HandState} : h ≠ .ok → Stage ms .error h
  | hello : Stage ms (.reading .header) .crSrvrHello
  | extensions {r : ReadState} : r ≠ .postProcess → Stage ms (.reading r) .crEncryptedExtensions
  | request {r : ReadState} : r ≠ .postProcess → Stage ms (.reading r) .crCertReq
  | cert {r : ReadState} {c : HandState} : c.IsServerCert → (r ≠ .body → c ∈ ms) →
    Stage ms (.reading r) c
  | verify {c : HandState} : c.IsServerCert → c ∈ ms → Stage ms (.reading .body) .crCertVrfy

/-- A TLS 1.3 client in its initial handshake, which resumes no session. -/
structure FullHandshake (s : Statem) : Prop where
  client : s.server = false
  dtls : s.dtls = false
  version : s.version = some .tls1_3
  hit : s.hit = false
  pha : s.postHandshakeAuth ≠ .requested

/-- A handshake on its way to the server's CertificateVerify; `ms` are the messages processed. -/
structure Unauthenticated (s : Statem) (ms : List HandState) : Prop extends FullHandshake s where
  stage : Stage ms s.flow s.handState

/-- The server's certificate and then its CertificateVerify have been processed. -/
def Authenticated (ms : List HandState) : Prop :=
  ∃ c : HandState, c.IsServerCert ∧ [c, .crCertVrfy].Sublist ms

theorem Stage.mono {ms' : List HandState} {f : MsgFlow} (hs : Stage ms f h) (hsub : ms ⊆ ms') :
    Stage ms' f h := by
  cases hs with
  | error hne => exact .error hne
  | hello => exact .hello
  | extensions hr => exact .extensions hr
  | request hr => exact .request hr
  | cert hc hm => exact .cert hc fun hr => hsub (hm hr)
  | verify hc hm => exact .verify hc (hsub hm)

theorem Stage.ne_ok {f : MsgFlow} (hs : Stage ms f h) : h ≠ .ok := by
  cases hs with
  | error hne => exact hne
  | hello | extensions | request | verify => nofun
  | cert hc => rcases hc with rfl | rfl <;> nofun

theorem FullHandshake.isTls13 (hc : FullHandshake s) : s.isTls13 = true := by
  simp [Statem.isTls13, hc.dtls, hc.version]

/-- A header is refused, or names a message that is read. -/
theorem readHeader_cases (hc : FullHandshake s) (hok : s.handState ≠ .ok) (sizeOk : Bool) :
    s.readHeader mt restored sizeOk = s.fatal ∨
    ∃ h, Reads s.hit s.compressCertificateSent s.handState mt h ∧
      (s.readHeader mt restored sizeOk = { s with handState := h }.fatal ∨
        s.readHeader mt restored sizeOk = { s with handState := h, flow := .reading .body }) := by
  have hread : s.readTransition restored mt
      = unexpected mt (s.client13ReadTransition restored mt) := by
    simp [readTransition, hc.client, clientReadTransition, hc.isTls13]
  rcases @client13ReadTransition_outcome s restored mt hok with heq | ⟨h, hr, heq⟩
  · simp [readHeader, hread, heq, unexpected, reject, hc.dtls]
  · refine .inr ⟨h, hr, ?_⟩
    cases sizeOk <;> simp [readHeader, hread, heq, unexpected, accept]

theorem Stage.header (hs : Stage ms (.reading .header) h) (hr : Reads false compress h mt h') :
    Stage ms (.reading .body) h' := by
  cases hs with
  | hello =>
    cases hr
    exact .extensions nofun
  | extensions =>
    cases hr with
    | resumed hhit => cases hhit
    | request => exact .request nofun
    | cert _ hc => exact .cert hc.isServerCert fun hne => absurd rfl hne
  | request =>
    cases hr with
    | requestedCert hc => exact .cert hc.isServerCert fun hne => absurd rfl hne
  | cert hc hm =>
    have hm := hm nofun
    rcases hc with rfl | rfl
    · cases hr
      exact .verify (.inl rfl) hm
    · cases hr
      exact .verify (.inr rfl) hm

/-- `SSL_SENT_SHUTDOWN` is clear when a CertificateRequest of the handshake is processed. -/
def NotShutDown (s : Statem) : StatemEvent → Prop
  | .body _ =>
    s.handState = .crCertReq → s.postHandshakeAuth ≠ .requested → s.sentShutdown = false
  | _ => True

instance NotShutDown.decidable (s : Statem) (e : StatemEvent) : Decidable (NotShutDown s e) :=
  match e with
  | .body _ => inferInstanceAs (Decidable (_ → _ → _))
  | .app _ | .call .. | .record _ | .writeDue _ | .keyUpdate _ | .renegotiate | .renegotiateCheck
  | .verifyClient | .header .. | .postProcess _ | .transition .. | .preWork .. | .send
  | .postWork _ => .isTrue trivial

section
variable (hu : Unauthenticated s ms)
include hu

theorem Unauthenticated.fatal : Unauthenticated s.fatal ms :=
  { hu with stage := .error hu.stage.ne_ok }

theorem Unauthenticated.mono {ms' : List HandState} (hsub : ms ⊆ ms') : Unauthenticated s ms' :=
  { hu with stage := hu.stage.mono hsub }

theorem Unauthenticated.frame (hf : Frame s s') : Unauthenticated s' ms where
  client := hf.server.trans hu.client
  dtls := hf.dtls.trans hu.dtls
  version := hf.settled ▸ hu.version
  hit := hf.settled ▸ hu.hit
  pha := hf.settled ▸ hu.pha
  stage := hf.flow ▸ hf.handState ▸ hu.stage

theorem Unauthenticated.readHeader (hf : s.flow = .reading .header)
    (sizeOk : Bool) : Unauthenticated (s.readHeader mt restored sizeOk) ms := by
  rcases @readHeader_cases s restored mt hu.toFullHandshake hu.stage.ne_ok sizeOk with
    heq | ⟨h, hr, heq | heq⟩
  · exact heq ▸ hu.fatal
  · exact heq ▸ { hu with stage := .error hr.ne.1 }
  · have hs := hf ▸ hu.stage
    exact heq ▸ { hu with stage := hs.header (hu.hit ▸ hr) }

theorem Unauthenticated.readBody_invalid (hf : s.flow = .reading .body)
    {b : Body} (hP : NotShutDown s (.body b)) (hv : b.valid = false) :
    s.readBody b = s.fatal.fatal := by
  have hproc : s.processMessage b = s.processError := by
    have hs := hf ▸ hu.stage
    generalize hh : s.handState = h at hs
    simp only [processMessage, hu.client, clientProcessMessage, hh]
    cases hs with
    | extensions => simp [hv]
    | request => simp [tlsProcessCertificateRequest, hP hh hu.pha, hv]
    | cert hc => rcases hc with rfl | rfl <;> simp [hv]
    | verify => simp [tlsProcessCertVerify, hv]
  rw [Statem.readBody, hproc]
  rfl

/-- A body: the message is refused, or processed as the stage wants it. -/
theorem Unauthenticated.readBody (hf : s.flow = .reading .body)
    {b : Body} (hP : NotShutDown s (.body b)) :
    Unauthenticated (s.readBody b) (ms ++ (s.processed (.body b)).toList) ∨
      Authenticated (ms ++ (s.processed (.body b)).toList) := by
  have hsub : ms ⊆ ms ++ (s.processed (.body b)).toList := List.subset_append_left ..
  cases hv : b.valid with
  | false =>
    rw [hu.readBody_invalid hf hP hv]
    exact .inl (hu.fatal.fatal.mono hsub)
  | true =>
    have hs := hf ▸ hu.stage
    generalize hh : s.handState = h at hs
    cases hs with
    | extensions =>
      have hproc : s.processMessage b = ({ s with
          earlyData := b.settled.earlyData
          clientCertX509 := b.settled.clientCertX509
          serverCertX509 := b.settled.serverCertX509 }, .continueReading) := by
        simp [processMessage, hu.client, clientProcessMessage, hh, hv]
      have hu' : Unauthenticated (s.readBody b) ms := by
        rw [Statem.readBody, hproc]
        exact { hu with stage := by exact hh ▸ .extensions (by rintro ⟨⟩) }
      exact .inl (hu'.mono hsub)
    | request =>
      have hproc : s.processMessage b = ({ s with certReq := .cert }, .continueReading) := by
        have hreq : s.processMessage b = s.tlsProcessCertificateRequest b := by
          simp [processMessage, hu.client, clientProcessMessage, hh]
        rw [hreq, tlsProcessCertificateRequest, if_neg (by simp [hP hh hu.pha]),
          if_neg (by simp [hv])]
        exact if_pos ⟨hu.isTls13, hu.pha⟩
      have hu' : Unauthenticated (s.readBody b) ms := by
        rw [Statem.readBody, hproc]
        exact { hu with stage := by exact hh ▸ .request (by rintro ⟨⟩) }
      exact .inl (hu'.mono hsub)
    | cert hc =>
      have hproc : s.processMessage b = (s, .continueProcessing) := by
        rcases hc with rfl | rfl <;>
          simp [processMessage, hu.client, clientProcessMessage, hh, hv]
      left
      rw [processed_body hf hproc (by rintro ⟨⟩), Statem.readBody, hproc]
      exact { hu with stage := by exact hh ▸ .cert hc fun _ => by simp }
    | verify hc hm =>
      have hproc : ∃ ret, s.processMessage b = (s, ret) ∧ ret ≠ .error := by
        have hver : s.processMessage b = s.tlsProcessCertVerify b := by
          simp [processMessage, hu.client, clientProcessMessage, hh]
        rw [hver, tlsProcessCertVerify, if_neg (by simp [hv])]
        split <;> exact ⟨_, rfl, by rintro ⟨⟩⟩
      obtain ⟨ret, hproc, hret⟩ := hproc
      right
      rw [processed_body hf hproc hret, hh]
      exact ⟨_, hc, (List.singleton_sublist.mpr hm).append (.refl _)⟩

theorem Unauthenticated.readPostProcess (hf : s.flow = .reading .postProcess) (w : Work) :
    Unauthenticated (s.readPostProcess w) ms := by
  have hs := hf ▸ hu.stage
  generalize hh : s.handState = h at hs
  cases hs with
  | extensions hr | request hr => exact absurd rfl hr
  | cert hc hm =>
    have hpost : s.postProcessMessage w = s.flushed w := by
      rcases hc with rfl | rfl <;>
        simp [postProcessMessage, hu.client, clientPostProcessMessage, hh]
    rw [Statem.readPostProcess, hpost]
    cases w with
    | fail => exact hu.fatal.fatal
    | retry => exact hu
    | done hasCert => exact { hu with stage := by exact hh ▸ .cert hc fun _ => hm nofun }

/-- No step of a handshake gets past the server's CertificateVerify without it. -/
theorem Unauthenticated.step {e : StatemEvent} (hP : NotShutDown s e) :
    Unauthenticated (s.step e).1 (ms ++ (s.processed e).toList) ∨
      Authenticated (ms ++ (s.processed e).toList) := by
  have hsub : ms ⊆ ms ++ (s.processed e).toList := List.subset_append_left ..
  have hcases := step_cases s e
  generalize (s.step e).1 = s' at hcases
  have hs := hu.stage
  cases hcases with
  | frame hf => exact .inl ((hu.frame hf).mono hsub)
  | enter _ _ hf => rcases hf with hf | hf <;> rw [hf] at hs <;> cases hs
  | verifyClient _ hserver => cases hu.client.symm.trans hserver
  | header hf => exact .inl ((hu.readHeader hf _).mono hsub)
  | body hf => exact hu.readBody hf hP
  | postProcess hf => exact .inl ((hu.readPostProcess hf _).mono hsub)
  | transition hf | preWork hf | send hf | postWork hf =>
    rw [hf] at hs
    cases hs

end

theorem Unauthenticated.run {es : List StatemEvent} (hu : Unauthenticated s [])
    (hP : Run.Along observe NotShutDown s es) :
    Unauthenticated (Run.run observe s es).1 (messages (Run.run observe s es).2) ∨
      Authenticated (messages (Run.run observe s es).2) := by
  refine Run.run_along (fun s log => Unauthenticated s (messages log) ∨
    Authenticated (messages log)) NotShutDown ?_ hP (.inl hu)
  rintro s log e hP (hu | ⟨c, hc, hsub⟩)
  · rw [messages_concat]
    exact hu.step hP
  · rw [messages_concat]
    exact .inr ⟨c, hc, hsub.trans (List.sublist_append_left ..)⟩

/-- In any state, also after the handshake, the machine stops at a message that is not accepted. -/
theorem readHeader_rejected (hc : s.server = false) (h13 : s.isTls13 = true)
    (hr : (s.client13ReadTransition restored mt).2 = false) (sizeOk : Bool) :
    (s.readHeader mt restored sizeOk).handState = s.handState
      ∧ (s.readHeader mt restored sizeOk).flow = .error := by
  obtain ⟨hhand, hdtls⟩ := client13ReadTransition_rejected hr
  have hstream : s.dtls = false := by
    rw [isTls13, Bool.and_eq_true, Bool.not_eq_true'] at h13
    exact h13.1
  have hread : s.readTransition restored mt
      = ((s.client13ReadTransition restored mt).1.fatal, false) := by
    simp [readTransition, hc, clientReadTransition, h13, unexpected, hr, hdtls, hstream]
  rw [Statem.readHeader, hread]
  exact ⟨hhand, rfl⟩

end Statem

/-- The body of a message that is accepted and, in a ServerHello, settles TLS 1.3. -/
def Body.tls13 : Body where
  valid := true
  isHelloRetryRequest := false
  settled := { Settled.unsettled with version := some .tls1_3 }
  hasCookie := false
  hasCert := true
  certKeyUsed := false
  updateRequested := false

/-- A new client after it has sent its hello and processed the ServerHello. -/
def Statem.helloDone : Statem :=
  (Run.run Statem.observe (Statem.sslNew false false false .sslCtxNew)
    [.call none true, .transition false true, .preWork (.done false) true true, .send,
      .postWork (.done false), .transition false true, .header .serverHello true true,
      .body .tls13]).1

open Statem

/-- After the ServerHello the TLS 1.3 client reads exactly the flights of a server, rejects every
message that continues none of them, and is not in `TLS_ST_OK` after an unresumed handshake unless
it has processed the server's certificate and its CertificateVerify, provided that the application
has not set `SSL_SENT_SHUTDOWN` when a CertificateRequest is processed. -/
theorem client13_grammar (s : Statem) :
    (∀ (restored : Bool) (mts : List MessageType), s.handState = .crSrvrHello →
      ((∃ s', s.feed restored mts = some s' ∧ s'.handState = .crFinished) ↔
        ServerFlight s.compressCertificateSent s.hit mts)) ∧
    (∀ (s' : Statem) (restored : Bool) (us : List MessageType) (mt : MessageType),
      s.handState = .crSrvrHello → s.feed restored us = some s' →
      (∀ vs, ¬ ServerFlight s.compressCertificateSent s.hit (us ++ mt :: vs)) →
      s'.client13ReadTransition restored mt = (s', false)) ∧
    (∀ (restored sizeOk : Bool) (mt : MessageType),
      s.server = false → s.isTls13 = true → (s.client13ReadTransition restored mt).2 = false →
      (s.client13ReadTransition restored mt).1.handState = s.handState
        ∧ (s.readHeader mt restored sizeOk).handState = s.handState
        ∧ (s.readHeader mt restored sizeOk).flow = .error) ∧
    (∀ es : List StatemEvent, FullHandshake s →
      s.flow = .reading .header → s.handState = .crSrvrHello →
      Run.Along observe NotShutDown s es →
      let r := Run.run observe s es
      r.1.handState = .ok → Authenticated (messages r.2)) := by
  refine ⟨?_, ?_, ?_, ?_⟩
  · intro restored mts hs
    rw [feed_iff_remaining (hs ▸ nofun), hs, remaining_iff_serverFlight]
  · intro s' restored us mt hs hf hmt
    exact client13ReadTransition_reject hs hf hmt
  · intro restored sizeOk mt hc h13 hr
    exact ⟨(client13ReadTransition_rejected hr).1, readHeader_rejected hc h13 hr sizeOk⟩
  · intro es hc hf hs hP r hok
    have hu : Unauthenticated s [] := { hc with stage := hf ▸ hs ▸ .hello }
    exact (hu.run hP).resolve_left fun hu => hu.stage.ne_ok hok

/-- A handshake with a certificate request, from the ServerHello to `TLS_ST_OK`. -/
theorem client13_grammar_requested :
    let mts : List MessageType :=
      [.encryptedExtensions, .certificateRequest, .certificate, .certificateVerify, .finished]
    let es : List StatemEvent :=
      [.header .encryptedExtensions true true, .body .tls13,
        .header .certificateRequest true true, .body .tls13,
        .header .certificate true true, .body .tls13, .postProcess (.done true),
        .header .certificateVerify true true, .body .tls13, .postProcess (.done false),
        .header .finished true true, .body .tls13,
        .transition false true, .preWork (.done true) true true, .send, .postWork (.done true),
        .transition false true, .preWork (.done true) true true, .send, .postWork (.done true),
        .transition false true, .preWork (.done true) true true, .send, .postWork (.done true),
        .transition false true, .preWork (.done true) true true]
    (∃ s', helloDone.feed true mts = some s' ∧ s'.handState = .crFinished) ∧
      helloDone.client13ReadTransition true .finished = (helloDone, false) ∧
      (helloDone.readHeader .finished true true).flow = .error ∧
      (Run.run observe helloDone es).1.handState = .ok ∧
      Authenticated (messages (Run.run observe helloDone es).2) := by
  intro mts es
  obtain ⟨hflight, hreject, hstop, hrun⟩ := client13_grammar helloDone
  have hnone : ∀ vs, ¬ ServerFlight false false ([] ++ .finished :: vs) := by
    rintro vs ⟨⟩
  have hshut : Run.Along observe NotShutDown helloDone es := by decide
  exact ⟨(hflight true mts rfl).mpr (.requested .certificate),
    hreject helloDone true [] .finished rfl rfl hnone,
    (hstop true true .finished rfl rfl rfl).2.2, rfl,
    hrun es ⟨rfl, rfl, rfl, rfl, nofun⟩ rfl rfl hshut rfl⟩

/-- A client that has set `SSL_SENT_SHUTDOWN` takes a CertificateRequest of the handshake for one
after the handshake, and is in `TLS_ST_OK` without having seen a certificate. -/
theorem client13_shutdown :
    FullHandshake helloDone ∧ helloDone.flow = .reading .header
      ∧ helloDone.handState = .crSrvrHello ∧
    (let r := Run.run observe helloDone
      [.app { AppState.sslCtxNew with sentShutdown := true },
        .header .encryptedExtensions true true, .body .tls13,
        .header .certificateRequest true true, .body .tls13,
        .transition false true, .preWork (.done false) true true]
    r.1.handState = .ok ∧ r.1.inInit = false
      ∧ messages r.2 = [.crEncryptedExtensions, .crCertReq]
      ∧ ¬ Authenticated (messages r.2)) := by
  refine ⟨⟨rfl, rfl, rfl, rfl, nofun⟩, rfl, rfl, rfl, rfl, rfl, ?_⟩
  rintro ⟨c, hc, hsub⟩
  have hmem : HandState.crCertVrfy ∈ [HandState.crEncryptedExtensions, .crCertReq] :=
    hsub.subset (by simp)
  simp at hmem

end QuicTls
