import QuicTls.Verify.Handshake12.Parties

/-!
# The client's part of a handshake

What an honest client sends and receives, from the ClientHello to `TLS_ST_OK`.
-/

namespace QuicTls

open Network Statem

namespace Negotiated

variable {p : Negotiated} {s : Statem} {mt : MessageType}

/-- What only concerns the client, with the certificate request it has processed. -/
structure ClientKeeps (request : CertReq) (s : Statem) : Prop where
  noRetry : s.helloRetryRequest = .none
  noPostHandshake : s.postHandshakeAuth ≠ .requested
  noEarlyData : s.earlyDataState = .none
  skipCertVerify : s.skipCertVerify = false
  certReq : s.certReq = request

theorem stable_clientKeeps {request : CertReq} : Stable (ClientKeeps request) :=
  fun _ _ _ _ _ _ _ hk => { hk with }

/-- A client in a state of the handshake. -/
abbrev ClientAt (p : Negotiated) (s : Statem) (h : HandState) (f : MsgFlow) (request : CertReq) :
    Prop :=
  At p (ClientKeeps request) false s h f

variable {h h' : HandState} {f : MsgFlow} {request : CertReq}

theorem At.processes_client (hs : ClientAt p s h f request) (b : Body) :
    s.processMessage b = s.clientProcessMessage b := by
  simp [Statem.processMessage, hs.server]

/-- The messages that the client reads before it goes on to the next one. -/
def clientReads : HandState → Bool
  | .crCertStatus | .crKeyExch | .crSessionTicket => true
  | _ => false

/-- What the client answers to a certificate request. -/
def answer (p : Negotiated) : CertReq := if p.hasCert then .cert else .empty

theorem At.prepareClientCertificate (hs : ClientAt p s h f .cert) :
    ∃ s', s.tlsPrepareClientCertificate (.done p.hasCert) = (s', .finishedContinue) ∧
      ClientAt p s' h f p.answer := by
  let s₁ := if p.hasCert then s else
    { s with certReq := .empty, compressCertificateFromPeer := [] }
  let s₂ := if !s₁.isTls13 ∨ s₁.noTxCertificateCompression then
    { s₁ with compressCertificateFromPeer := [] } else s₁
  have hs₁ : ClientAt p s₁ h f p.answer := by
    unfold s₁ answer
    split
    · exact hs
    · exact { hs with kept := { hs.kept with certReq := rfl }, stable := stable_clientKeeps }
  have hs₂ : ClientAt p s₂ h f p.answer := by
    unfold s₂
    split
    · exact { hs₁ with kept := { hs₁.kept with } }
    · exact hs₁
  refine ⟨s₂, (if_neg (by simp [hs.isSsl3])).trans ?_, hs₂⟩
  exact congrArg (s₂, ·) (if_neg hs₂.kept.noPostHandshake)

section

variable (hs : ClientAt p s h (.reading .header) request)
include hs

theorem At.reads (hr : s.client12ReadTransition mt = s.accept h') (hh : clientReads h' = true) :
    p.Reads s [mt] (ClientAt p · h' (.reading .header) request) := by
  have hproc : ∀ {t : Statem}, ClientAt p t h' (.reading .body) request →
      t.processMessage p.body = (t, .continueReading) := by
    intro t ht
    have hth := ht.handState
    rw [ht.processes_client]
    unfold clientReads at hh
    split at hh <;> simp_all [clientProcessMessage, body, ht.isTls13]
  exact ⟨_, absorbs_continue hs.flow (hs.readTransition hr) (hproc (hs.moved h' (.reading .body))),
    hs.changed⟩

/-- The client reads the certificate and checks it afterwards. -/
theorem At.reads_cert (hr : s.client12ReadTransition .certificate = s.accept .crCert) :
    p.Reads s [.certificate] (ClientAt p · .crCert (.reading .header) request) := by
  have ht := hs.moved .crCert (.reading .body)
  have ht' := hs.moved .crCert (.reading .postProcess)
  have hproc : ∀ {t : Statem}, ClientAt p t .crCert (.reading .body) request →
      t.processMessage p.body = (t, .continueProcessing) := by
    intro t ht
    simp [ht.processes_client, clientProcessMessage, ht.handState, body]
  have hpost : ∀ {t : Statem}, ClientAt p t .crCert (.reading .postProcess) request →
      t.postProcessMessage (.done p.hasCert) = (t, .finishedContinue) := by
    intro t ht
    simp [postProcessMessage, ht.server, clientPostProcessMessage, ht.handState, flushed]
  have hread := absorbs_postProcess hs.flow (hs.readTransition hr) (hproc ht)
  have hwork := absorbs_work ht'.flow (hpost ht')
  exact ⟨_, hread.trans hwork, hs.changed⟩

/-- The client reads a request and prepares its answer. -/
theorem At.reads_certRequest
    (hr : s.client12ReadTransition .certificateRequest = s.accept .crCertReq) :
    p.Reads s [.certificateRequest] (ClientAt p · .crCertReq (.reading .header) p.answer) := by
  let t : Statem := { s with
    handState := .crCertReq, flow := .reading .postProcess, certReq := .cert }
  have ht : ClientAt p t .crCertReq (.reading .postProcess) .cert :=
    { hs.moved .crCertReq (.reading .postProcess) with
      stable := stable_clientKeeps, kept := { hs.kept with certReq := rfl } }
  have hproc : { s with handState := .crCertReq, flow := .reading .body }.processMessage p.body
      = ({ t with flow := .reading .body }, .continueProcessing) := by
    have ht' := hs.moved .crCertReq (.reading .body)
    rw [ht'.processes_client]
    exact (if_neg (by simp [ht'.isTls13])).trans
      ((if_neg nofun).trans (if_neg fun h13 => by cases hs.isTls13.symm.trans h13.1))
  obtain ⟨u, hprep, hu⟩ := ht.prepareClientCertificate
  have hpost : t.postProcessMessage (.done p.hasCert) = (u, .finishedContinue) := by
    rw [postProcessMessage, if_neg (by simp [ht.server]), ← hprep]
    rfl
  have hread := absorbs_postProcess hs.flow (hs.readTransition hr) hproc
  have hwork := absorbs_work ht.flow hpost
  exact ⟨_, hread.trans hwork, hu.flowing _⟩

theorem At.reads_done (hr : s.client12ReadTransition .serverDone = s.accept .crSrvrDone) :
    p.Reads s [.serverDone] (ClientAt p · .crSrvrDone (.writing .transition) request) := by
  have hproc : ∀ {t : Statem}, ClientAt p t .crSrvrDone (.reading .body) request →
      t.processMessage p.body = (t, .finishedReading) := by
    intro t ht
    simp [ht.processes_client, clientProcessMessage, ht.handState, body]
  exact ⟨_, absorbs_last hs.flow (hs.readTransition hr)
    (hproc (hs.moved .crSrvrDone (.reading .body))), hs.changed⟩

end

/-- The client starts with a ClientHello and reads the ServerHello. -/
theorem client_clientHello (p : Negotiated) : p.Sends p.start.left [.clientHello]
    (p.Reads · [.serverHello] (ClientAt p · .crSrvrHello (.reading .header) .none)) := by
  let s₁ : Statem := { sslNew false false false { p.client with sentShutdown := false } with
    flow := .writing .transition }
  have h₁ : p.act p.start.left = .silent s₁ := rfl
  have h₂ := @emits_write p s₁ { s₁ with handState := .cwClntHello }
    { s₁ with handState := .cwClntHello, flow := .writing .preWork }
    { s₁ with handState := .cwClntHello, flow := .writing .preWork }
    { s₁ with handState := .cwClntHello, flow := .writing .postWork } .clientHello
    rfl rfl rfl rfl rfl
  let s₂ : Statem := { s₁ with handState := .cwClntHello }
  have hwait : s₂.writeTransition false true = (s₂, .finished) := by
    simp [s₂, s₁, writeTransition, clientWriteTransition,
      client12WriteTransition, sslNew, isTls13, Settled.unsettled,
      p.noEarlyData]
  have h₃ := emits_wait (p := p) rfl hwait
  have h₄ := @absorbs_continue p { s₂ with flow := .reading .header }
    { s₂ with handState := .crSrvrHello, flow := .reading .header }
    { s₂ with handState := .crSrvrHello, flow := .reading .body, toSettled := p.settled }
    .serverHello rfl rfl rfl
  exact ⟨_, .silent h₁ (h₂.trans h₃), _, h₄, ⟨rfl, rfl, rfl, rfl, rfl, rfl⟩, stable_clientKeeps,
    rfl, rfl, rfl, p.noRetry, p.noPostHandshake, p.noEarlyData, rfl, rfl⟩

/-- The certificate request that the client has processed at the end of the server's flight. -/
def requested (p : Negotiated) : CertReq := if p.asksCert then p.answer else .none

theorem At.keyExchangeExpected (hs : ClientAt p s h f request) :
    s.keyExchangeExpected = true ↔ p.settled.newCipher.algorithmMkey
      &&& (sslkDHE ||| sslkECDHE ||| sslkDHEPSK ||| sslkECDHEPSK) ≠ 0 := by
  rw [Statem.keyExchangeExpected, hs.newCipher, bne_iff_ne]

theorem At.certReqAllowed (hs : ClientAt p s h f request) (hask : p.asksCert = true) :
    s.certReqAllowed = true := by
  obtain ⟨hnull, hpsk⟩ := allowed_of_asksCert p hask
  simp [Statem.certReqAllowed, hs.newCipher, hnull, hpsk]

theorem At.reads_afterKeyExch (hs : ClientAt p s h (.reading .header) .none)
    (hreq : s.client12ReadTransition .certificateRequest
      = s.readAfterKeyExch .certificateRequest)
    (hdone : s.client12ReadTransition .serverDone = s.readAfterKeyExch .serverDone) :
    p.Reads s (optional p.asksCert .certificateRequest ++ [.serverDone])
      (ClientAt p · .crSrvrDone (.writing .transition) p.requested) := by
  rw [requested]
  cases hask : p.asksCert with
  | false => exact hs.reads_done hdone
  | true =>
    have hr : s.client12ReadTransition .certificateRequest = s.accept .crCertReq :=
      hreq.trans ((if_pos rfl).trans (if_pos (hs.certReqAllowed hask)))
    refine (hs.reads_certRequest hr).followed fun s₁ hs₁ => hs₁.reads_done ?_
    rw [client12ReadTransition, hs₁.handState]
    rfl

/-- What the client reads from the key exchange on. -/
theorem At.reads_afterCert (hs : ClientAt p s h (.reading .header) .none)
    (hr : ∀ mt : MessageType, mt ≠ .changeCipherSpec → mt ≠ .certificateStatus →
      s.client12ReadTransition mt = s.readAfterCertStatus mt) :
    p.Reads s p.keyFlight (ClientAt p · .crSrvrDone (.writing .transition) p.requested) := by
  rw [keyFlight]
  cases hkey : p.sendsKeyExch with
  | true =>
    have hexp : s.keyExchangeExpected = true ∨
        (s.newCipher.algorithmMkey &&& sslPSK ≠ 0 ∧ MessageType.serverKeyExchange
          = .serverKeyExchange) := by
      rw [hs.keyExchangeExpected, hs.newCipher]
      exact (allowed_of_sendsKeyExch p hkey).imp_right (⟨·, rfl⟩)
    have hr₁ : s.client12ReadTransition .serverKeyExchange = s.accept .crKeyExch :=
      (hr .serverKeyExchange (by decide) (by decide)).trans ((if_pos hexp).trans (if_pos rfl))
    refine (hs.reads hr₁ rfl).followed fun s₁ hs₁ => hs₁.reads_afterKeyExch ?_ ?_
    all_goals rw [client12ReadTransition, hs₁.handState]
  | false =>
    have hexp : ∀ mt : MessageType, mt ≠ .serverKeyExchange → ¬ (s.keyExchangeExpected = true ∨
        (s.newCipher.algorithmMkey &&& sslPSK ≠ 0 ∧ mt = .serverKeyExchange)) := by
      rintro mt hne (he | ⟨-, heq⟩)
      · rw [hs.keyExchangeExpected] at he
        exact he (not_expected_of_sendsKeyExch p hkey)
      · exact hne heq
    exact hs.reads_afterKeyExch
      ((hr .certificateRequest (by decide) (by decide)).trans (if_neg (hexp _ (by decide))))
      ((hr .serverDone (by decide) (by decide)).trans (if_neg (hexp _ (by decide))))

/-- Without a certificate of the server, the client reads on as it does after one. -/
theorem At.readAfterSrvrHello (hs : ClientAt p s h f request) (hhit : p.settled.hit = false)
    (hcert : p.sendsCert = false) (hmt : mt ≠ .changeCipherSpec) :
    s.readAfterSrvrHello mt = s.readAfterCertStatus mt := by
  have hauth : ¬ s.newCipher.algorithmAuth &&& (sslaNULL ||| sslaPSK) = 0 := by
    rw [hs.newCipher]
    simpa [sendsCert] using hcert
  rw [Statem.readAfterSrvrHello, if_neg (by simp [hs.hit, hhit]), if_neg (by simp [hs.dtls]),
    if_neg fun hccs => hmt hccs.2.2.2, if_neg hauth, readAfterCertStatus]
  by_cases hreq : mt = .certificateRequest
  · subst hreq
    by_cases hallowed : s.certReqAllowed = true <;> simp [readAfterKeyExch]
  · simp [readAfterKeyExch, readAfterCertReq, hreq]

/-- What follows the ServerHello in a full handshake. -/
theorem At.reads_afterHello (hs : ClientAt p s .crSrvrHello (.reading .header) .none)
    (hhit : p.settled.hit = false) :
    p.Reads s (optional p.sendsCert .certificate
        ++ (optional (p.sendsCert && p.settled.statusExpected) .certificateStatus
          ++ p.keyFlight))
      (ClientAt p · .crSrvrDone (.writing .transition) p.requested) := by
  cases hcert : p.sendsCert with
  | false =>
    refine hs.reads_afterCert fun mt hccs _ => ?_
    rw [client12ReadTransition, hs.handState]
    exact hs.readAfterSrvrHello hhit hcert hccs
  | true =>
    have hauth : s.newCipher.algorithmAuth &&& (sslaNULL ||| sslaPSK) = 0 := by
      rw [hs.newCipher]
      simpa [sendsCert] using hcert
    have hr : s.client12ReadTransition .certificate = s.accept .crCert := by
      simp [client12ReadTransition, hs.handState, Statem.readAfterSrvrHello, hs.hit, hhit, hauth]
    refine (hs.reads_cert hr).followed fun s₁ hs₁ => ?_
    cases hstatus : p.settled.statusExpected with
    | false =>
      refine hs₁.reads_afterCert fun mt _ hne => ?_
      rw [client12ReadTransition, hs₁.handState]
      exact if_neg fun hst => hne hst.2
    | true =>
      have hr₁ : s₁.client12ReadTransition .certificateStatus = s₁.accept .crCertStatus := by
        simp [client12ReadTransition, hs₁.handState, readAfterCert, hs₁.statusExpected, hstatus]
      refine (hs₁.reads hr₁ rfl).followed fun s₂ hs₂ =>
        hs₂.reads_afterCert fun mt _ _ => ?_
      rw [client12ReadTransition, hs₂.handState]

theorem At.sends_change (hs : ClientAt p s h (.writing .transition) request)
    (htr : s.client12WriteTransition false true = s.moveTo .cwChange) :
    p.Sends s [.changeCipherSpec, .finished]
      (ClientAt p · .cwFinished (.writing .transition) request) := by
  refine (hs.sends htr rfl).followed fun s₁ hs₁ => hs₁.sends_finished ?_
  simp [client12WriteTransition, hs₁.handState, hs₁.kept.noRetry, hs₁.kept.noEarlyData]

/-- What the client sends from its key exchange on. -/
theorem At.sends_keyExch (hs : ClientAt p s h (.writing .transition) p.requested)
    (htr : s.client12WriteTransition false true = s.moveTo .cwKeyExch) :
    p.Sends s ([.clientKeyExchange]
        ++ (optional (p.asksCert && p.hasCert) .certificateVerify
          ++ [.changeCipherSpec, .finished]))
      (ClientAt p · .cwFinished (.writing .transition) p.requested) := by
  have hreq : p.requested = .cert ↔ (p.asksCert && p.hasCert) = true := by
    rw [requested, answer]
    cases p.asksCert <;> cases p.hasCert <;> decide
  refine (hs.sends htr rfl).followed fun s₁ hs₁ => ?_
  cases hver : p.asksCert && p.hasCert with
  | true =>
    have htr₁ : s₁.client12WriteTransition false true = s₁.moveTo .cwCertVrfy := by
      simp [client12WriteTransition, hs₁.handState, hs₁.kept.certReq, hreq.mpr hver,
        hs₁.kept.skipCertVerify]
    refine (hs₁.sends htr₁ rfl).followed fun s₂ hs₂ => hs₂.sends_change ?_
    simp [client12WriteTransition, hs₂.handState]
  | false =>
    have hne : p.requested ≠ .cert := fun heq => by simp [hreq.mp heq] at hver
    refine hs₁.sends_change ?_
    simp [client12WriteTransition, hs₁.handState, hs₁.kept.certReq, hne]

/-- The whole second flight of the client. -/
theorem At.sends_flight (hs : ClientAt p s .crSrvrDone (.writing .transition) p.requested) :
    p.Sends s p.clientFlight (ClientAt p · .cwFinished (.writing .transition) p.requested) := by
  have hreq : p.requested = .none ↔ p.asksCert = false := by
    rw [requested, answer]
    cases p.asksCert <;> cases p.hasCert <;> decide
  rw [clientFlight]
  cases hask : p.asksCert with
  | false =>
    have htr : s.client12WriteTransition false true = s.moveTo .cwKeyExch := by
      simp [client12WriteTransition, hs.handState, hs.kept.certReq, hreq.mpr hask]
    have hkey := hs.sends_keyExch htr
    rwa [hask] at hkey
  | true =>
    have hne : p.requested ≠ .none := fun heq => by simp [hreq.mp heq] at hask
    have htr : s.client12WriteTransition false true = s.moveTo .cwCert := by
      simp [client12WriteTransition, hs.handState, hs.kept.certReq, hne]
    refine (hs.sends htr rfl).followed fun s₁ hs₁ => ?_
    have hkey := hs₁.sends_keyExch (by simp [client12WriteTransition, hs₁.handState])
    rwa [hask] at hkey

theorem At.reads_ticketFlight (hs : ClientAt p s h (.reading .header) request)
    (hr : ∀ mt : MessageType, s.client12ReadTransition mt =
      if p.settled.ticketExpected then
        if mt = .newsessionTicket then s.accept .crSessionTicket else s.reject
      else if mt = .changeCipherSpec then s.accept .crChange
      else s.reject) :
    p.Reads s p.ticketFlight (ClientAt p · .crFinished (.writing .transition) request) := by
  rw [ticketFlight]
  cases hticket : p.settled.ticketExpected with
  | false =>
    refine hs.reads_finished ?_
    simp [hr, hticket]
  | true =>
    have hr₁ : s.client12ReadTransition .newsessionTicket = s.accept .crSessionTicket := by
      simp [hr, hticket]
    refine (hs.reads hr₁ rfl).followed fun s₁ hs₁ => hs₁.reads_finished ?_
    simp [client12ReadTransition, hs₁.handState]

/-- The client's part of a full handshake. -/
theorem client_full (hhit : p.settled.hit = false) : Plays p.act Done true p.start.left
    [[.clientHello], p.serverFlight, p.clientFlight, p.ticketFlight] := by
  obtain ⟨s₁, h₁, s₂, h₂, hs₂⟩ := p.client_clientHello
  obtain ⟨s₃, h₃, hs₃⟩ := hs₂.reads_afterHello hhit
  obtain ⟨s₄, h₄, hs₄⟩ := hs₃.sends_flight
  obtain ⟨s₅, h₅, hs₅⟩ := hs₄.sends_nothing (by
    simp [client12WriteTransition, hs₄.handState, hs₄.hit, hhit])
  obtain ⟨s₆, h₆, hs₆⟩ := hs₅.reads_ticketFlight fun mt => by
    rw [client12ReadTransition, hs₅.handState, ← hs₅.ticketExpected]
  obtain ⟨s₇, h₇, hdone⟩ := hs₆.sends_ok (by
    simp [client12WriteTransition, hs₆.handState, hs₆.hit, hhit])
  have h₄₅ := h₄.trans h₅
  have h₆₇ := h₆.trans (h₇.quiet false)
  rw [List.append_nil] at h₄₅ h₆₇
  exact ⟨s₁, h₁, s₃, h₂.trans h₃, s₅, h₄₅, s₇, h₆₇, hdone⟩

/-- The client's part of a resumed handshake. -/
theorem client_resumed (hhit : p.settled.hit = true) : Plays p.act Done true p.start.left
    [[.clientHello], .serverHello :: p.ticketFlight, [.changeCipherSpec, .finished]] := by
  obtain ⟨s₁, h₁, s₂, h₂, hs₂⟩ := p.client_clientHello
  obtain ⟨s₃, h₃, hs₃⟩ := hs₂.reads_ticketFlight fun mt => by
    rw [client12ReadTransition, hs₂.handState, ← hs₂.ticketExpected]
    exact if_pos (hs₂.hit.trans hhit)
  obtain ⟨s₄, h₄, hs₄⟩ := hs₃.sends_change (by
    simp [client12WriteTransition, hs₃.handState, hs₃.hit, hhit])
  obtain ⟨s₅, h₅, hdone⟩ := hs₄.sends_ok (by
    simp [client12WriteTransition, hs₄.handState, hs₄.hit, hhit])
  exact ⟨s₁, h₁, s₃, h₂.trans h₃, s₅, h₄.trans h₅, hdone⟩

end Negotiated
end QuicTls
