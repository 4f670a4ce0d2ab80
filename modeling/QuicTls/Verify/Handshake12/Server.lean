import QuicTls.Verify.Handshake12.Parties

/-!
# The server's part of a handshake

What an honest server sends and receives, from the ClientHello to `TLS_ST_OK`.
-/

namespace QuicTls

open Network Statem

namespace Negotiated

variable {p : Negotiated} {s : Statem}

/-- What only concerns the server; `asked` says that it has asked for a certificate, `peer` that it
has received one. -/
structure ServerKeeps (p : Negotiated) (asked peer : Bool) (s : Statem) : Prop where
  verifyMode : s.verifyMode = p.server.verifyMode
  pskIdentityHint : s.pskIdentityHint = p.server.pskIdentityHint
  noCertVerify : s.noCertVerify = false
  certRequest : s.certRequest = asked
  certreqsSent : asked = false → s.certreqsSent = 0
  hasPeer : s.peer = peer

theorem stable_serverKeeps {asked peer : Bool} : Stable (ServerKeeps p asked peer) :=
  fun _ _ _ _ _ _ _ hk => { hk with }

/-- A server in a state of the handshake. -/
abbrev ServerAt (p : Negotiated) (s : Statem) (h : HandState) (f : MsgFlow) (asked peer : Bool) :
    Prop :=
  At p (ServerKeeps p asked peer) true s h f

variable {h : HandState} {f : MsgFlow} {asked peer : Bool}

theorem At.sendServerKeyExchange (hs : ServerAt p s h f asked peer) :
    s.sendServerKeyExchange = p.sendsKeyExch := by
  rw [Statem.sendServerKeyExchange, hs.newCipher, hs.kept.pskIdentityHint]
  rfl

theorem At.sendCertificateRequest (hs : ServerAt p s h f false peer) :
    s.sendCertificateRequest = p.asksCert := by
  simp [Statem.sendCertificateRequest, hs.newCipher, hs.kept.verifyMode, hs.isTls13,
    hs.kept.certreqsSent rfl, asksCert]

theorem At.dropCompression (hs : ServerAt p s h f asked peer) :
    ServerAt p s.dropCompression h f asked peer := by
  unfold Statem.dropCompression
  split
  · exact { hs with kept := { hs.kept with } }
  · exact hs

/-- The server asks for a certificate. -/
theorem At.sends_certRequest (hs : ServerAt p s h (.writing .transition) false peer)
    (htr : s.server12WriteTransition true = s.moveTo .swCertReq) :
    p.Sends s [.certificateRequest] (ServerAt p · .swCertReq (.writing .transition) true peer) := by
  let t : Statem := { s with
    handState := .swCertReq, flow := .writing .postWork
    certreqsSent := s.certreqsSent + 1, certRequest := true }
  have ht : ServerAt p t .swCertReq (.writing .postWork) true peer :=
    { hs.moved .swCertReq (.writing .postWork) with
      stable := stable_serverKeeps
      kept := { hs.kept with certRequest := rfl, certreqsSent := nofun } }
  have hpost : ∃ t', t.postWork (.done p.hasCert) = (t', .finishedContinue) ∧
      ServerAt p t' .swCertReq (.writing .postWork) true peer := by
    simp only [postWork, ht.server, if_true, serverPostWork, ht.handState]
    split
    · exact ⟨t, rfl, ht⟩
    · exact ⟨_, rfl, ht.dropCompression⟩
  obtain ⟨t', hpost, ht'⟩ := hpost
  let u : Statem := { s with handState := .swCertReq, flow := .writing .preWork }
  have hpre : u.preWork (.done p.hasCert) = (u, .finishedContinue) := by
    simp [preWork, u, hs.server, serverPreWork]
  have hcon : u.constructMessage true = some ({ t with flow := .writing .preWork },
      some .certificateRequest) := by
    simp [constructMessage, u, t, hs.server, serverConstructMessage]
  exact ⟨_, emits_write hs.flow (hs.writeTransition.trans htr) hpre hcon hpost, ht'.flowing _⟩

theorem At.processes_server (hs : ServerAt p s h f asked peer) (b : Body) :
    s.processMessage b = s.serverProcessMessage b := by
  rw [Statem.processMessage, if_pos hs.server]

theorem At.process_cert (hs : ServerAt p s .srCert f asked peer)
    (hhit : p.settled.hit = false) (hask : p.asksCert = true) :
    ∃ s', s.processMessage p.body = (s', .continueReading)
      ∧ ServerAt p s' .srCert f asked p.hasCert := by
  have hok : ¬ ((!p.body.hasCert) = true ∧ (s.isSsl3 = true ∨
      s.verifyMode.peer = true ∧ s.verifyMode.failIfNoPeerCert = true)) := by
    rintro ⟨hno, hssl3 | ⟨hpeer, hfail⟩⟩
    · simp [hs.isSsl3] at hssl3
    · rw [hs.kept.verifyMode] at hpeer hfail
      rw [p.choice hhit hpeer (allowed_of_asksCert p hask).2 (by simpa [body] using hno)] at hfail
      cases hfail
  rw [hs.processes_server, serverProcessMessage, hs.handState]
  exact ⟨_, (if_neg Bool.false_ne_true).trans (if_neg hok),
    { hs with stable := stable_serverKeeps, kept := { hs.kept with hasPeer := rfl } }⟩

theorem At.reads_clientCert (hs : ServerAt p s .swSrvrDone (.reading .header) true peer)
    (hhit : p.settled.hit = false) (hask : p.asksCert = true) :
    p.Reads s [.certificate] (ServerAt p · .srCert (.reading .header) true p.hasCert) := by
  have hr : s.server12ReadTransition .certificate = s.accept .srCert := by
    simp [server12ReadTransition, hs.handState, readAfterSrvrDone, hs.kept.certRequest]
  obtain ⟨t, hproc, ht⟩ := (hs.moved .srCert (.reading .body)).process_cert hhit hask
  exact ⟨_, absorbs_continue hs.flow (hs.readTransition hr) hproc, ht.flowing _⟩

theorem At.process_keyExch (hs : ServerAt p s .srKeyExch f asked peer) :
    ∃ s', s.processMessage p.body = (s', .continueProcessing)
      ∧ ServerAt p s' .srKeyExch f asked peer := by
  rw [hs.processes_server, serverProcessMessage, hs.handState]
  have hno := hs.kept.noCertVerify
  exact ⟨_, if_neg Bool.false_ne_true,
    { hs with kept := { hs.kept with noCertVerify := by simp [hno, body] } }⟩

theorem At.postProcess_keyExch (hs : ServerAt p s .srKeyExch f asked peer) (hasCert : Bool) :
    s.postProcessMessage (.done hasCert) = (s, .finishedContinue) := by
  simp [postProcessMessage, hs.server, serverPostProcessMessage, hs.handState, flushed]

theorem At.reads_keyExch (hs : ServerAt p s h (.reading .header) asked peer)
    (hr : s.server12ReadTransition .clientKeyExchange = s.accept .srKeyExch) :
    p.Reads s [.clientKeyExchange] (ServerAt p · .srKeyExch (.reading .header) asked peer) := by
  obtain ⟨t, hproc, ht⟩ := (hs.moved .srKeyExch (.reading .body)).process_keyExch
  have ht' := ht.flowing (.reading .postProcess)
  have hread := absorbs_postProcess hs.flow (hs.readTransition hr) hproc
  have hwork := absorbs_work ht'.flow (ht'.postProcess_keyExch p.hasCert)
  exact ⟨_, hread.trans hwork, ht'.flowing _⟩

theorem At.reads_certVrfy (hs : ServerAt p s .srKeyExch (.reading .header) asked true) :
    p.Reads s [.certificateVerify] (ServerAt p · .srCertVrfy (.reading .header) asked true) := by
  have hr : s.server12ReadTransition .certificateVerify = s.accept .srCertVrfy := by
    simp [server12ReadTransition, hs.handState, hs.kept.hasPeer, hs.kept.noCertVerify]
  have ht := hs.moved .srCertVrfy (.reading .body)
  have hproc : { s with handState := .srCertVrfy, flow := .reading .body }.processMessage p.body
      = ({ s with handState := .srCertVrfy, flow := .reading .body }, .continueReading) := by
    rw [ht.processes_server, serverProcessMessage]
    exact (if_neg Bool.false_ne_true).trans (if_neg (by simp [hs.server]))
  exact ⟨_, absorbs_continue hs.flow (hs.readTransition hr) hproc, ht.flowing _⟩

/-- The server reads the ClientHello and settles the parameters. -/
theorem server_clientHello (p : Negotiated) : p.Reads p.start.right [.clientHello] fun s =>
    ServerAt p s .srClntHello (.writing .transition) false p.settled.peer ∧
    s.isFirstHandshake = true := by
  let s₁ : Statem := { sslNew true false false { p.server with sentShutdown := false } with
    flow := .writing .transition }
  have h₁ : p.act p.start.right = .silent s₁ := rfl
  have h₂ : p.act s₁ = .silent { s₁ with flow := .reading .header } := rfl
  let s₃ : Statem := { s₁ with
    handState := .srClntHello, flow := .reading .body, toSettled := p.settled }
  have h₃ := @absorbs_postProcess p { s₁ with flow := .reading .header }
    { s₁ with handState := .srClntHello, flow := .reading .header } s₃ .clientHello rfl rfl rfl
  have h₄ := @absorbs_workStop p { s₃ with flow := .reading .postProcess }
    { s₃ with flow := .reading .postProcess } rfl rfl
  exact ⟨_, .silent h₁ (.silent h₂ (h₃.trans h₄)),
    ⟨⟨rfl, rfl, rfl, rfl, rfl, rfl⟩, stable_serverKeeps, rfl, rfl, rfl, rfl, rfl, rfl, rfl,
      fun _ => rfl, rfl⟩, rfl⟩

theorem At.sends_done (hs : ServerAt p s h (.writing .transition) asked peer)
    (htr : s.server12WriteTransition true = s.moveTo .swSrvrDone) :
    p.Sends s [.serverDone] (ServerAt p · .swSrvrDone (.reading .header) asked peer) := by
  refine (hs.sends htr rfl).followed fun s₁ hs₁ => hs₁.sends_nothing ?_
  simp [server12WriteTransition, hs₁.handState]

theorem At.sends_afterKeyExch (hs : ServerAt p s h (.writing .transition) false peer)
    (htr : s.server12WriteTransition true = s.writeAfterKeyExch) :
    p.Sends s (optional p.asksCert .certificateRequest ++ [.serverDone])
      (ServerAt p · .swSrvrDone (.reading .header) p.asksCert peer) := by
  rw [writeAfterKeyExch, hs.sendCertificateRequest] at htr
  cases hask : p.asksCert with
  | true =>
    rw [hask] at htr
    refine (hs.sends_certRequest htr).followed fun s₁ hs₁ => hs₁.sends_done ?_
    simp [server12WriteTransition, hs₁.handState]
  | false =>
    rw [hask] at htr
    exact hs.sends_done htr

theorem At.sends_afterCert (hs : ServerAt p s h (.writing .transition) false peer)
    (htr : s.server12WriteTransition true = s.writeAfterCertStatus) :
    p.Sends s p.keyFlight (ServerAt p · .swSrvrDone (.reading .header) p.asksCert peer) := by
  rw [writeAfterCertStatus, hs.sendServerKeyExchange] at htr
  rw [keyFlight]
  cases hkey : p.sendsKeyExch with
  | true =>
    rw [hkey] at htr
    refine (hs.sends htr rfl).followed fun s₁ hs₁ => hs₁.sends_afterKeyExch ?_
    simp [server12WriteTransition, hs₁.handState]
  | false =>
    rw [hkey] at htr
    exact hs.sends_afterKeyExch htr

theorem At.sends_hello (hs : ServerAt p s .srClntHello (.writing .transition) false peer)
    (hfirst : s.isFirstHandshake = true) :
    p.Sends s [.serverHello] (ServerAt p · .swSrvrHello (.writing .transition) false peer) := by
  refine hs.sends ?_ rfl
  simp [server12WriteTransition, hs.handState, hs.dtls, hfirst]

/-- What the server sends after its ServerHello in a full handshake. -/
theorem At.sends_afterHello (hs : ServerAt p s .swSrvrHello (.writing .transition) false peer)
    (hhit : p.settled.hit = false) :
    p.Sends s (optional p.sendsCert .certificate
        ++ (optional (p.sendsCert && p.settled.statusExpected) .certificateStatus
          ++ p.keyFlight))
      (ServerAt p · .swSrvrDone (.reading .header) p.asksCert peer) := by
  cases hcert : p.sendsCert with
  | false =>
    refine hs.sends_afterCert ?_
    have hauth : s.newCipher.algorithmAuth &&& (sslaNULL ||| sslaPSK) ≠ 0 := by
      rw [hs.newCipher]
      simpa [sendsCert] using hcert
    simp only [server12WriteTransition, hs.handState, hs.hit, hhit, if_neg hauth,
      writeAfterCertStatus]
    simp only [Bool.false_eq_true, if_false]
    split <;> rfl
  | true =>
    have hauth : s.newCipher.algorithmAuth &&& (sslaNULL ||| sslaPSK) = 0 := by
      rw [hs.newCipher]
      simpa [sendsCert] using hcert
    have htr : s.server12WriteTransition true = s.moveTo .swCert := by
      simp [server12WriteTransition, hs.handState, hs.hit, hhit, hauth]
    refine (hs.sends htr rfl).followed fun s₁ hs₁ => ?_
    cases hstatus : p.settled.statusExpected with
    | false =>
      refine hs₁.sends_afterCert ?_
      simp [server12WriteTransition, hs₁.handState, hs₁.statusExpected, hstatus]
    | true =>
      have htr₁ : s₁.server12WriteTransition true = s₁.moveTo .swCertStatus := by
        simp [server12WriteTransition, hs₁.handState, hs₁.statusExpected, hstatus]
      refine (hs₁.sends htr₁ rfl).followed fun s₂ hs₂ => hs₂.sends_afterCert ?_
      simp [server12WriteTransition, hs₂.handState]

theorem At.reads_afterClientKey (hs : ServerAt p s .srKeyExch (.reading .header) asked peer) :
    p.Reads s (optional peer .certificateVerify ++ [.changeCipherSpec, .finished])
      (ServerAt p · .srFinished (.writing .transition) asked peer) := by
  cases peer with
  | false =>
    refine hs.reads_finished ?_
    simp [server12ReadTransition, hs.handState, hs.kept.hasPeer]
  | true =>
    refine hs.reads_certVrfy.followed fun s₁ hs₁ => hs₁.reads_finished ?_
    simp [server12ReadTransition, hs₁.handState]

/-- The server reads the second flight of the client. -/
theorem At.reads_flight (hs : ServerAt p s .swSrvrDone (.reading .header) p.asksCert false)
    (hhit : p.settled.hit = false) :
    p.Reads s p.clientFlight (ServerAt p · .srFinished (.writing .transition) p.asksCert
      (p.asksCert && p.hasCert)) := by
  rw [clientFlight]
  cases hask : p.asksCert with
  | false =>
    rw [hask] at hs
    have hr : s.server12ReadTransition .clientKeyExchange = s.accept .srKeyExch := by
      simp [server12ReadTransition, hs.handState, readAfterSrvrDone, hs.kept.certRequest]
    exact (hs.reads_keyExch hr).followed fun s₁ hs₁ => hs₁.reads_afterClientKey
  | true =>
    rw [hask] at hs
    refine (hs.reads_clientCert hhit hask).followed fun s₁ hs₁ => ?_
    have hr : s₁.server12ReadTransition .clientKeyExchange = s₁.accept .srKeyExch := by
      simp [server12ReadTransition, hs₁.handState]
    exact (hs₁.reads_keyExch hr).followed fun s₂ hs₂ => hs₂.reads_afterClientKey

/-- The last flight of the server, with a ticket if one is expected. -/
theorem At.sends_ticketFlight (hs : ServerAt p s h (.writing .transition) asked peer)
    (htr : s.server12WriteTransition true
      = s.moveTo (if p.settled.ticketExpected then .swSessionTicket else .swChange)) :
    p.Sends s p.ticketFlight (ServerAt p · .swFinished (.writing .transition) asked peer) := by
  -- from the ChangeCipherSpec on
  have hend : ∀ {t : Statem} {g : HandState}, ServerAt p t g (.writing .transition) asked peer →
      t.server12WriteTransition true = t.moveTo .swChange →
      p.Sends t [.changeCipherSpec, .finished]
        (ServerAt p · .swFinished (.writing .transition) asked peer) := by
    intro t g ht htr
    refine (ht.sends htr rfl).followed fun t₁ ht₁ => ht₁.sends_finished ?_
    simp [server12WriteTransition, ht₁.handState]
  rw [ticketFlight]
  cases hticket : p.settled.ticketExpected with
  | false =>
    rw [hticket] at htr
    exact hend hs htr
  | true =>
    rw [hticket] at htr
    refine (hs.sends htr rfl).followed fun s₁ hs₁ => hend hs₁ ?_
    simp [server12WriteTransition, hs₁.handState]

/-- The server's part of a full handshake. -/
theorem server_full (hhit : p.settled.hit = false) : Plays p.act Done false p.start.right
    [[.clientHello], p.serverFlight, p.clientFlight, p.ticketFlight] := by
  obtain ⟨s₁, h₁, hs₁, hfirst⟩ := p.server_clientHello
  obtain ⟨s₂, h₂, hs₂⟩ := hs₁.sends_hello hfirst
  obtain ⟨s₃, h₃, hs₃⟩ := hs₂.sends_afterHello hhit
  rw [p.newSession hhit] at hs₃
  obtain ⟨s₄, h₄, hs₄⟩ := hs₃.reads_flight hhit
  obtain ⟨s₅, h₅, hs₅⟩ := hs₄.sends_ticketFlight (by
    simp [server12WriteTransition, hs₄.handState, hs₄.hit, hhit, hs₄.ticketExpected])
  obtain ⟨s₆, h₆, hdone⟩ := hs₅.sends_ok (by
    simp [server12WriteTransition, hs₅.handState, hs₅.hit, hhit])
  have h₅₆ := h₅.trans h₆
  rw [List.append_nil] at h₅₆
  exact ⟨s₁, h₁, s₃, h₂.trans h₃, s₄, h₄, s₆, h₅₆, hdone⟩

/-- The server's part of a resumed handshake. -/
theorem server_resumed (hhit : p.settled.hit = true) : Plays p.act Done false p.start.right
    [[.clientHello], .serverHello :: p.ticketFlight, [.changeCipherSpec, .finished]] := by
  obtain ⟨s₁, h₁, hs₁, hfirst⟩ := p.server_clientHello
  obtain ⟨s₂, h₂, hs₂⟩ := hs₁.sends_hello hfirst
  obtain ⟨s₃, h₃, hs₃⟩ := hs₂.sends_ticketFlight (by
    simp [server12WriteTransition, hs₂.handState, hs₂.hit, hhit, hs₂.ticketExpected])
  obtain ⟨s₄, h₄, hs₄⟩ := hs₃.sends_nothing (by
    simp [server12WriteTransition, hs₃.handState, hs₃.hit, hhit])
  obtain ⟨s₅, h₅, hs₅⟩ := hs₄.reads_finished (by
    simp [server12ReadTransition, hs₄.handState])
  obtain ⟨s₆, h₆, hdone⟩ := hs₅.sends_ok (by
    simp [server12WriteTransition, hs₅.handState, hs₅.hit, hhit])
  have h₃₄ := h₃.trans h₄
  rw [List.append_nil] at h₃₄
  exact ⟨s₁, h₁, s₄, h₂.trans h₃₄, s₆, h₅.trans (h₆.quiet false), hdone⟩

end Negotiated
end QuicTls
