import QuicTls.Verify.Statem.Role

/-!
# Client authentication

A server that has received a certificate from the client does not get past the states that follow it
without a CertificateVerify; and before TLS 1.3 it does not get to the client's Finished without a
key exchange, or a resumed session, and a ChangeCipherSpec (`server_clientAuth`).
-/

namespace QuicTls

open List

/-- A message that a server has processed: its state, and whether the session has a certificate or
a public key of the client after it (`received_client_cert`). -/
abbrev Received := HandState × Bool

/-- Every certificate received is followed by a CertificateVerify. -/
def Verified (ms : List Received) : Prop :=
  ∀ pre c post, ms = pre ++ (c, true) :: post → c.IsClientCert → ∃ p, (.srCertVrfy, p) ∈ post

/-- A message of the type was processed after the last ClientHello. -/
def SinceHello (h : HandState) (ms : List Received) : Prop :=
  ∃ pre p post, ms = pre ++ (h, p) :: post ∧ ∀ x ∈ post, x.1 ≠ .srClntHello

theorem verified_nil : Verified [] := by
  intro pre c post heq
  simp at heq

theorem Verified.concat {ms : List Received} {x : Received} (hv : Verified ms)
    (hx : x.2 = true → ¬ x.1.IsClientCert) : Verified (ms ++ [x]) := by
  intro pre c post heq hc
  rcases eq_nil_or_concat post with rfl | ⟨post, y, rfl⟩
  · obtain ⟨-, heq⟩ := append_inj' heq rfl
    cases heq
    exact absurd hc (hx rfl)
  · rw [concat_eq_append, ← cons_append, ← append_assoc] at heq
    obtain ⟨heq, -⟩ := append_inj' heq rfl
    obtain ⟨p, hp⟩ := hv pre c post heq hc
    exact ⟨p, by simp [hp]⟩

theorem verified_certVrfy (ms : List Received) (p : Bool) :
    Verified (ms ++ [(.srCertVrfy, p)]) := by
  intro pre c post heq hc
  rcases eq_nil_or_concat post with rfl | ⟨post, y, rfl⟩
  · obtain ⟨-, heq⟩ := append_inj' heq rfl
    cases heq
    rcases hc with hc | hc <;> cases hc
  · rw [concat_eq_append, ← cons_append, ← append_assoc] at heq
    obtain ⟨-, heq⟩ := append_inj' heq rfl
    cases heq
    exact ⟨p, by simp⟩

theorem SinceHello.append {h : HandState} {ms ns : List Received} (hs : SinceHello h ms)
    (hns : ∀ x ∈ ns, x.1 ≠ .srClntHello) : SinceHello h (ms ++ ns) := by
  obtain ⟨pre, p, post, rfl, hpost⟩ := hs
  refine ⟨pre, p, post ++ ns, by simp, ?_⟩
  intro x hx
  rcases mem_append.mp hx with hx | hx
  · exact hpost x hx
  · exact hns x hx

theorem sinceHello_concat (h : HandState) (ms : List Received) (p : Bool) :
    SinceHello h (ms ++ [(h, p)]) :=
  ⟨ms, p, [], rfl, nofun⟩

namespace Statem

variable {s s' : Statem} {e : StatemEvent} {ms : List Received} {tls13 : Bool} {h : HandState}
  {f : MsgFlow}

/-- A step together with the message that the server processes. -/
def serverObserve (s : Statem) (e : StatemEvent) : Statem × Option Received :=
  ((s.step e).1, (s.processed e).map (·, (s.step e).1.peer))

/-! ### CertificateVerify -/

/-- The states between a certificate and the end of the CertificateVerify that belongs to it. -/
inductive AwaitsVerify (tls13 : Bool) : HandState → MsgFlow → Prop
  | cert {c : HandState} : c.IsClientCert → AwaitsVerify tls13 c (.reading .header)
  | keyExch {r : ReadState} : tls13 = false → AwaitsVerify tls13 .srKeyExch (.reading r)
  | certVrfy : AwaitsVerify tls13 .srCertVrfy (.reading .body)
  | error {h : HandState} : h ≠ .ok → AwaitsVerify tls13 h .error

/-- A server that has received a certificate and waits for the CertificateVerify. -/
structure Pending (s : Statem) : Prop where
  server : s.server = true
  peer : s.peer = true
  noCertVerify : s.noCertVerify = false
  awaits : AwaitsVerify s.isTls13 s.handState s.flow

theorem AwaitsVerify.ne_ok (ha : AwaitsVerify tls13 h f) : h ≠ .ok := by
  cases ha with
  | cert hc => rcases hc with rfl | rfl <;> nofun
  | keyExch | certVrfy => nofun
  | error hne => exact hne

theorem AwaitsVerify.flow (ha : AwaitsVerify tls13 h f) : f = .error ∨ ∃ r, f = .reading r := by
  cases ha with
  | cert | keyExch | certVrfy => exact .inr ⟨_, rfl⟩
  | error => exact .inl rfl

theorem AwaitsVerify.ne_uninited (ha : AwaitsVerify tls13 h f) : f ≠ .uninited := by
  rcases ha.flow with rfl | ⟨r, rfl⟩ <;> nofun

theorem Pending.fatal (hp : Pending s) : Pending s.fatal :=
  { hp with awaits := .error hp.awaits.ne_ok }

/-- From a state that waits for the CertificateVerify the server reads on to one that still does. -/
theorem Pending.reads (hp : Pending s) (hf : s.flow = .reading .header) (hr : ServerReads s h) :
    AwaitsVerify s.isTls13 h (.reading .body) ∧ h ≠ .ok := by
  have ha := hp.awaits
  rw [hf] at ha
  rw [ServerReads, hp.peer, hp.noCertVerify] at hr
  generalize s.handState = h₀ at ha hr
  cases ha with
  | cert hc =>
    split at hr
    · cases hr with
      | certVrfy => exact ⟨.certVrfy, nofun⟩
      | noCert _ hpeer => cases hpeer
      | cert _ hnc | finished hnc => exact absurd hc hnc
      | hello | endOfEarlyData | keyUpdate => rcases hc with hc | hc <;> cases hc
    · rename_i h13
      cases hr with
      | certKeyExch => exact ⟨.keyExch (Bool.eq_false_iff.mpr h13), nofun⟩
      | hello hh => rcases hc with rfl | rfl <;> simp at hh
      | cert | keyExch | certVrfy | noCertVrfy | change | hitChange | finished =>
        rcases hc with hc | hc <;> cases hc
  | keyExch h13 =>
    rw [if_neg (by simp [h13])] at hr
    cases hr with
    | certVrfy => exact ⟨.certVrfy, nofun⟩
    | noCertVrfy hno => simp at hno
    | hello hh => simp at hh

/-- A message that is processed while the server waits. -/
theorem Pending.readBody (hp : Pending s) (hf : s.flow = .reading .body) (b : Body) :
    (s.readBody b).postHandshakeAuth = s.postHandshakeAuth ∧
      (Pending (s.readBody b) ∨ (s.readBody b).noCertVerify = true ∨
        s.processed (.body b) = some .srCertVrfy) := by
  have ha := hp.awaits
  rw [hf] at ha
  have hproc : s.processMessage b = s.serverProcessMessage b := by
    rw [processMessage, if_pos hp.server]
  generalize hh : s.handState = h at ha
  cases ha with
  | keyExch h13 =>
    have hkey : s.processMessage b = s.tlsProcessClientKeyExchange b := by
      rw [hproc, serverProcessMessage, hh]
    cases hv : b.valid with
    | false =>
      have heq : s.readBody b = s.fatal.fatal := by
        rw [Statem.readBody, hkey, tlsProcessClientKeyExchange, if_pos (by simp [hv])]
        rfl
      rw [heq]
      exact ⟨rfl, .inl hp.fatal.fatal⟩
    | true =>
      rw [Statem.readBody, hkey, tlsProcessClientKeyExchange, if_neg (by simp [hv])]
      refine ⟨rfl, ?_⟩
      cases hn : s.noCertVerify || b.certKeyUsed && s.newCipher.algorithmMkey &&& sslkGOST != 0 with
      | true => exact .inr (.inl rfl)
      | false =>
        exact .inl { hp with noCertVerify := rfl, awaits := by exact hh ▸ .keyExch h13 }
  | certVrfy =>
    have hver : s.processMessage b = s.tlsProcessCertVerify b := by
      rw [hproc, serverProcessMessage, hh]
    cases hv : b.valid with
    | false =>
      have heq : s.readBody b = s.fatal.fatal := by
        rw [Statem.readBody, hver, tlsProcessCertVerify, if_pos (by simp [hv])]
        rfl
      rw [heq]
      exact ⟨rfl, .inl hp.fatal.fatal⟩
    | true =>
      have hok : s.processMessage b = (s, .continueReading) := by
        rw [hver, tlsProcessCertVerify, if_neg (by simp [hv]), if_neg (by simp [hp.server])]
      rw [Statem.readBody, hok]
      refine ⟨rfl, .inr (.inr ?_)⟩
      rw [processed_body hf hok (by rintro ⟨⟩), hh]

theorem Pending.readPostProcess (hp : Pending s) (hf : s.flow = .reading .postProcess) (w : Work) :
    (s.readPostProcess w).postHandshakeAuth = s.postHandshakeAuth ∧
      Pending (s.readPostProcess w) := by
  have ha := hp.awaits
  rw [hf] at ha
  generalize hh : s.handState = h at ha
  cases ha with
  | keyExch h13 =>
    have hpost : s.postProcessMessage w = s.flushed w := by
      simp [postProcessMessage, hp.server, serverPostProcessMessage, hh]
    rw [Statem.readPostProcess, hpost]
    cases w with
    | fail => exact ⟨rfl, hp.fatal.fatal⟩
    | retry => exact ⟨rfl, hp⟩
    | done hasCert => exact ⟨rfl, { hp with awaits := by exact hh ▸ .keyExch h13 }⟩

/-- While the server waits for the CertificateVerify, a step gets no further, unless the key of
the certificate was used in the key exchange. -/
theorem Pending.step (hp : Pending s) (e : StatemEvent) :
    (s.step e).1.postHandshakeAuth = s.postHandshakeAuth ∧
      (Pending (s.step e).1 ∨ (s.step e).1.noCertVerify = true ∨
        s.processed e = some .srCertVrfy) := by
  have hcases := step_cases s e
  generalize (s.step e).1 = s' at hcases
  have ha := hp.awaits
  cases hcases with
  | frame hf =>
    refine ⟨by rw [hf.settled], .inl ⟨?_, ?_, ?_, ?_⟩⟩
    · exact hf.server.trans hp.server
    · rw [hf.settled, hp.peer]
    · exact hf.noCertVerify.trans hp.noCertVerify
    · rwa [hf.isTls13, hf.handState, hf.flow]
  | enter _ _ hf =>
    rcases ha.flow with hfl | ⟨r, hfl⟩ <;> rcases hf with hf | hf <;> cases hf.symm.trans hfl
  | verifyClient _ _ hok => exact absurd hok ha.ne_ok
  | @header mt restored sizeOk hf =>
    rcases @server_readHeader_cases s mt restored hp.server sizeOk with
      heq | heq | ⟨h, hr, heq | heq⟩
    · rw [heq]
      exact ⟨rfl, .inl hp⟩
    · rw [heq]
      exact ⟨rfl, .inl hp.fatal⟩
    · rw [heq]
      exact ⟨rfl, .inl { hp with awaits := .error (hp.reads hf hr).2 }⟩
    · rw [heq]
      exact ⟨rfl, .inl { hp with awaits := (hp.reads hf hr).1 }⟩
  | body hf => exact hp.readBody hf _
  | postProcess hf =>
    obtain ⟨hpha, hp'⟩ := hp.readPostProcess hf _
    exact ⟨hpha, .inl hp'⟩
  | transition hf | preWork hf | send hf | postWork hf =>
    rcases ha.flow with hfl | ⟨r, hfl⟩ <;> cases hf.symm.trans hfl

theorem pending_of_received {c : HandState} (hserver : s.server = true)
    (hproc : s.processed e = some c) (hc : c.IsClientCert) (hpeer : (s.step e).1.peer = true) :
    Pending (s.step e).1 ∨ (s.step e).1.noCertVerify = true := by
  obtain ⟨b, rfl, hf, hret, hh, hstep⟩ := processed_eq_some hproc
  have hcert : s.processMessage b = s.tlsProcessClientCertificate b := by
    rw [processMessage, if_pos hserver]
    rcases hc with rfl | rfl <;> rw [serverProcessMessage, hh]
  rw [hstep, readBody, hcert] at hpeer ⊢
  rw [hcert] at hret
  unfold tlsProcessClientCertificate at hpeer hret ⊢
  split at hret
  · exact absurd rfl hret
  split at hret
  · exact absurd rfl hret
  rw [if_neg ‹_›, if_neg ‹_›] at hpeer ⊢
  cases hn : s.noCertVerify with
  | true => exact .inr rfl
  | false => exact .inl ⟨hserver, hpeer, rfl, by exact hh ▸ .cert hc⟩

/-- Along a run: every certificate is verified, or the server waits for the CertificateVerify. -/
structure AuthInv (s : Statem) (ms : List Received) : Prop where
  server : s.server = true
  verified : Verified ms ∨ Pending s ∨ s.noCertVerify = true ∧ s.flow ≠ .uninited

/-- A step keeps what was authenticated. -/
theorem AuthInv.step (hi : AuthInv s ms) (e : StatemEvent) :
    AuthInv (s.step e).1 (ms ++ (s.serverObserve e).2.toList) := by
  refine ⟨(sameRole_step s e).server.trans hi.server, ?_⟩
  rcases hi.verified with hv | hp | ⟨hn, hf⟩
  · cases hproc : s.processed e with
    | none => exact .inl (by simpa [serverObserve, hproc] using hv)
    | some h =>
      by_cases hc : h.IsClientCert ∧ (s.step e).1.peer = true
      · refine .inr ((pending_of_received hi.server hproc hc.1 hc.2).imp_right fun hn => ⟨hn, ?_⟩)
        obtain ⟨b, -, -, -, -, hstep⟩ := processed_eq_some hproc
        exact hstep ▸ readBody_flow s b
      · left
        simp only [serverObserve, hproc, Option.map_some]
        exact hv.concat fun hpeer hcert => hc ⟨hcert, hpeer⟩
  · have hu : InUse s := ⟨hp.server, hp.awaits.ne_uninited⟩
    rcases (hp.step e).2 with hp' | hn | hproc
    · exact .inr (.inl hp')
    · exact .inr (.inr ⟨hn, (hu.step e).1.flow⟩)
    · left
      simp only [serverObserve, hproc, Option.map_some]
      exact verified_certVrfy ms _
  · have hu : InUse s := ⟨hi.server, hf⟩
    exact .inr (.inr ⟨(hu.step e).2 hn, (hu.step e).1.flow⟩)

end Statem

/-! ### Before TLS 1.3 -/

/-- The keys of the handshake are there: from a key exchange or from a resumed session. -/
def Keyed (hit : Bool) (ms : List Received) : Prop := SinceHello .srKeyExch ms ∨ hit = true

/-- What a server of a version before TLS 1.3 has processed when it is in a state. -/
def Processed12 (hit : Bool) (ms : List Received) : HandState → MsgFlow → Prop
  | .srKeyExch, .reading .body => True
  | .srKeyExch, .reading _ | .srCertVrfy, .reading _ => SinceHello .srKeyExch ms
  | .srChange, .reading .body => Keyed hit ms
  | .srChange, .reading _ | .srFinished, _ => SinceHello .srChange ms ∧ Keyed hit ms
  | .swFinished, .reading _ => hit = true
  | _, _ => True

section

variable {hit : Bool} {ms : List Received} {h : HandState} {f f' : MsgFlow}

theorem Keyed.append {ns : List Received} (hk : Keyed hit ms)
    (hns : ∀ x ∈ ns, x.1 ≠ .srClntHello) : Keyed hit (ms ++ ns) :=
  hk.imp_left fun hs => hs.append hns

/-- It is enough to have what the state wants in any flow. -/
theorem processed12_of (hkey : h = .srKeyExch ∨ h = .srCertVrfy → SinceHello .srKeyExch ms)
    (hchange : h = .srChange ∨ h = .srFinished → SinceHello .srChange ms ∧ Keyed hit ms)
    (hsw : h = .swFinished → hit = true) : Processed12 hit ms h f := by
  unfold Processed12
  split <;> simp_all

theorem processed12_of_not (hh : ¬ h.InClientFlight) (hsw : h = .swFinished → hit = true) :
    Processed12 hit ms h f := by
  refine processed12_of ?_ ?_ hsw <;> rintro (rfl | rfl) <;>
    exact absurd (by simp [HandState.InClientFlight]) hh

/-- Where the server does not read, only the client's Finished wants anything. -/
theorem processed12_notReading (hf : f.NotReading) (hh : h ≠ .srFinished) :
    Processed12 hit ms h f := by
  unfold Processed12
  rcases hf with rfl | rfl | ⟨w, rfl⟩
  all_goals split <;> simp_all

theorem Processed12.notReading (hp : Processed12 hit ms h f) (hf : f'.NotReading) :
    Processed12 hit ms h f' := by
  by_cases hh : h = .srFinished
  · subst hh
    exact hp
  · exact processed12_notReading hf hh

end

namespace Statem

variable {s s' : Statem} {e : StatemEvent} {ms : List Received}

/-- The invariant of a server before TLS 1.3. -/
def Order12 (s : Statem) (ms : List Received) : Prop :=
  s.isTls13 = false → Processed12 s.hit ms s.handState s.flow

theorem processed12_reads {h : HandState} (hr : Reads12 s.peer s.noCertVerify s.handState h)
    (hp : Processed12 s.hit ms s.handState (.reading .header)) :
    Processed12 s.hit ms h (.reading .body) := by
  generalize s.handState = h₀ at hr hp
  cases hr with
  | hello | cert | keyExch | certKeyExch => trivial
  | certVrfy => exact hp
  | noCertVrfy | change => exact .inl hp
  | hitChange => exact .inr hp
  | finished => exact hp

section
variable (hi : Order12 s ms)
include hi

/-- Processing a message keeps the order of the flight. -/
theorem Order12.readBody (hserver : s.server = true) (hf : s.flow = .reading .body) (b : Body) :
    Order12 (s.readBody b)
      (ms ++ ((s.processed (.body b)).map (·, (s.readBody b).peer)).toList) := by
  intro h13
  have hspec := processes_readBody s b
  rw [hspec.handState]
  by_cases hello : s.handState = .srClntHello
  · rw [hello]
    trivial
  obtain ⟨hversion, hhit⟩ := hspec.settled (by rwa [if_pos hserver])
  have hp : Processed12 s.hit ms s.handState (.reading .body) := by
    rw [← hf]
    exact hi (by rwa [Statem.isTls13, hversion, hspec.dtls] at h13)
  rw [hhit]
  cases hproc : s.processed (.body b) with
  | none =>
    -- the message was refused
    rw [readBody_refused hf hproc, Option.map_none, Option.toList_none, append_nil]
    exact hp.notReading (.inl rfl)
  | some h =>
    obtain ⟨_, _, _, _, hh, _⟩ := processed_eq_some hproc
    generalize (s.readBody b).peer = p
    have hns : ∀ x ∈ [(h, p)], x.1 ≠ .srClntHello := by simpa [← hh] using hello
    rw [hh] at hp ⊢
    refine processed12_of ?_ ?_ ?_
    · rintro (rfl | rfl)
      · exact sinceHello_concat _ ms p
      · exact SinceHello.append hp hns
    · rintro (rfl | rfl)
      · exact ⟨sinceHello_concat _ ms p, Keyed.append hp hns⟩
      · exact ⟨SinceHello.append hp.1 hns, Keyed.append hp.2 hns⟩
    · rintro rfl
      exact hp

theorem Order12.fatal : Order12 s.fatal ms :=
  fun h13 => (hi h13).notReading (.inl rfl)

theorem Order12.readHeader (hserver : s.server = true)
    (hf : s.flow = .reading .header) (mt : MessageType) (restored sizeOk : Bool) :
    Order12 (s.readHeader mt restored sizeOk) ms := by
  rcases @server_readHeader_cases s mt restored hserver sizeOk with
    heq | heq | ⟨h, hr, heq⟩
  · rwa [heq]
  · rw [heq]
    exact hi.fatal
  have hbody : Order12 { s with handState := h, flow := .reading .body } ms := by
    intro h13
    have h13 : s.isTls13 = false := h13
    rw [ServerReads, if_neg (by simp [h13])] at hr
    exact @processed12_reads s ms h hr (hf ▸ hi h13)
  rcases heq with heq | heq
  · rw [heq]
    exact hbody.fatal
  · rwa [heq]

theorem Order12.readPostProcess (hf : s.flow = .reading .postProcess)
    (w : Work) : Order12 (s.readPostProcess w) ms := by
  intro h13
  have ⟨hk, hh, _, _⟩ := round_readPostProcess s w
  have hp := hi (hk.isTls13 ▸ h13)
  rw [hk.hit, hh]
  rw [hf] at hp
  refine processed12_of ?_ ?_ ?_
  · rintro (hs | hs) <;> rw [hs] at hp <;> exact hp
  · rintro (hs | hs) <;> rw [hs] at hp <;> exact hp
  · intro hs
    rw [hs] at hp
    exact hp

/-- The rounds that stay in the handshake and do not read. -/
theorem Order12.keeps (hk : Keeps s s') (hh : s'.handState = s.handState)
    (hf : s'.flow.NotReading) : Order12 s' ms := by
  intro h13
  rw [hk.hit, hh]
  exact (hi (hk.isTls13 ▸ h13)).notReading hf

theorem Order12.frame (hf : Frame s s') : Order12 s' ms := by
  intro h13
  rw [hf.settled, hf.handState, hf.flow]
  exact hi (hf.isTls13 ▸ h13)

/-- A step keeps the order of the flight. -/
theorem Order12.step (hserver : s.server = true) (e : StatemEvent) :
    Order12 (s.step e).1 (ms ++ (s.serverObserve e).2.toList) := by
  cases hproc : s.processed e with
  | some h =>
    obtain ⟨b, rfl, hf, -, -, hstep⟩ := processed_eq_some hproc
    rw [serverObserve, hstep]
    exact hi.readBody hserver hf b
  | none =>
    rw [serverObserve, hproc, Option.map_none, Option.toList_none, append_nil]
    have hcases := step_cases s e
    generalize (s.step e).1 = s' at hcases
    cases hcases with
    | frame hf => exact hi.frame hf
    | @enter _ t setup hf hfl =>
      have hserver : t.server = true := hf.server.trans hserver
      rcases hfl with hfl | hfl
      · rcases server_stateMachine_uninited hserver (hf.flow.trans hfl) setup with
          heq | ⟨-, hh, hnr⟩
        · rw [heq]
          exact hi.frame hf
        · exact fun _ => processed12_notReading hnr (hh ▸ nofun)
      · have hstart : t.stateMachine setup = t.startHandshake false setup := by
          rw [stateMachine, hf.flow, hfl]
        obtain ⟨hk, hh, hnr⟩ := server_startHandshake hserver false setup
        rw [hstart]
        exact (hi.frame hf).keeps hk hh hnr
    | verifyClient h13 => exact fun h13' => absurd h13 (Bool.eq_false_iff.mp h13')
    | header hf => exact hi.readHeader hserver hf _ _ _
    | @body b hf =>
      have hbody := hi.readBody hserver hf b
      rwa [hproc, Option.map_none, Option.toList_none, append_nil] at hbody
    | postProcess hf => exact hi.readPostProcess hf _
    | transition hf =>
      obtain ⟨hk, ⟨hfl, hh⟩ | ⟨hfl, hh⟩ | ⟨hfl, hh, hnot, hsw⟩⟩ :=
        server_writeTransitionStep hserver _ _
      · refine fun _ => processed12_notReading (.inr (.inr ⟨_, hfl⟩)) fun hs => hh ?_
        simp [hs, HandState.InClientFlight]
      · exact hi.keeps hk hh (.inl hfl)
      · intro h13
        rw [hk.hit, hh]
        exact processed12_of_not hnot fun hs => hsw hs (hk.isTls13 ▸ h13)
    | preWork hf =>
      obtain ⟨hk, hh, hfl⟩ := keeps_writePreWork hf _ _ _
      exact hi.keeps hk hh hfl
    | send => exact hi.keeps ⟨rfl, rfl, rfl, rfl, rfl⟩ rfl (.inr (.inr ⟨_, rfl⟩))
    | postWork hf =>
      obtain ⟨hk, hh, -, heq | hfl⟩ := round_writePostWork s ‹_›
      · rwa [heq]
      · exact hi.keeps hk hh (by grind [MsgFlow.NotReading])

end

theorem server_run (hserver : s.server = true) (hh : s.handState = .before)
    (es : List StatemEvent) :
    let r := Run.run serverObserve s es
    AuthInv r.1 (messages r.2) ∧ Order12 r.1 (messages r.2) := by
  refine Run.run_invariant (fun s log => AuthInv s (messages log) ∧ Order12 s (messages log))
    (fun _ => True) ?_ (fun _ _ => trivial) ⟨⟨hserver, .inl verified_nil⟩, fun _ => ?_⟩
  · intro s log e _ ⟨hi, ho⟩
    rw [messages_concat]
    exact ⟨hi.step e, ho.step hi.server e⟩
  · rw [hh]
    trivial

end Statem

open Statem

/-- For every run of a server, whatever it receives and whatever is negotiated: if
`no_cert_verify` is clear, every certificate received is followed by a CertificateVerify when the
server is in `TLS_ST_OK` and when post-handshake authentication completes; and before TLS 1.3 the
server is in `TLS_ST_SR_FINISHED` only after a ChangeCipherSpec and a ClientKeyExchange, or the
resumption of a session. -/
theorem server_clientAuth (s : Statem) (hserver : s.server = true) (hh : s.handState = .before)
    (es : List StatemEvent) :
    let r := Run.run serverObserve s es
    (r.1.noCertVerify = false → r.1.handState = .ok → Verified (messages r.2)) ∧
    (∀ e, r.1.noCertVerify = false → r.1.postHandshakeAuth = .requested →
      (r.1.step e).1.postHandshakeAuth ≠ .requested → Verified (messages r.2)) ∧
    (r.1.isTls13 = false → r.1.handState = .srFinished → SinceHello .srChange (messages r.2) ∧
        (SinceHello .srKeyExch (messages r.2) ∨ r.1.hit = true)) := by
  obtain ⟨hi, ho⟩ := server_run hserver hh es
  refine ⟨?_, ?_, ?_⟩
  · intro hn hok
    rcases hi.verified with hv | hp | ⟨hn', -⟩
    · exact hv
    · exact absurd hok hp.awaits.ne_ok
    · cases hn.symm.trans hn'
  · intro e hn hpha hpha'
    rcases hi.verified with hv | hp | ⟨hn', -⟩
    · exact hv
    · exact absurd ((hp.step e).1.trans hpha) hpha'
    · cases hn.symm.trans hn'
  · intro h13 hfin
    have hp := ho h13
    rw [hfin] at hp
    exact hp

/-- A message with which a TLS 1.2 handshake goes on, with an ephemeral key exchange and RSA
certificates. -/
def Body.tls12 : Body where
  valid := true
  isHelloRetryRequest := false
  settled := { Settled.unsettled with version := some .tls1_2, newCipher := ⟨sslkECDHE, 1⟩ }
  hasCookie := false
  hasCert := true
  certKeyUsed := false
  updateRequested := false

/-- The rounds of the loop in which a message is written. -/
def writeEvents : List StatemEvent :=
  [.transition false true, .preWork (.done true) true true, .send, .postWork (.done true)]

/-- A TLS 1.2 handshake of a server that asks the client for a certificate. -/
def certificateEvents : List StatemEvent :=
  [.call none true, .transition false true,
    .header .clientHello true true, .body .tls12, .postProcess (.done true)]
  -- ServerHello, Certificate, ServerKeyExchange, CertificateRequest, ServerHelloDone
  ++ writeEvents ++ writeEvents ++ writeEvents ++ writeEvents ++ writeEvents ++
  [.transition false true, .header .certificate true true, .body .tls12,
    .header .clientKeyExchange true true, .body .tls12, .postProcess (.done true),
    .header .certificateVerify true true, .body .tls12,
    .header .changeCipherSpec true true, .body .tls12,
    .header .finished true true, .body .tls12]
  -- ChangeCipherSpec, Finished
  ++ writeEvents ++ writeEvents ++ [.transition false true, .preWork (.done true) true true]

theorem server_clientAuth_certificate :
    let s := Statem.sslNew true false false
      { AppState.sslCtxNew with verifyMode := ⟨true, false, false, false⟩ }
    let r := Run.run serverObserve s certificateEvents
    r.1.handState = .ok ∧ r.1.inInit = false ∧
      messages r.2 = [(.srClntHello, false), (.srCert, true), (.srKeyExch, true),
        (.srCertVrfy, true), (.srChange, true), (.srFinished, true)] ∧
      Verified (messages r.2) := by
  refine ⟨by decide +kernel, by decide +kernel, by decide +kernel, ?_⟩
  exact (server_clientAuth _ rfl rfl certificateEvents).1 (by decide +kernel) (by decide +kernel)

end QuicTls
