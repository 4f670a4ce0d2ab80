import QuicTls.Verify.Handshake12.Client
import QuicTls.Verify.Handshake12.Server
import QuicTls.Verify.Statem.Role

/-!
# The two state machines agree

The client's part and the server's part of a handshake before TLS 1.3 fit together, and since the
steps of the two sides commute, they do in every order of the steps (`handshake12_agree`).
-/

namespace QuicTls

open Network Statem

namespace Negotiated

variable {p : Negotiated} {s : Statem} {n : Net Statem MessageType} {m : Nat} {mt : MessageType}

/-- A step of the client or of the server. -/
abbrev next (p : Negotiated) : Bool → Net Statem MessageType → Option (Net Statem MessageType) :=
  Net.next p.act p.act

/-- Both sides are done and there is nothing left to read. -/
structure Complete (n : Net Statem MessageType) : Prop where
  client : Done n.left
  server : Done n.right
  toServer : n.toRight = []
  toClient : n.toLeft = []

theorem Done.act (hd : Done s) : p.act s = .halt := by
  rw [Negotiated.act, hd.flow]

theorem Complete.stuck (hc : Complete n) : Stuck p.next n :=
  stuck_of_halt hc.client.act hc.server.act

theorem exists_complete (p : Negotiated) : ∃ k n, Steps p.next k p.start n ∧ Complete n := by
  cases hhit : p.settled.hit with
  | false =>
    obtain ⟨k, c, s, hk, hc, hs⟩ := (client_full hhit).steps (server_full hhit)
    exact ⟨k, _, hk, hc, hs, rfl, rfl⟩
  | true =>
    obtain ⟨k, c, s, hk, hc, hs⟩ := (client_resumed hhit).steps (server_resumed hhit)
    exact ⟨k, _, hk, hc, hs, rfl, rfl⟩

/-- A side that is done at the end has never failed. -/
theorem not_error {t : Net Statem MessageType} (hk : Steps p.next m n t) (hd : Done t.left) :
    n.left.flow ≠ .error := by
  intro hf
  have hl := hk.left_halt (by rw [act, hf])
  cases (hl ▸ hd.flow).symm.trans hf

/-- What a party does is a step of its state machine, so it keeps its role. -/
theorem sameRole_act {s' : Statem} (ha : (p.act s).Leads s') : s.SameRole s' := by
  unfold act at ha
  split at ha
  case h_2 => exact ha.choose_spec ▸ sameRole_step s _
  all_goals first | exact ha.elim | exact ha ▸ sameRole_step s _

theorem sameRole {n' : Net Statem MessageType} (hk : Steps p.next m n n') :
    n.left.SameRole n'.left :=
  hk.left_invariant (n.left.SameRole ·) (fun _ _ ha hs => hs.trans (sameRole_act ha)) (.refl _)

theorem unexpected_rejected {r : Statem × Bool} (hr : (unexpected mt r).2 = false)
    (hd : (unexpected mt r).1.dtls = false) : (unexpected mt r).1.flow = .error := by
  unfold unexpected at hr hd ⊢
  split at hr
  · simp_all
  · split
    · simp_all
    · split
      · simp_all
      · rfl

/-- A message that is rejected ends the connection, over a stream. -/
theorem rejected (hd : s.dtls = false) (hf : s.flow = .reading .header)
    (hr : (s.readTransition true mt).2 = false) :
    (s.step (.header mt true true)).1.flow = .error := by
  have hd' := (s.accepts_readTransition true mt).dtls.trans hd
  have hflow : (s.readTransition true mt).1.flow = .error := by
    unfold readTransition serverReadTransition clientReadTransition at hr hd' ⊢
    split at hr
    · rw [if_pos ‹_›] at hd' ⊢
      exact unexpected_rejected hr hd'
    · rw [if_neg ‹_›] at hd' ⊢
      exact unexpected_rejected hr hd'
  simp [step, hf, readHeader, hr, hflow]

/-- If no run leads to an error, every message that a side reads is accepted. -/
theorem accepts {n₀ : Net Statem MessageType} (hd : n₀.left.dtls = false)
    (hok : ∀ m n, Steps p.next m n₀ n → n.left.flow ≠ .error) (hk : Steps p.next m n₀ n)
    {ms : List MessageType} (hf : n.left.flow = .reading .header) (hq : n.toLeft = mt :: ms) :
    (n.left.readTransition true mt).2 = true := by
  have hact : p.act n.left = .receive fun mt => (n.left.step (.header mt true true)).1 := by
    rw [act, hf]
  have hstep : p.next false n = _ := Net.next_receive hact hq
  by_contra hne
  refine hok _ _ (hk.trans (.step hstep .zero)) ?_
  exact rejected ((sameRole hk).dtls.trans hd) hf (Bool.eq_false_iff.mpr hne)

end Negotiated

open Negotiated

/-- For all that a client and a server share before TLS 1.3, and for every order of their steps:
every message is accepted by the side that reads it in the state it is then in, neither side fails,
and the handshake ends, with both sides in `TLS_ST_OK` and no message left over. -/
theorem handshake12_agree (p : Negotiated) :
    ∃ N, ∀ m n, Steps p.next m p.start n → m ≤ N ∧
      (∀ mt ms, n.left.flow = .reading .header → n.toLeft = mt :: ms →
        (n.left.clientReadTransition true mt).2 = true) ∧
      (∀ mt ms, n.right.flow = .reading .header → n.toRight = mt :: ms →
        (n.right.serverReadTransition mt).2 = true) ∧
      n.left.flow ≠ .error ∧ n.right.flow ≠ .error ∧
      (Stuck p.next n → n.left.handState = .ok ∧ n.right.handState = .ok
        ∧ n.toLeft = [] ∧ n.toRight = []) ∧
      ∃ n', Steps p.next (N - m) n n' ∧ n'.left.handState = .ok ∧ n'.right.handState = .ok := by
  obtain ⟨N, fin, hfin, hc⟩ := p.exists_complete
  -- every run can be completed, since the steps of the two sides commute
  have complete : ∀ {m n}, Steps p.next m p.start n → m ≤ N ∧ Steps p.next (N - m) n fin :=
    fun hk => hfin.complete (Net.next_commute _ _) hc.stuck hk
  have hl : ∀ m n, Steps p.next m p.start n → n.left.flow ≠ .error :=
    fun m n hk => not_error (complete hk).2 hc.client
  have hr : ∀ m n, Steps p.next m p.start.swap n → n.left.flow ≠ .error :=
    fun m n hk => not_error (complete hk.swap).2.swap hc.server
  refine ⟨N, fun m n hk => ?_⟩
  obtain ⟨hle, hrest⟩ := complete hk
  refine ⟨hle, ?_, ?_, hl m n hk, hr m n.swap hk.swap, ?_, fin, hrest, hc.client.handState,
    hc.server.handState⟩
  · intro mt ms hf hq
    have hread := accepts rfl hl hk hf hq
    rwa [readTransition, if_neg (by simp [(sameRole hk).server, start, sslNew])] at hread
  · intro mt ms hf hq
    have hread := accepts rfl hr hk.swap hf hq
    rwa [readTransition, if_pos (by exact (sameRole hk.swap).server)] at hread
  · intro hstuck
    rw [hstuck.eq_of_steps hrest]
    exact ⟨hc.client.handState, hc.server.handState, hc.toClient, hc.toServer⟩

/-- An RSA certificate, an ephemeral key exchange, a ticket and a client that has a certificate for
a server that insists on one. -/
def Negotiated.ecdheRsa : Negotiated where
  settled := { Settled.unsettled with
    version := some .tls1_2, newCipher := ⟨sslkECDHE, 1⟩, ticketExpected := true }
  version := .inr (.inr rfl)
  noRetry := rfl
  noPostHandshake := nofun
  newSession _ := rfl
  client := .sslCtxNew
  server := { AppState.sslCtxNew with verifyMode := ⟨true, true, false, false⟩ }
  noEarlyData := rfl
  hasCert := true
  notAnonymous hnull := absurd (by decide) hnull
  choice _ _ _ := nofun

theorem handshake12_agree_ecdheRsa :
    ecdheRsa.serverFlight = [.serverHello, .certificate, .serverKeyExchange, .certificateRequest,
        .serverDone] ∧
      ecdheRsa.clientFlight = [.certificate, .clientKeyExchange, .certificateVerify,
        .changeCipherSpec, .finished] ∧
      ∃ N n, Steps ecdheRsa.next N ecdheRsa.start n ∧
        n.left.handState = .ok ∧ n.right.handState = .ok := by
  refine ⟨by decide, by decide, ?_⟩
  obtain ⟨N, hall⟩ := handshake12_agree ecdheRsa
  obtain ⟨-, -, -, -, -, -, n, hn⟩ := hall 0 ecdheRsa.start .zero
  exact ⟨N - 0, n, hn⟩

end QuicTls
