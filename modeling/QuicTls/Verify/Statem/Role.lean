import QuicTls.Ssl.KeyUpdate
import QuicTls.Verify.Statem.Server

/-!
# Roles

A connection stays a client or a server, and stays with its transport. The transitions also leave
`key_update` alone, and read or write a KeyUpdate message in the states for it only.
-/

namespace QuicTls

namespace Statem

variable {s s' t : Statem} {mt : MessageType}

/-- The same role and the same transport. -/
structure SameRole (s s' : Statem) : Prop where
  server : s'.server = s.server
  dtls : s'.dtls = s.dtls

theorem SameRole.refl (s : Statem) : SameRole s s := ⟨rfl, rfl⟩

theorem SameRole.trans (h : SameRole s s') (h' : SameRole s' t) : SameRole s t :=
  ⟨h'.server.trans h.server, h'.dtls.trans h.dtls⟩

theorem Keeps.sameRole (h : Keeps s s') : SameRole s s' := ⟨h.server, h.dtls⟩

/-- The same role and transport, and the same KeyUpdate announced. -/
structure Retains (s s' : Statem) : Prop extends SameRole s s' where
  keyUpdate : s'.keyUpdate = s.keyUpdate

theorem Retains.refl (s : Statem) : Retains s s := ⟨.refl s, rfl⟩

theorem retains_tlsSetupHandshake (s : Statem) (ok : Bool) :
    Retains s (s.tlsSetupHandshake ok).1 := by
  unfold tlsSetupHandshake
  repeat' split
  all_goals exact ⟨⟨rfl, rfl⟩, rfl⟩

theorem retains_startHandshake (s : Statem) (fresh setup : Bool) :
    Retains s (s.startHandshake fresh setup) := by
  have hsetup := retains_tlsSetupHandshake { s with changeCipherSpec := false } true
  unfold startHandshake
  dsimp only
  repeat' split
  all_goals first | exact ⟨⟨rfl, rfl⟩, rfl⟩ | exact { hsetup with }

theorem sameRole_stateMachine (setup : Bool) : SameRole s (s.stateMachine setup) := by
  unfold stateMachine
  split
  case h_2 =>
    split
    · split
      · exact .refl s
      · have h := retains_startHandshake { s.sslClear with requestState := .before } true setup
        exact ⟨h.server, h.dtls⟩
    · have h := retains_startHandshake { s with handState := .before, requestState := .before }
        true setup
      exact ⟨h.server, h.dtls⟩
  case h_3 => exact (retains_startHandshake s false setup).toSameRole
  all_goals exact .refl s

/-- A transition that accepts the message goes to the state that reads KeyUpdate messages if it is
one, and to another state if it is not. -/
structure Accepts (s : Statem) (mt : MessageType) (r : Statem × Bool) : Prop
    extends Retains s r.1 where
  reads : r.2 = true → r.1.readsKeyUpdate = decide (mt = .keyUpdate)
  flow : r.1.flow = s.flow ∨ r.2 = false ∧ r.1.flow = .error

theorem accepts_reject : Accepts s mt s.reject := ⟨.refl s, nofun, .inl rfl⟩

theorem accepts_fatal (hs : Retains s s') : Accepts s mt (s'.fatal, false) :=
  ⟨⟨⟨hs.server, hs.dtls⟩, hs.keyUpdate⟩, nofun, .inr ⟨rfl, rfl⟩⟩

theorem accepts_other {h : HandState} (hs : Retains s s') (hf : s'.flow = s.flow)
    (hmt : mt ≠ .keyUpdate) (hh : h ≠ .srKeyUpdate ∧ h ≠ .crKeyUpdate) :
    Accepts s mt (s'.accept h) := by
  refine ⟨⟨⟨hs.server, hs.dtls⟩, hs.keyUpdate⟩, fun _ => ?_, .inl hf⟩
  rw [decide_eq_false hmt]
  refine decide_eq_false ?_
  split
  · exact hh.1
  · exact hh.2

/-- A read transition accepts only messages for its role. -/
theorem accepts_readTransition (s : Statem) (restored : Bool) (mt : MessageType) :
    Accepts s mt (s.readTransition restored mt) := by
  have hunexp {r : Statem × Bool} (hr : Accepts s mt r) : Accepts s mt (unexpected mt r) := by
    unfold unexpected
    repeat' split
    · exact hr
    · exact hr
    · exact accepts_fatal hr.toRetains
  unfold readTransition serverReadTransition clientReadTransition
  split <;> refine hunexp ?_ <;> split
  case' isTrue.isTrue => unfold server13ReadTransition readClientFlight
  case' isTrue.isFalse => unfold server12ReadTransition readAfterSrvrDone
  case' isFalse.isTrue => unfold client13ReadTransition
  case' isFalse.isFalse =>
    unfold client12ReadTransition readAfterSrvrHello readAfterCert readAfterCertStatus
      readAfterKeyExch readAfterCertReq
  all_goals repeat' split
  all_goals first
    | exact accepts_reject
    | exact accepts_fatal ⟨⟨rfl, rfl⟩, rfl⟩
    | exact accepts_other ⟨⟨rfl, rfl⟩, rfl⟩ rfl (by rintro rfl; simp_all) (by decide)
    -- the states for KeyUpdate
    | exact ⟨⟨⟨rfl, rfl⟩, rfl⟩, fun _ => by simp_all [readsKeyUpdate, accept], .inl rfl⟩

/-- A transition to the state that writes a KeyUpdate message needs one to be announced. -/
structure Announced (s : Statem) (r : Statem × WriteTran) : Prop extends Retains s r.1 where
  announced : r.2 = .continue → r.1.writesKeyUpdate = true → s.keyUpdate ≠ .none

theorem announced_other {h : HandState} (hr : Retains s s') (hs : h ≠ .swKeyUpdate)
    (hc : h ≠ .cwKeyUpdate) : Announced s (s'.moveTo h) := by
  refine ⟨⟨⟨hr.server, hr.dtls⟩, hr.keyUpdate⟩, fun _ hw => ?_⟩
  have hh : h = if s'.server then .swKeyUpdate else .cwKeyUpdate := of_decide_eq_true hw
  split at hh
  · exact absurd hh hs
  · exact absurd hh hc

theorem announced_stop {t : WriteTran} (hr : Retains s s') (ht : t ≠ .continue) :
    Announced s (s', t) :=
  ⟨hr, fun h => absurd h ht⟩

/-- A write transition announces only messages of its role. -/
theorem announced_writeTransition (s : Statem) (renegotiate setup : Bool) :
    Announced s (s.writeTransition renegotiate setup) := by
  have hsetup := retains_tlsSetupHandshake
    { s with inInit := true, requestState := .swHelloReq } true
  unfold writeTransition serverWriteTransition clientWriteTransition
  split <;> split
  case' isTrue.isTrue => unfold server13WriteTransition serverCertState
  case' isTrue.isFalse => unfold server12WriteTransition writeAfterCertStatus writeAfterKeyExch
  case' isFalse.isTrue => unfold client13WriteTransition writeAfterChange certState
  case' isFalse.isFalse => unfold client12WriteTransition
  all_goals repeat' split
  all_goals first
    | exact announced_other ⟨⟨rfl, rfl⟩, rfl⟩ (by decide) (by decide)
    | exact announced_stop ⟨⟨rfl, rfl⟩, rfl⟩ (by decide)
    | exact announced_stop (retains_tlsSetupHandshake ..) (by decide)
    | exact announced_other { hsetup with } (by decide) (by decide)
    -- the states for KeyUpdate, and another ticket: the state stays the same
    | exact ⟨⟨⟨rfl, rfl⟩, rfl⟩, fun _ hw => by simp_all [writesKeyUpdate]⟩

/-- No step changes the role. -/
theorem sameRole_step (s : Statem) (e : StatemEvent) : SameRole s (s.step e).1 := by
  have hcases := step_cases s e
  generalize (s.step e).1 = s' at hcases
  cases hcases with
  | frame hf => exact ⟨hf.server, hf.dtls⟩
  | enter setup hf _ =>
    exact SameRole.trans ⟨hf.server, hf.dtls⟩ (sameRole_stateMachine setup)
  | verifyClient | send => exact ⟨rfl, rfl⟩
  | @header mt restored sizeOk _ =>
    have h := accepts_readTransition s restored mt
    unfold readHeader
    dsimp only
    repeat' split
    all_goals exact ⟨h.server, h.dtls⟩
  | body => exact ⟨(processes_readBody s _).server, (processes_readBody s _).dtls⟩
  | postProcess hf => exact (round_readPostProcess s _).sameRole
  | @transition renegotiate setup _ =>
    have h := announced_writeTransition s renegotiate setup
    unfold writeTransitionStep
    dsimp only
    split <;> exact ⟨h.server, h.dtls⟩
  | preWork hf => exact (keeps_writePreWork hf _ _ _).1.sameRole
  | postWork hf => exact (round_writePostWork s _).sameRole

end Statem
end QuicTls
