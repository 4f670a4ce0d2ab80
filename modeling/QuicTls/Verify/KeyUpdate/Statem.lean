import QuicTls.Verify.Statem.Role

/-!
# KeyUpdate in the state machine

Where the state machine is with a KeyUpdate message (`Phase`), and what each step does to that and
to `key_update`.
-/

namespace QuicTls

/-- The flow is not in the course of a message. -/
def MsgFlow.Apart : MsgFlow → Prop
  | .reading .body | .writing .preWork | .writing (.send _) | .writing .postWork => False
  | _ => True

/-- The events that neither write nor read a message. -/
def StatemEvent.IsQuiet : StatemEvent → Prop
  | .header _ _ _ | .keyUpdate _ | .preWork _ _ _ | .send | .postWork _ | .body _ => False
  | _ => True

namespace Statem

variable {s s' : Statem} {restored : Bool} {mt : MessageType} {b : Body} {w : Work}

theorem stateMachine_keyUpdate (s : Statem) (setup : Bool) :
    (s.stateMachine setup).keyUpdate = s.keyUpdate ∨ (s.stateMachine setup).keyUpdate = .none := by
  unfold stateMachine
  repeat' split
  case _ => exact .inl rfl
  case _ => exact .inl rfl
  case _ => exact .inr (retains_startHandshake ..).keyUpdate
  case _ => exact .inl (retains_startHandshake ..).keyUpdate
  case _ => exact .inl (retains_startHandshake ..).keyUpdate
  case _ => exact .inl rfl

theorem Stays.writesKeyUpdate (h : Stays s s') : s'.writesKeyUpdate = s.writesKeyUpdate := by
  rw [Statem.writesKeyUpdate, Statem.writesKeyUpdate, h.handState, h.server]

theorem postWork_keyUpdateState (hw : s.writesKeyUpdate = true) (w : Work) :
    s.postWork w = s.flushed w := by
  have hh : s.handState = if s.server then .swKeyUpdate else .cwKeyUpdate := of_decide_eq_true hw
  unfold postWork serverPostWork clientPostWork
  split
  · rw [if_pos ‹_›] at hh
    rw [hh]
  · rw [if_neg ‹_›] at hh
    rw [hh]

theorem processMessage_keyUpdateState (hr : s.readsKeyUpdate = true) (b : Body) :
    s.processMessage b = s.tlsProcessKeyUpdate b := by
  have hh : s.handState = if s.server then .srKeyUpdate else .crKeyUpdate := of_decide_eq_true hr
  unfold processMessage serverProcessMessage clientProcessMessage
  split
  · rw [if_pos ‹_›] at hh
    rw [hh]
  · rw [if_neg ‹_›] at hh
    rw [hh]

/-! ### Phases -/

/-- Where the state machine is with a KeyUpdate message: it has composed one that it has not sent
yet, it has sent one that is not flushed yet, or it has read one that it has not processed yet. -/
inductive Phase where
  | closed
  | idle
  | composed
  | unflushed
  | unprocessed
  deriving DecidableEq

def phase (s : Statem) : Phase :=
  match s.flow with
  | .error => .closed
  | .writing (.send mt) => if mt = .keyUpdate then .composed else .idle
  | .writing .postWork => if s.writesKeyUpdate then .unflushed else .idle
  | .reading .body => if s.readsKeyUpdate then .unprocessed else .idle
  | _ => .idle

/-- The message that waits to be sent is the one of the state, and a KeyUpdate is composed only
when one is announced. -/
structure Composing (s : Statem) : Prop where
  send : ∀ mt, s.flow = .writing (.send mt) → (mt = .keyUpdate ↔ s.writesKeyUpdate = true)
  announced : s.flow = .writing .preWork → s.writesKeyUpdate = true → s.keyUpdate ≠ .none

theorem Composing.of_apart (hf : s.flow.Apart) : Composing s := by
  constructor
  · intro mt h
    rw [h] at hf
    exact hf.elim
  · intro h
    rw [h] at hf
    exact hf.elim

/-- A step that neither writes nor reads a KeyUpdate message, nor asks for one. -/
structure Quiet (s s' : Statem) : Prop where
  composing : Composing s → Composing s'
  phase : s'.phase = s.phase ∨ s'.phase = .closed
  keyUpdate : s'.keyUpdate = s.keyUpdate ∨ s'.keyUpdate = .none

theorem quiet_of_same (hf : s'.flow = s.flow) (hh : s'.handState = s.handState)
    (hs : s'.server = s.server) (hk : s'.keyUpdate = s.keyUpdate) : Quiet s s' := by
  have hw : s'.writesKeyUpdate = s.writesKeyUpdate := by
    rw [writesKeyUpdate, writesKeyUpdate, hh, hs]
  have hr : s'.readsKeyUpdate = s.readsKeyUpdate := by
    rw [readsKeyUpdate, readsKeyUpdate, hh, hs]
  refine ⟨fun hc => ⟨?_, ?_⟩, .inl (by simp only [Statem.phase, hf, hw, hr]), .inl hk⟩
  · rw [hf, hw]
    exact hc.send
  · rw [hf, hw, hk]
    exact hc.announced

theorem Quiet.trans {t : Statem} (h : Quiet s s') (h' : Quiet s' t) : Quiet s t where
  composing hc := h'.composing (h.composing hc)
  phase := by
    rcases h'.phase with hp | hp
    · rw [hp]
      exact h.phase
    · exact .inr hp
  keyUpdate := by
    rcases h'.keyUpdate with hk | hk
    · rw [hk]
      exact h.keyUpdate
    · exact .inr hk

theorem phase_idle_of_apart (hf : s.flow.Apart) (hne : s.flow ≠ .error) : s.phase = .idle := by
  unfold phase
  split <;> simp_all [MsgFlow.Apart]

theorem quiet_of_apart (hs : s.phase = .idle) (hf : s'.flow.Apart)
    (hk : s'.keyUpdate = s.keyUpdate ∨ s'.keyUpdate = .none) : Quiet s s' where
  composing _ := .of_apart hf
  phase := by
    by_cases he : s'.flow = .error
    · exact .inr (by simp only [Statem.phase, he])
    · exact .inl ((phase_idle_of_apart hf he).trans hs.symm)
  keyUpdate := hk

theorem apart_stateMachine (setup : Bool) (hf : s.flow = .uninited ∨ s.flow = .finished) :
    (s.stateMachine setup).flow.Apart := by
  have hstart (t : Statem) (fresh : Bool) : (t.startHandshake fresh setup).flow.Apart := by
    unfold startHandshake
    dsimp only
    repeat' split
    all_goals trivial
  unfold stateMachine
  repeat' split
  all_goals first
    | exact hstart ..
    | rcases hf with h | h <;> simp_all [MsgFlow.Apart]

theorem quiet_stateMachine (s : Statem) (setup : Bool) : Quiet s (s.stateMachine setup) := by
  by_cases hf : s.flow = .uninited ∨ s.flow = .finished
  · have hidle : s.phase = .idle := by rcases hf with h | h <;> simp only [phase, h]
    exact quiet_of_apart hidle (apart_stateMachine setup hf) (stateMachine_keyUpdate s setup)
  · have hs : s.stateMachine setup = s := by
      unfold stateMachine
      split <;> simp_all
    rw [hs]
    exact quiet_of_same rfl rfl rfl rfl

theorem quiet_checkFinishInit (s : Statem) (sending : Option Bool) :
    Quiet s (s.checkFinishInit sending) := by
  unfold checkFinishInit
  repeat' split
  all_goals exact quiet_of_same rfl rfl rfl rfl

theorem Round.quiet {fs : List MsgFlow} (hr : Round fs s s') (hs : s.phase = .idle)
    (hfs : ∀ f ∈ fs, f.Apart) : Quiet s s' := by
  rcases hr.flow with heq | hf
  · rw [heq]
    exact quiet_of_same rfl rfl rfl rfl
  · exact quiet_of_apart hs (hfs _ hf) (.inl hr.keyUpdate)

theorem quiet_writeTransitionStep (hf : s.flow = .writing .transition) (renegotiate setup : Bool) :
    Quiet s (s.writeTransitionStep renegotiate setup) := by
  have hidle : s.phase = .idle := by simp only [phase, hf]
  have hann := announced_writeTransition s renegotiate setup
  have hk := hann.keyUpdate
  unfold writeTransitionStep
  dsimp only
  split
  case h_1 => exact quiet_of_apart hidle trivial (.inl hk)
  case h_2 => exact quiet_of_apart hidle trivial (.inl hk)
  case h_3 h =>
    refine ⟨fun _ => ⟨nofun, fun _ hw => ?_⟩, .inl hidle.symm, .inl hk⟩
    rw [hk]
    exact hann.announced h hw

/-- Most events have nothing to do with key updates. -/
theorem quiet_step {e : StatemEvent} (he : e.IsQuiet) : Quiet s (s.step e).1 := by
  cases e with
  | header | keyUpdate | preWork | send | postWork | body => exact he.elim
  | app => exact quiet_of_same rfl rfl rfl rfl
  | call sending setup =>
    simp only [step]
    split
    · exact (quiet_checkFinishInit s sending).trans (quiet_stateMachine _ setup)
    · exact quiet_checkFinishInit s sending
  | record setup | writeDue setup =>
    have hinit : Quiet s { s with inInit := true } := quiet_of_same rfl rfl rfl rfl
    simp only [step]
    split
    all_goals first
      | exact hinit.trans (quiet_stateMachine _ setup)
      | exact quiet_of_same rfl rfl rfl rfl
  | renegotiate | renegotiateCheck | verifyClient =>
    simp only [step]
    split <;> exact quiet_of_same rfl rfl rfl rfl
  | postProcess w =>
    simp only [step]
    split
    · rename_i hf
      exact (round_readPostProcess s w).quiet (by simp only [phase, hf]) (by simp [MsgFlow.Apart])
    · exact quiet_of_same rfl rfl rfl rfl
  | transition renegotiate setup =>
    simp only [step]
    split
    · exact quiet_writeTransitionStep ‹_› renegotiate setup
    · exact quiet_of_same rfl rfl rfl rfl

/-! ### Steps that write or read a message -/

/-- Pre-work either composes the KeyUpdate message that was announced or has nothing to do with
one. -/
theorem writePreWork_cases (hf : s.flow = .writing .preWork) (w : Work) (send ok : Bool) :
    Quiet s (s.writePreWork w send ok) ∧ (s.writePreWork w send ok).phase ≠ .composed ∨
    s.writesKeyUpdate = true ∧ (s.writePreWork w send ok).flow = .writing (.send .keyUpdate)
      ∧ (s.writePreWork w send ok).writesKeyUpdate = true
      ∧ (s.writePreWork w send ok).keyUpdate = .none := by
  have hidle : s.phase = .idle := by simp only [phase, hf]
  have hpre := works_preWork s w
  have hk := hpre.keyUpdate
  have hw := hpre.toStays.writesKeyUpdate
  have hclosed (t : Statem) (ht : t.keyUpdate = s.keyUpdate ∨ t.keyUpdate = .none) :
      Quiet s t.fatal ∧ t.fatal.phase ≠ .composed :=
    ⟨quiet_of_apart hidle trivial ht, by rintro ⟨⟩⟩
  unfold writePreWork
  dsimp only
  split
  case h_1 => exact .inl (hclosed _ (.inl hk))
  case h_2 h =>
    rw [hpre.more h]
    exact .inl ⟨quiet_of_same rfl rfl rfl rfl, by rw [hidle]; rintro ⟨⟩⟩
  case h_3 =>
    exact .inl ⟨quiet_of_apart hidle trivial (.inl hk), by rintro ⟨⟩⟩
  case h_4 =>
    split
    · exact .inl (hclosed _ (.inl hk))
    rename_i t o hc
    have hcons := constructs_constructMessage hc
    have hwt : t.writesKeyUpdate = s.writesKeyUpdate := hcons.toStays.writesKeyUpdate.trans hw
    have hmessage : o = some .keyUpdate ↔ s.writesKeyUpdate = true := by
      rw [← hw]
      exact hcons.message.trans decide_eq_true_iff.symm
    have hkt : t.keyUpdate = if s.writesKeyUpdate then .none else s.keyUpdate := by
      rw [hcons.keyUpdate, hk, if_congr hmessage rfl rfl]
    split
    · refine .inl (hclosed t ?_)
      rw [hkt]
      split
      · exact .inr rfl
      · exact .inl rfl
    cases hs : s.writesKeyUpdate with
    | true =>
      cases hmessage.mpr hs
      rw [hs] at hwt hkt
      exact .inr ⟨rfl, rfl, hwt, hkt⟩
    | false =>
      rw [hs] at hwt hkt
      have ho : o ≠ some .keyUpdate := fun h => by cases (hmessage.mp h).symm.trans hs
      refine .inl ?_
      split
      · have hp : ({ t with flow := .writing .postWork } : Statem).phase = .idle := by
          show (if t.writesKeyUpdate then Phase.unflushed else .idle) = _
          rw [hwt]
          rfl
        refine ⟨⟨fun _ => ⟨nofun, nofun⟩, .inl (hp.trans hidle.symm), .inl hkt⟩, ?_⟩
        rw [hp]
        rintro ⟨⟩
      · rename_i mt
        have hmt : mt ≠ .keyUpdate := fun h => ho (by rw [h])
        have hp : ({ t with flow := .writing (.send mt) } : Statem).phase = .idle := by
          simp only [phase, if_neg hmt]
        refine ⟨⟨fun _ => ⟨?_, by rintro ⟨⟩⟩, .inl (hp.trans hidle.symm), .inl hkt⟩, ?_⟩
        · intro m hm
          cases hm
          have hwt' : ({ t with flow := .writing (.send mt) } : Statem).writesKeyUpdate = false :=
            hwt
          rw [hwt']
          exact ⟨fun h => absurd h hmt, by rintro ⟨⟩⟩
        · rw [hp]
          rintro ⟨⟩

theorem send_phase {mt : MessageType} (hc : Composing s) (hf : s.flow = .writing (.send mt)) :
    ({ s with flow := .writing .postWork } : Statem).phase
      = if mt = .keyUpdate then .unflushed else .idle := by
  have hiff := hc.send mt hf
  show (if s.writesKeyUpdate then Phase.unflushed else .idle) = _
  by_cases hmt : mt = .keyUpdate
  · rw [if_pos hmt, if_pos (hiff.mp hmt)]
  · rw [if_neg hmt, if_neg fun h => hmt (hiff.mpr h)]

/-- Post-work either ends a KeyUpdate message or has nothing to do with one. -/
theorem writePostWork_cases (hf : s.flow = .writing .postWork) (w : Work) :
    s.writesKeyUpdate = true ∧ (s.postWork w).2 = .finishedContinue
      ∧ (s.writePostWork w).flow = .writing .transition
      ∧ (s.writePostWork w).keyUpdate = s.keyUpdate ∨
    ¬ (s.writesKeyUpdate = true ∧ (s.postWork w).2 = .finishedContinue)
      ∧ Quiet s (s.writePostWork w) := by
  cases hs : s.writesKeyUpdate with
  | true =>
    rw [writePostWork, postWork_keyUpdateState hs]
    cases w with
    | fail =>
      exact .inr ⟨nofun, ⟨fun _ => .of_apart trivial, .inr rfl, .inl rfl⟩⟩
    | retry => exact .inr ⟨nofun, quiet_of_same rfl rfl rfl rfl⟩
    | done => exact .inl ⟨rfl, rfl, rfl, rfl⟩
  | false =>
    have hidle : s.phase = .idle := by simp only [phase, hf, hs]; rfl
    exact .inr ⟨nofun, (round_writePostWork s w).quiet hidle (by simp [MsgFlow.Apart])⟩

theorem readTransition_flow (hf : s.flow = .reading .header) (mt : MessageType) (restored : Bool) :
    (s.readTransition restored mt).1.flow = .error ∨
      (s.readTransition restored mt).1.flow = .reading .header := by
  rcases (accepts_readTransition s restored mt).flow with h | h
  · exact .inr (h.trans hf)
  · exact .inl h.2

/-- A message that arrives is refused, or it is the KeyUpdate message that will be processed, or it
is another message. -/
theorem readHeader_phase (hf : s.flow = .reading .header) (mt : MessageType)
    (restored sizeOk : Bool) :
    (s.readHeader mt restored sizeOk).phase = .closed ∨ (s.readHeader mt restored sizeOk).phase
      = if mt = .keyUpdate then .unprocessed else .idle := by
  have hacc := accepts_readTransition s restored mt
  have hrefused : (s.readTransition restored mt).2 = false →
      (s.readTransition restored mt).1.flow = .error ∨ mt = .changeCipherSpec := by
    have hunexp (r : Statem × Bool) : (unexpected mt r).2 = false →
        (unexpected mt r).1.flow = .error ∨ mt = .changeCipherSpec := by
      unfold unexpected
      split
      · simp_all
      · split
        · exact fun _ => .inr (‹_ ∧ mt = _›).2
        · exact fun _ => .inl rfl
    unfold readTransition serverReadTransition clientReadTransition
    split <;> exact hunexp _
  unfold readHeader
  dsimp only
  cases hr : (s.readTransition restored mt).2 with
  | false =>
    rw [if_pos (show (!false) = true from rfl)]
    rcases readTransition_flow hf mt restored with h | h
    · exact .inl (by simp only [phase, h])
    · rcases hrefused hr with he | hmt
      · rw [h] at he
        cases he
      · have hne : mt ≠ .keyUpdate := by rw [hmt]; nofun
        exact .inr (by simp only [phase, h, if_neg hne])
  | true =>
    rw [if_neg (show ¬ (!true) = true from nofun)]
    split
    · exact .inl rfl
    refine .inr ?_
    have hreads := hacc.reads hr
    show (if (s.readTransition restored mt).1.readsKeyUpdate then Phase.unprocessed else .idle) = _
    rw [hreads]
    by_cases hmt : mt = .keyUpdate
    · rw [if_pos hmt, if_pos (decide_eq_true hmt)]
    · rw [if_neg hmt, if_neg (by simpa using hmt)]

theorem composing_readHeader (hf : s.flow = .reading .header) (mt : MessageType)
    (restored sizeOk : Bool) : Composing (s.readHeader mt restored sizeOk)
      ∧ (s.readHeader mt restored sizeOk).keyUpdate = s.keyUpdate := by
  have hk := (accepts_readTransition s restored mt).keyUpdate
  unfold readHeader
  dsimp only
  repeat' split
  · refine ⟨?_, hk⟩
    rcases readTransition_flow hf mt restored with h | h <;>
      exact .of_apart (by rw [h]; trivial)
  · exact ⟨⟨nofun, nofun⟩, hk⟩
  · exact ⟨⟨nofun, nofun⟩, hk⟩

/-- A message is processed: a KeyUpdate with success, or one that is refused or another message. -/
theorem readBody_cases (hf : s.flow = .reading .body) (b : Body) :
    s.readsKeyUpdate = true ∧ (s.processMessage b).2 ≠ .error
      ∧ (s.readBody b).flow = .writing .transition
      ∧ (s.readBody b).keyUpdate = (if b.updateRequested then .notRequested else s.keyUpdate) ∨
    ¬ (s.readsKeyUpdate = true ∧ (s.processMessage b).2 ≠ .error) ∧ Quiet s (s.readBody b) := by
  cases hs : s.readsKeyUpdate with
  | true =>
    rw [readBody, processMessage_keyUpdateState hs, tlsProcessKeyUpdate]
    split
    · exact .inr ⟨fun h => absurd rfl h.2, ⟨fun _ => .of_apart trivial, .inr rfl, .inl rfl⟩⟩
    · split <;> exact .inl ⟨rfl, by rintro ⟨⟩, rfl, rfl⟩
  | false =>
    have hidle : s.phase = .idle := by simp only [phase, hf, hs]; rfl
    have hk := (processes_processMessage s b).keyUpdate (of_decide_eq_false hs)
    refine .inr ⟨by rintro ⟨⟨⟩, -⟩, ?_⟩
    unfold readBody
    dsimp only
    split <;> exact quiet_of_apart hidle trivial (.inl hk)

end Statem
end QuicTls
