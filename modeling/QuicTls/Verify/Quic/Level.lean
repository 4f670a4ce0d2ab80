import QuicTls.Verify.KeySchedule.Agreement
import QuicTls.Verify.Quic.Erasure

/-!
# Encryption-level discipline of QUIC input

A connection has three levels: the read level that `quic_change_cipher_state` raises, the level of
the last data received, and the levels of the queued messages. `LevelInv` relates them, for input
whose cells carry the level they were supplied at; `run_taggedStep` carries the result over to plain
bytes (`quicInput_levels`). The levels of the key schedule rise because the change-cipher events of
a handshake come in order.
-/

namespace QuicTls

open List

variable {Md : Type} {K : Kdf Md} {level : EncryptionLevel}

/-! ### The levels of the key schedule -/

/-- The level of the keys the server writes with, from an event on. -/
def Which.serverLevel (w : Which) : Option EncryptionLevel :=
  match w.isServerKeys, w.epoch with
  | true, .handshake => some .handshake
  | true, _ => some .application
  | false, _ => none

/-- The level of the keys the client writes with, from an event on. -/
def Which.clientLevel (w : Which) : Option EncryptionLevel :=
  match w.isServerKeys, w.epoch with
  | false, .handshake => some .handshake
  | false, .application => some .application
  | _, _ => none

def Which.readLevel (server : Bool) (w : Which) : Option EncryptionLevel :=
  if server then w.clientLevel else w.serverLevel

def Which.writeLevel (server : Bool) (w : Which) : Option EncryptionLevel :=
  if server then w.serverLevel else w.clientLevel

/-- A level is left alone or set to that of the event. -/
def Moves (level level' : EncryptionLevel) (target : Option EncryptionLevel) : Prop :=
  level' = level ∨ target = some level'

theorem quicLevel_moves (which : Which) (q : Tls13State Md) :
    (quicLevel which q).server = q.server ∧
      Moves q.quicReadLevel (quicLevel which q).quicReadLevel (which.readLevel q.server) ∧
      Moves q.quicWriteLevel (quicLevel which q).quicWriteLevel (which.writeLevel q.server) := by
  obtain ⟨epoch, side, dir⟩ := which
  unfold quicLevel Tls13State.setServerLevel Tls13State.setClientLevel Which.readLevel
    Which.writeLevel Which.serverLevel Which.clientLevel Moves
  cases hk : Which.isServerKeys ⟨epoch, side, dir⟩ <;> cases epoch <;> cases hs : q.server <;>
    simp [hs]

/-- A key operation moves the levels up or leaves them. -/
theorem keyStep_moves {q q' : Tls13State Md} {op : KeyOp Md} (h : keyStep K q op = .ok q') :
    q'.server = q.server ∧
      Moves q.quicReadLevel q'.quicReadLevel (op.event?.bind (·.readLevel q.server)) ∧
      Moves q.quicWriteLevel q'.quicWriteLevel (op.event?.bind (·.writeLevel q.server)) := by
  rcases keyStep_cases h with ⟨which, rfl⟩ | ⟨hev, h', hs, rfl⟩
  · cases hq : q.isQuic with
    | true =>
      rw [keyStep, tls13ChangeCipherState, hq] at h
      obtain ⟨md, hash, -, rfl⟩ := quicChangeCipherState_ok hq h
      obtain ⟨hh, -, -, -, hread, hwrite⟩ := quicDerive_frame md hash which q
      have hm := quicLevel_moves which (quicDerive K md hash which q)
      rw [hh, hread, hwrite] at hm
      exact hm
    | false =>
      obtain ⟨md, hash, -, rfl⟩ := tls13ChangeCipherState_ok hq h
      obtain ⟨hh, -, hread, hwrite⟩ := tlsEffect_frame md hash which q
      exact ⟨by rw [hh], .inl hread, .inl hwrite⟩
  · -- nothing is excluded before the first event
    have hop : Allowed true [] op := by
      cases op with
      | changeCipherState which => cases hev
      | _ => simp [Allowed]
    exact ⟨(handshakeStep_frame hop hs).1, .inl rfl, .inl rfl⟩

theorem handshakeEvents_levels (b : Bool) (hs : Handshake Md) :
    (EncryptionLevel.initial :: (handshakeEvents b hs).filterMap (·.readLevel b)).Pairwise (· ≤ ·) ∧
    (EncryptionLevel.initial :: (handshakeEvents b hs).filterMap (·.writeLevel b)).Pairwise
      (· ≤ ·) := by
  rw [handshakeEvents_eq]
  generalize hs.early = early, hs.deferred = deferred
  revert b early deferred
  decide

/-- The levels an event list still raises `level` to come in order. -/
def InOrder (target : Which → Option EncryptionLevel) (level : EncryptionLevel)
    (events : List Which) : Prop :=
  (level :: events.filterMap target).Pairwise (· ≤ ·)

theorem InOrder.step {target : Which → Option EncryptionLevel} {level' : EncryptionLevel}
    {event : Option Which} {events : List Which} (h : InOrder target level (event.toList ++ events))
    (hm : Moves level level' (event.bind target)) :
    InOrder target level' events ∧ level ≤ level' := by
  obtain ⟨hle, hsorted⟩ := pairwise_cons.mp h
  rw [filterMap_append] at hle hsorted
  rcases hm with rfl | hm
  · exact ⟨pairwise_cons.mpr ⟨fun l hl => hle l (mem_append_right _ hl),
      (pairwise_append.mp hsorted).2.1⟩, le_rfl⟩
  · obtain ⟨w, rfl, hw⟩ := Option.bind_eq_some_iff.mp hm
    simp only [Option.toList_some, filterMap_cons, hw, filterMap_nil] at hle hsorted
    exact ⟨hsorted, hle _ mem_cons_self⟩

/-! ### Input -/

/-- A byte with the level it was supplied at. -/
structure LevelByte where
  level : EncryptionLevel
  byte : UInt8
  deriving DecidableEq, Repr

instance : Cell LevelByte := ⟨LevelByte.byte, ⟨.initial, 0⟩⟩

theorem cellHom_byte : CellHom LevelByte.byte := ⟨fun _ => rfl, rfl⟩

def QuicEvent.tag : QuicEvent Md UInt8 → QuicEvent Md LevelByte
  | .provide alloc level data => .provide alloc level (data.map (.mk level))
  | .getMessage alloc => .getMessage alloc
  | .key op => .key op

/-- A step in which every byte provided is tagged with its level. -/
def taggedStep (K : Kdf Md) (s : SslConnection Md LevelByte) (e : QuicEvent Md UInt8) :
    SslConnection Md LevelByte × QuicResult LevelByte :=
  quicStep K s e.tag

theorem taggedStep_byte (s : SslConnection Md LevelByte) (e : QuicEvent Md UInt8) :
    quicStep K (s.map LevelByte.byte) e =
      Prod.map (.map LevelByte.byte) (.map LevelByte.byte) (taggedStep K s e) := by
  rw [taggedStep, ← quicStep_map s cellHom_byte]
  cases e with
  | provide alloc level data => simp [QuicEvent.tag, QuicEvent.map, Function.comp_def]
  | _ => rfl

theorem run_taggedStep (K : Kdf Md) (s : SslConnection Md LevelByte)
    (es : List (QuicEvent Md UInt8)) :
    Run.run (quicStep K) (s.map LevelByte.byte) es =
      Prod.map (.map LevelByte.byte) (.map (Prod.map id (.map LevelByte.byte)))
        (Run.run (taggedStep K) s es) := by
  simpa using Run.run_map (SslConnection.map LevelByte.byte) id (QuicResult.map LevelByte.byte)
    (taggedStep_byte) s es

/-- The queued messages and the bytes held back were each supplied at one level, in order. -/
structure LevelInv (s : SslConnection Md LevelByte) : Prop where
  sorted : (s.quicInputData.map QuicData.level).Pairwise (· ≤ ·)
  le_latest : ∀ qd ∈ s.quicInputData, qd.level ≤ s.quicLatestLevelReceived
  node : ∀ qd ∈ s.quicInputData, ∀ c ∈ qd.bytes, c.level = qd.level
  buf : ∀ c ∈ contents s.quicBuf, c.level = s.quicLatestLevelReceived

variable {s : SslConnection Md LevelByte}

/-- Data accepted at a level the checks allow. -/
theorem LevelInv.accept (h : LevelInv s) (hl : LevelAccepted s level) (alloc : AllocSite → Bool)
    {data : List LevelByte} (hd : ∀ c ∈ data, c.level = level) :
    LevelInv
      (acceptQuicData alloc { s with quicLatestLevelReceived := level } level data).1 := by
  obtain ⟨n, buf, r, heq, hbuf⟩ :=
    acceptQuicData_cases alloc { s with quicLatestLevelReceived := level } level data
  rw [heq]
  -- the bytes held back are at the new level too, since they stop a change of level
  have hold : ∀ c ∈ contents s.quicBuf, c.level = level := by
    rcases hl.fragment with hnil | rfl
    · simp [hnil]
    · exact h.buf
  have hall : ∀ c ∈ contents s.quicBuf ++ data, c.level = level := fun c hc =>
    (mem_append.mp hc).elim (hold c) (hd c)
  have hflat := (recordCutter LevelByte).split_flatten (contents s.quicBuf ++ data)
  have hmsg : ∀ m ∈ (records (contents s.quicBuf ++ data)).1.take n, ∀ c ∈ m, c.level = level := by
    intro m hm c hc
    refine hall c ?_
    rw [← hflat]
    exact mem_append_left _ (mem_flatten.mpr ⟨m, mem_of_mem_take hm, hc⟩)
  have hle : ∀ qd ∈ s.quicInputData, qd.level ≤ level := fun qd hqd =>
    (h.le_latest qd hqd).trans hl.latest_le
  refine ⟨?_, ?_, ?_, ?_⟩
  · simp only [map_append, map_map]
    refine pairwise_append.mpr ⟨h.sorted, ?_, ?_⟩
    · simp [Function.comp_def]
    · simp only [mem_map]
      rintro _ ⟨qd, hqd, rfl⟩ _ ⟨m, -, rfl⟩
      exact hle qd hqd
  · intro qd hqd
    rcases mem_append.mp hqd with hqd | hqd
    · exact hle qd hqd
    · obtain ⟨m, -, rfl⟩ := mem_map.mp hqd
      exact le_rfl
  · intro qd hqd
    rcases mem_append.mp hqd with hqd | hqd
    · exact h.node qd hqd
    · obtain ⟨m, hm, rfl⟩ := mem_map.mp hqd
      exact hmsg m hm
  · intro c hc
    rcases hbuf with ⟨-, -, hb⟩ | ⟨-, hb | hb⟩
    · refine hall c ?_
      rw [← hflat]
      exact mem_append_right _ (hb ▸ hc)
    · exact hold c (hb ▸ hc)
    · exact hall c (hb ▸ hc)

/-- What one step does to the levels. -/
structure LevelStep (s s' : SslConnection Md LevelByte) (result : QuicResult LevelByte) : Prop where
  read_le : s.keys.quicReadLevel ≤ s'.keys.quicReadLevel
  write_le : s.keys.quicWriteLevel ≤ s'.keys.quicWriteLevel
  latest_le : s.quicLatestLevelReceived ≤ s'.quicLatestLevelReceived
  /-- every byte of a message returned was supplied at the read level in force -/
  message : ∀ msg, result = .message (some msg) → ∀ c ∈ msg, c.level = s.keys.quicReadLevel
  /-- a call rejected for its level has no effect -/
  rejected : result = .provided (.error .wrongEncryptionLevelReceived) → s' = s

def QuicEvent.event? {β : Type} : QuicEvent Md β → Option Which
  | .key op => op.event?
  | _ => none

/-- The levels of a connection in role `b` that is still to see the events `rest`. -/
structure LevelRun (b : Bool) (s : SslConnection Md LevelByte)
    (rest : List (QuicEvent Md UInt8)) : Prop where
  inv : LevelInv s
  server : s.keys.server = b
  read : InOrder (·.readLevel b) s.keys.quicReadLevel (rest.filterMap QuicEvent.event?)
  write : InOrder (·.writeLevel b) s.keys.quicWriteLevel (rest.filterMap QuicEvent.event?)

variable {b : Bool} {rest : List (QuicEvent Md UInt8)}

/-- Providing data keeps the levels in order. -/
theorem LevelRun.provide {alloc : AllocSite → Bool} {data : Bytes}
    (h : LevelRun b s (.provide alloc level data :: rest)) :
    let p := taggedStep K s (.provide alloc level data)
    LevelRun b p.1 rest ∧ LevelStep s p.1 p.2 := by
  have hrun : ∀ s', LevelInv s' → s'.keys = s.keys → LevelRun b s' rest := fun s' hinv hkeys =>
    ⟨hinv, hkeys ▸ h.server, hkeys ▸ h.read, hkeys ▸ h.write⟩
  have hstep : ∀ s' ret, s'.keys = s.keys → s.quicLatestLevelReceived ≤ s'.quicLatestLevelReceived →
      (ret = .error .wrongEncryptionLevelReceived → s' = s) → LevelStep s s' (.provided ret) :=
    fun s' ret hkeys hle hrej => ⟨hkeys ▸ le_rfl, hkeys ▸ le_rfl, hle,
      fun msg hmsg => (nomatch hmsg), fun hret => hrej (by injection hret)⟩
  simp only [taggedStep, QuicEvent.tag, quicStep]
  rcases sslProvideQuicData_cases alloc s level (data.map (.mk level)) with
    ⟨e, -, hp⟩ | ⟨-, hp⟩ | ⟨hl, hp⟩ <;> rw [hp]
  · exact ⟨hrun s h.inv rfl, hstep s _ rfl le_rfl fun _ => rfl⟩
  · exact ⟨hrun s h.inv rfl, hstep s _ rfl le_rfl fun _ => rfl⟩
  have htag : ∀ c ∈ data.map (LevelByte.mk level), c.level = level := by simp
  have hinv := h.inv.accept hl alloc htag
  obtain ⟨n, buf, r, heq, hr⟩ := acceptQuicData_cases alloc
    { s with quicLatestLevelReceived := level } level (data.map (.mk level))
  rw [heq] at hinv ⊢
  refine ⟨hrun _ hinv rfl, hstep _ _ rfl hl.latest_le fun hret => ?_⟩
  rcases hr with ⟨rfl, -⟩ | ⟨rfl, -⟩ <;> cases hret

/-- Reading a message keeps the levels in order. -/
theorem LevelRun.getMessage {alloc : Bool} (h : LevelRun b s (.getMessage alloc :: rest)) :
    let p := taggedStep K s (.getMessage alloc)
    LevelRun b p.1 rest ∧ LevelStep s p.1 p.2 := by
  simp only [taggedStep, QuicEvent.tag, quicStep]
  rcases quicGetMessage_cases alloc s with
    ⟨qd, next, buf, mt, hq, hlevel, -, hbuf, heq⟩ | ⟨reading, buf, fatal, heq⟩
  · rw [heq]
    have hsorted := h.inv.sorted
    have hle := h.inv.le_latest
    have hnode := h.inv.node
    rw [hq] at hsorted hle hnode
    refine ⟨⟨⟨?_, ?_, ?_, h.inv.buf⟩, h.server, h.read, h.write⟩,
      ⟨le_rfl, le_rfl, le_rfl, ?_, (by rintro ⟨⟩)⟩⟩
    · exact (pairwise_cons.mp hsorted).2
    · exact fun qd' h' => hle qd' (mem_cons_of_mem _ h')
    · exact fun qd' h' => hnode qd' (mem_cons_of_mem _ h')
    intro msg hmsg c hc
    simp only [Option.map_some, QuicResult.message.injEq, Option.some.injEq] at hmsg
    rw [← hlevel]
    refine hnode qd mem_cons_self c ?_
    rw [← hbuf, hmsg]
    exact hc
  · rw [heq]
    exact ⟨⟨{ h.inv with }, h.server, h.read, h.write⟩,
      ⟨le_rfl, le_rfl, le_rfl, (by rintro _ ⟨⟩), (by rintro ⟨⟩)⟩⟩

/-- A key operation keeps the levels in order. -/
theorem LevelRun.key {op : KeyOp Md} (h : LevelRun b s (.key op :: rest)) :
    let p := taggedStep K s (.key op)
    LevelRun b p.1 rest ∧ LevelStep s p.1 p.2 := by
  have hevents : (QuicEvent.key op :: rest : List (QuicEvent Md UInt8)).filterMap QuicEvent.event? =
      op.event?.toList ++ rest.filterMap QuicEvent.event? := by
    have hop : (QuicEvent.key op : QuicEvent Md UInt8).event? = op.event? := rfl
    rw [filterMap_cons, hop]
    cases op.event? <;> rfl
  have hread := h.read
  have hwrite := h.write
  rw [hevents] at hread hwrite
  simp only [taggedStep, QuicEvent.tag, quicStep, keyEvent]
  cases hk : keyStep K s.keys op with
  | error e =>
    exact ⟨⟨{ h.inv with }, h.server, (hread.step (.inl rfl)).1, (hwrite.step (.inl rfl)).1⟩,
      ⟨le_rfl, le_rfl, le_rfl, (by rintro _ ⟨⟩), (by rintro ⟨⟩)⟩⟩
  | ok keys =>
    obtain ⟨hserver, hmr, hmw⟩ := keyStep_moves hk
    rw [h.server] at hmr hmw
    obtain ⟨hread', hrle⟩ := hread.step hmr
    obtain ⟨hwrite', hwle⟩ := hwrite.step hmw
    exact ⟨⟨{ h.inv with }, hserver.trans h.server, hread', hwrite'⟩,
      ⟨hrle, hwle, le_rfl, (by rintro _ ⟨⟩), (by rintro ⟨⟩)⟩⟩

theorem LevelRun.step {e : QuicEvent Md UInt8} (h : LevelRun b s (e :: rest)) :
    LevelRun b (taggedStep K s e).1 rest ∧
      LevelStep s (taggedStep K s e).1 (taggedStep K s e).2 := by
  cases e with
  | provide alloc level data => exact h.provide
  | getMessage alloc => exact h.getMessage
  | key op => exact h.key

/-- A connection after `SSL_clear_quic`, about to make the events of a handshake. -/
theorem levelRun_clear (s₀ : SslConnection Md UInt8) (hs : Handshake Md)
    {es : List (QuicEvent Md UInt8)}
    (hes : es.filterMap QuicEvent.event? <+: handshakeEvents s₀.keys.server hs) :
    LevelRun s₀.keys.server ((sslClearQuic s₀).map (LevelByte.mk .initial)) es := by
  obtain ⟨hread, hwrite⟩ := handshakeEvents_levels s₀.keys.server hs
  have hsub (target : Which → Option EncryptionLevel) :
      (EncryptionLevel.initial :: (es.filterMap QuicEvent.event?).filterMap target).Sublist
        (.initial :: (handshakeEvents s₀.keys.server hs).filterMap target) :=
    (hes.sublist.filterMap target).cons_cons _
  refine ⟨⟨List.Pairwise.nil, ?_, ?_, ?_⟩, rfl, hread.sublist (hsub _), hwrite.sublist (hsub _)⟩
  · exact fun qd hqd => nomatch hqd
  · exact fun qd hqd => nomatch hqd
  · exact fun c hc => nomatch hc

theorem levelRun_run (K : Kdf Md) {pre post : List (QuicEvent Md UInt8)}
    (h : LevelRun b s (pre ++ post)) : LevelRun b (Run.run (taggedStep K) s pre).1 post :=
  Run.run_induction (fun s _ rest => LevelRun b s rest)
    (fun _ _ _ _ h => h.step.1) h

/-- **Encryption-level discipline.** Take any run of a connection from `SSL_clear_quic` on, with the
change-cipher events of one handshake in their order, and tag each byte with the level it was
supplied at. The tags change nothing. At every point the queue is sorted by level, below the latest
level received, and each queued message and the bytes held back come from one level. In every step
the three levels do not fall, a message returned was supplied at the read level, and data rejected
for its level has no effect. -/
theorem quicInput_levels (K : Kdf Md) (s₀ : SslConnection Md UInt8) (hs : Handshake Md)
    (es : List (QuicEvent Md UInt8)) (e : QuicEvent Md UInt8)
    (hes : (es ++ [e]).filterMap QuicEvent.event? <+: handshakeEvents s₀.keys.server hs) :
    let plain := Run.run (quicStep K) (sslClearQuic s₀) es
    let tagged := Run.run (taggedStep K) ((sslClearQuic s₀).map (LevelByte.mk .initial)) es
    let next := taggedStep K tagged.1 e
    tagged.1.map LevelByte.byte = plain.1 ∧
      (next.1.map LevelByte.byte, next.2.map LevelByte.byte) = quicStep K plain.1 e ∧
      LevelInv tagged.1 ∧ LevelInv next.1 ∧ LevelStep tagged.1 next.1 next.2 := by
  have herase : ((sslClearQuic s₀).map (LevelByte.mk .initial)).map LevelByte.byte =
      sslClearQuic s₀ := by
    simp [SslConnection.map, sslClearQuic, BufMem.map, Function.comp_def]
  have hrun := run_taggedStep K ((sslClearQuic s₀).map (LevelByte.mk .initial)) es
  rw [herase] at hrun
  have hlevel := levelRun_run K (levelRun_clear s₀ hs hes)
  intro plain tagged next
  have hplain : tagged.1.map LevelByte.byte = plain.1 := (congrArg Prod.fst hrun).symm
  refine ⟨hplain, ?_, hlevel.inv, hlevel.step.1.inv, hlevel.step.2⟩
  rw [← hplain]
  exact (taggedStep_byte tagged.1 e).symm

/-- A server: the ClientHello comes at the initial level, the client's Finished in two parts at the
handshake level, with the start of another message. The Finished message is returned at the
handshake level, and data at the initial level is refused from then on. -/
theorem quicInput_levels_refused :
    let s₀ := SslConnection.new UInt8 (Tls13State.new Unit true (some ⟨fun _ _ _ _ => true⟩))
    let es : List (QuicEvent Unit UInt8) :=
      [.provide (fun _ => true) .initial [1, 0, 0, 1, 9], .getMessage true,
        .key (.chooseCipher ⟨some (), true⟩), .key (.gensecret (some [7])), .key .setupKeyBlock,
        .key (.changeCipherState (serverKeys true .handshake)),
        .key (.changeCipherState (clientKeys true .handshake)),
        .provide (fun _ => true) .handshake [20, 0, 0, 2, 5],
        .provide (fun _ => true) .handshake [6, 20, 0]]
    let late : QuicEvent Unit UInt8 := .provide (fun _ => true) .initial [0, 0]
    let tagged := Run.run (taggedStep (.concat Unit))
      ((sslClearQuic s₀).map (LevelByte.mk .initial)) es
    let got := taggedStep (.concat Unit) tagged.1 (.getMessage true)
    let next := taggedStep (.concat Unit) tagged.1 late
    LevelInv tagged.1 ∧ (contents tagged.1.quicBuf).map LevelByte.level = [.handshake, .handshake] ∧
      got.2 = .message (some ([20, 0, 0, 2, 5, 6].map (LevelByte.mk .handshake))) ∧
      tagged.1.keys.quicReadLevel = .handshake ∧ LevelInv got.1 ∧
      next.2 = .provided (.error .wrongEncryptionLevelReceived) ∧ next.1 = tagged.1 := by
  intro s₀ es late tagged got next
  have h (e : QuicEvent Unit UInt8) (he : e.event? = none) :=
    quicInput_levels (.concat Unit) s₀ ⟨false, false, false, none, ⟨some (), true⟩, some [7]⟩ es e
      (by rw [filterMap_append, filterMap_cons_none he]; decide)
  have hgot := h (.getMessage true) rfl
  have hrej : next.2 = .provided (.error .wrongEncryptionLevelReceived) := by decide +kernel
  exact ⟨hgot.2.2.1, by decide +kernel, by decide +kernel, by decide +kernel, hgot.2.2.2.1, hrej,
    (h late rfl).2.2.2.2.rejected hrej⟩

end QuicTls
