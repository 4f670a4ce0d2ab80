import QuicTls.Theory.Run
import QuicTls.Ssl.KeyEvents
import QuicTls.Verify.Quic.Input

/-!
# QUIC input is framed without loss and independently of chunking

A run of a QUIC connection interleaves `SSL_provide_quic_data` calls of the transport with the state
machine's `quic_get_message` calls and steps of the key schedule. `Framed` is the invariant of runs
without allocation failures: the messages returned and queued, and what is left in `quic_buf`, are
what the framing rule makes of the bytes accepted so far (`quicInput_chunking`).
-/

namespace QuicTls

open List

inductive QuicEvent (Md β : Type) where
  | provide (alloc : AllocSite → Bool) (level : EncryptionLevel) (data : List β)
  | getMessage (alloc : Bool)
  | key (op : KeyOp Md)

inductive QuicResult (β : Type) where
  | provided (ret : Except SslReason Unit)
  | message (msg : Option (List β))
  | key
  deriving DecidableEq

section

variable {Md β : Type} [Cell β] (K : Kdf Md) {level : EncryptionLevel}

/-- A step of the key schedule; one that fails leaves the connection in the error state. -/
def keyEvent (s : SslConnection Md β) (op : KeyOp Md) : SslConnection Md β :=
  match keyStep K s.keys op with
  | .ok keys => { s with keys := keys }
  | .error e => { s with fatal := some e }

def quicStep (s : SslConnection Md β) : QuicEvent Md β → SslConnection Md β × QuicResult β
  | .provide alloc level data =>
    ((sslProvideQuicData alloc s level data).1, .provided (sslProvideQuicData alloc s level data).2)
  | .getMessage alloc =>
    ((quicGetMessage alloc s).1,
      .message ((quicGetMessage alloc s).2.map fun _ => (quicGetMessage alloc s).1.initBuf.data))
  | .key op => (keyEvent K s op, .key)

abbrev QuicLog (Md β : Type) := List (QuicEvent Md β × QuicResult β)

/-- The bytes of one entry of the log that were accepted. -/
def acceptedBy : QuicEvent Md β × QuicResult β → List β
  | (.provide _ _ data, .provided (.ok ())) => data
  | _ => []

def receivedBy : QuicEvent Md β × QuicResult β → List (List β)
  | (_, .message (some msg)) => [msg]
  | _ => []

/-- All data accepted, in order. -/
def accepted (log : QuicLog Md β) : List β := log.flatMap acceptedBy

/-- All messages returned, in order. -/
def received (log : QuicLog Md β) : List (List β) := log.flatMap receivedBy

/-- The event does not run out of memory. -/
def QuicEvent.MemoryAvailable : QuicEvent Md β → Prop
  | .provide alloc _ _ => ∀ a, alloc a = true
  | .getMessage alloc => alloc = true
  | .key _ => True

/-- The messages returned and queued and the bytes held back are those of the accepted stream. -/
structure Framed (s : SslConnection Md β) (log : QuicLog Md β) : Prop where
  messages : received log ++ s.quicInputData.map QuicData.bytes = (records (accepted log)).1
  rest : contents s.quicBuf = (records (accepted log)).2

variable {K} {s : SslConnection Md β} {log : QuicLog Md β} {e : QuicEvent Md β}

omit [Cell β] in
theorem accepted_concat (log : QuicLog Md β) (x) :
    accepted (log ++ [x]) = accepted log ++ acceptedBy x := by
  simp [accepted]

omit [Cell β] in
theorem received_concat (log : QuicLog Md β) (x) :
    received (log ++ [x]) = received log ++ receivedBy x := by
  simp [received]

variable {s' : SslConnection Md β}

/-- A step that accepts and returns nothing and leaves the input as it is. -/
theorem Framed.frame (h : Framed s log) {x}
    (hq : s'.quicInputData = s.quicInputData) (hb : contents s'.quicBuf = contents s.quicBuf)
    (ha : acceptedBy x = []) (hr : receivedBy x = []) : Framed s' (log ++ [x]) where
  messages := by
    rw [accepted_concat, received_concat, ha, hr, append_nil, append_nil, hq]
    exact h.messages
  rest := by
    rw [accepted_concat, ha, append_nil, hb]
    exact h.rest

/-- A step that frames `data` after the bytes held back. -/
theorem Framed.accept (h : Framed s log) {x} {data : List β}
    (hq : s'.quicInputData.map QuicData.bytes =
      s.quicInputData.map QuicData.bytes ++ (records (contents s.quicBuf ++ data)).1)
    (hb : contents s'.quicBuf = (records (contents s.quicBuf ++ data)).2)
    (ha : acceptedBy x = data) (hr : receivedBy x = []) : Framed s' (log ++ [x]) := by
  have happ : records (accepted log ++ data) = ((records (accepted log)).1 ++ _, _) :=
    Cutter.split_append (accepted log) data
  rw [← h.rest, ← h.messages] at happ
  refine ⟨?_, ?_⟩
  · rw [accepted_concat, received_concat, ha, hr, append_nil, hq, happ, append_assoc]
  · rw [accepted_concat, ha, happ]
    exact hb

/-- Data that is provided is framed. -/
theorem Framed.provide (h : Framed s log) {alloc : AllocSite → Bool}
    (halloc : ∀ a, alloc a = true) (level : EncryptionLevel) (data : List β) :
    Framed (sslProvideQuicData alloc s level data).1
      (log ++ [(.provide alloc level data,
        .provided (sslProvideQuicData alloc s level data).2)]) := by
  rcases sslProvideQuicData_cases alloc s level data with ⟨e, -, hp⟩ | ⟨rfl, hp⟩ | ⟨-, hp⟩ <;>
    rw [hp]
  · exact h.frame rfl rfl rfl rfl
  · exact h.frame rfl rfl rfl rfl
  rcases acceptQuicData_ok halloc { s with quicLatestLevelReceived := level } level data with
    hok | hfail
  · obtain ⟨n, buf, r, heq, hr⟩ :=
      acceptQuicData_cases alloc { s with quicLatestLevelReceived := level } level data
    rw [heq] at hok ⊢
    rcases hr with ⟨rfl, rfl, hbuf⟩ | ⟨rfl, -⟩
    · refine h.accept ?_ hbuf rfl rfl
      simp [Function.comp_def]
    · cases hok
  · rw [hfail]
    exact h.frame rfl rfl rfl rfl

theorem Framed.getMessage (h : Framed s log) (alloc : Bool) :
    Framed (quicGetMessage alloc s).1 (log ++ [(.getMessage alloc,
      .message ((quicGetMessage alloc s).2.map fun _ =>
        (quicGetMessage alloc s).1.initBuf.data))]) := by
  rcases quicGetMessage_cases alloc s with
    ⟨qd, next, buf, mt, hq, -, -, hbuf, heq⟩ | ⟨reading, buf, fatal, heq⟩
  · rw [heq]
    refine ⟨?_, ?_⟩
    · rw [accepted_concat, received_concat, acceptedBy, append_nil, ← h.messages, hq]
      · simp [receivedBy, hbuf]
      · intros; simp_all
    · rw [accepted_concat, acceptedBy, append_nil]
      · exact h.rest
      · intros; simp_all
  · rw [heq]
    exact h.frame rfl rfl rfl rfl

theorem Framed.key (h : Framed s log) (op : KeyOp Md) :
    Framed (keyEvent K s op) (log ++ [(.key op, .key)]) := by
  unfold keyEvent
  cases keyStep K s.keys op with
  | ok keys | error e => exact h.frame rfl rfl rfl rfl

theorem Framed.step (h : Framed s log) (he : e.MemoryAvailable) :
    Framed (quicStep K s e).1 (log ++ [(e, (quicStep K s e).2)]) := by
  cases e with
  | provide alloc level data => exact h.provide he level data
  | getMessage alloc => exact h.getMessage alloc
  | key op => exact h.key op

variable {es : List (QuicEvent Md β)}

/-- **Framing invariant.** It holds along every run without allocation failures. -/
theorem framed_run (hq : s.quicInputData = []) (hb : contents s.quicBuf = [])
    (hes : ∀ e ∈ es, e.MemoryAvailable) :
    Framed (Run.run (quicStep K) s es).1 (Run.run (quicStep K) s es).2 := by
  refine Run.run_invariant Framed QuicEvent.MemoryAvailable
    (fun s log e he h => h.step he) hes ⟨?_, ?_⟩
  · rw [hq]; rfl
  · rw [hb]; rfl

/-! ### Streams at one level -/

/-- A handshake message: a header with the length of the body that follows it. -/
def IsMessage (m : List β) : Prop :=
  ssl3HmHeaderLength ≤ m.length ∧ m.length = ssl3HmHeaderLength + n2l3 m

variable {xs : List β}

theorem isMessage_of_mem_records {m : List β} (h : m ∈ (records xs).1) : IsMessage m := by
  obtain ⟨rest, hrest⟩ := Cutter.isFrame_of_mem_split h
  obtain ⟨-, -, hlen⟩ := recordCut_eq_some.mp hrest
  have hge : ssl3HmHeaderLength ≤ m.length := by rw [hlen]; exact Nat.le_add_left ..
  rw [n2l3_append hge] at hlen
  exact ⟨hge, by rw [Nat.add_comm]; exact hlen⟩

/-- The data the event provides, if it provides any, is at `level`. -/
def QuicEvent.AtLevel (level : EncryptionLevel) : QuicEvent Md β → Prop
  | .provide _ l _ => l = level
  | _ => True

/-- At one level, all queued data is of that level. -/
theorem level_step (he : e.AtLevel level) (h : ∀ qd ∈ s.quicInputData, qd.level = level) :
    ∀ qd ∈ (quicStep K s e).1.quicInputData, qd.level = level := by
  cases e with
  | provide alloc l data =>
    obtain rfl : l = level := he
    rcases sslProvideQuicData_cases alloc s l data with ⟨e, -, hp⟩ | ⟨-, hp⟩ | ⟨-, hp⟩
    · simpa only [quicStep, hp] using h
    · simpa only [quicStep, hp] using h
    obtain ⟨n, buf, r, heq, -⟩ :=
      acceptQuicData_cases alloc { s with quicLatestLevelReceived := l } l data
    simp only [quicStep, hp, heq, mem_append, mem_map]
    rintro qd (hqd | ⟨m, -, rfl⟩)
    · exact h qd hqd
    · rfl
  | getMessage alloc =>
    rcases quicGetMessage_cases alloc s with
      ⟨qd, next, buf, mt, hq, -, -, -, heq⟩ | ⟨reading, buf, fatal, heq⟩
    · simp only [quicStep, heq]
      exact fun qd' hqd' => h qd' (hq ▸ mem_cons_of_mem _ hqd')
    · simpa only [quicStep, heq] using h
  | key op =>
    simp only [quicStep, keyEvent]
    cases keyStep K s.keys op <;> exact h

omit [Cell β] in
/-- Queues at one level are determined by the payloads of their nodes. -/
theorem queue_ext {q q' : List (QuicData β)} (hq : ∀ qd ∈ q, qd.level = level)
    (hq' : ∀ qd ∈ q', qd.level = level) (h : q.map QuicData.bytes = q'.map QuicData.bytes) :
    q = q' := by
  induction q generalizing q' with
  | nil => exact (map_eq_nil_iff.mp h.symm).symm
  | cons qd q ih =>
    cases q' with
    | nil => cases h
    | cons qd' q' =>
      simp only [map_cons, List.cons.injEq] at h
      simp only [mem_cons, forall_eq_or_imp] at hq hq'
      have hhd : qd = qd' := by
        cases qd; cases qd'
        exact congrArg₂ _ (hq.1.trans hq'.1.symm) h.1
      rw [hhd, ih hq.2 hq'.2 h.2]

theorem level_run (hq : s.quicInputData = []) (hes : ∀ e ∈ es, e.AtLevel level) :
    ∀ qd ∈ (Run.run (quicStep K) s es).1.quicInputData, qd.level = level :=
  Run.run_invariant (fun (s : SslConnection Md β) _ => ∀ qd ∈ s.quicInputData, qd.level = level)
    (QuicEvent.AtLevel level) (fun _ _ _ he h => level_step he h) hes (by simp [hq])

/-- QUIC input is neither lost, duplicated nor reordered, every node is one handshake message, and
the nodes and the contents of `quic_buf` depend only on the bytes accepted and the number of
messages taken, not on how the bytes were cut into calls. -/
theorem quicInput_chunking (K : Kdf Md) (level : EncryptionLevel) (s : SslConnection Md β)
    (hq : s.quicInputData = []) (hb : contents s.quicBuf = []) (es : List (QuicEvent Md β))
    (hes : ∀ e ∈ es, e.MemoryAvailable ∧ e.AtLevel level) :
    let r := Run.run (quicStep K) s es
    (received r.2).flatten ++ (r.1.quicInputData.map QuicData.bytes).flatten ++
        contents r.1.quicBuf = accepted r.2 ∧
      (∀ qd ∈ r.1.quicInputData, IsMessage qd.bytes) ∧
      ∀ (s' : SslConnection Md β) (es' : List (QuicEvent Md β)),
        s'.quicInputData = [] → contents s'.quicBuf = [] →
        (∀ e ∈ es', e.MemoryAvailable ∧ e.AtLevel level) →
        let r' := Run.run (quicStep K) s' es'
        accepted r'.2 = accepted r.2 → contents r'.1.quicBuf = contents r.1.quicBuf ∧
            ((received r'.2).length = (received r.2).length →
              r'.1.quicInputData = r.1.quicInputData) := by
  have hF := framed_run (K := K) hq hb fun e he => (hes e he).1
  have hL := level_run (K := K) hq fun e he => (hes e he).2
  refine ⟨?_, ?_, ?_⟩
  · rw [← flatten_append, hF.messages, hF.rest]
    exact Cutter.split_flatten _
  · intro qd hqd
    apply isMessage_of_mem_records
    rw [← hF.messages]
    exact mem_append_right _ (mem_map_of_mem hqd)
  intro s' es' hq' hb' hes' r' hacc
  have hF' := framed_run (K := K) hq' hb' fun e he => (hes' e he).1
  have hL' := level_run (K := K) hq' fun e he => (hes' e he).2
  refine ⟨by rw [hF'.rest, hF.rest, hacc], fun hlen => ?_⟩
  have hmsgs := hF'.messages.trans (hacc ▸ hF.messages.symm)
  exact queue_ext hL' hL (append_inj_right hmsgs hlen)

/-- A message in two calls and in one. -/
theorem quicInput_chunking_two_calls :
    let s := SslConnection.new UInt8 (.new Unit false (some ⟨fun _ _ _ _ => true⟩))
    let cut : List (QuicEvent Unit UInt8) := [.provide (fun _ => true) .initial [2, 0, 0],
      .provide (fun _ => true) .initial [1, 7, 5], .getMessage true]
    let whole : List (QuicEvent Unit UInt8) :=
      [.provide (fun _ => true) .initial [2, 0, 0, 1, 7, 5], .getMessage true]
    contents (Run.run (quicStep (.concat Unit)) s whole).1.quicBuf =
      contents (Run.run (quicStep (.concat Unit)) s cut).1.quicBuf := by
  intro s cut whole
  have hcut : ∀ e ∈ cut, e.MemoryAvailable ∧ e.AtLevel .initial := by
    simp [cut, QuicEvent.MemoryAvailable, QuicEvent.AtLevel]
  have hwhole : ∀ e ∈ whole, e.MemoryAvailable ∧ e.AtLevel .initial := by
    simp [whole, QuicEvent.MemoryAvailable, QuicEvent.AtLevel]
  have hacc : accepted (Run.run (quicStep (.concat Unit)) s whole).2 =
      accepted (Run.run (quicStep (.concat Unit)) s cut).2 := by decide
  obtain ⟨-, -, h⟩ := quicInput_chunking (.concat Unit) .initial s rfl rfl cut hcut
  exact (h s whole rfl rfl hwhole hacc).1

/-! ### Messages held back -/

/-- A strict prefix of one handshake message. -/
def IsPartialMessage (xs : List β) : Prop :=
  xs.length < ssl3HmHeaderLength ∨ xs.length < ssl3HmHeaderLength + n2l3 xs

instance (xs : List β) : Decidable (IsPartialMessage xs) := inferInstanceAs (Decidable (_ ∨ _))

/-- Whole messages, the last of which has an empty body. -/
def EndsInEmptyMessage (xs : List β) : Prop :=
  ∃ (ms : List (List β)) (m : List β), (∀ m ∈ ms, IsMessage m) ∧ IsMessage m ∧
    m.length = ssl3HmHeaderLength ∧ xs = ms.flatten ++ m

/-- Whole messages are cut off as long as something follows them. -/
theorem records_flatten_append {ms : List (List β)} (hms : ∀ m ∈ ms, IsMessage m)
    (hxs : xs ≠ []) : records (ms.flatten ++ xs) = (ms ++ (records xs).1, (records xs).2) := by
  induction ms with
  | nil => rfl
  | cons m ms ih =>
    simp only [mem_cons, forall_eq_or_imp] at hms
    obtain ⟨⟨hge, hlen⟩, hms⟩ := hms
    have hpos : 0 < (ms.flatten ++ xs).length := by
      rw [length_append]
      exact Nat.lt_of_lt_of_le (length_pos_iff.mpr hxs) (Nat.le_add_left ..)
    have hcut : (recordCutter β).cut (m ++ (ms.flatten ++ xs)) = some m.length := by
      refine recordCut_eq_some.mpr ?_
      rw [length_append, n2l3_append hge]
      omega
    rw [flatten_cons, append_assoc, records, Cutter.split_of_some hcut, take_left,
      drop_left, show (recordCutter β).split (ms.flatten ++ xs) = _ from ih hms]
    rfl

/-- What the framing rule leaves is a partial message, except for a message with an empty body at
the end of the stream. -/
theorem isPartialMessage_rest (xs : List β) :
    IsPartialMessage (records xs).2 ↔ ¬EndsInEmptyMessage xs := by
  have hcut : recordCut (records xs).2 = none := (recordCutter β).cut_split_rest xs
  constructor
  · rintro hpart ⟨ms, m, hms, ⟨-, hm⟩, hlen, rfl⟩
    have hne : m ≠ [] := by rintro rfl; cases hlen
    have hm0 : recordCut m = none := recordCut_eq_none.mpr (.inl (Nat.le_of_eq hlen))
    rw [records_flatten_append hms hne, records, Cutter.split_of_none hm0] at hpart
    rcases hpart with h | h
    · exact absurd hlen (Nat.ne_of_lt h)
    · exact absurd hm (Nat.ne_of_lt h)
  · intro hends
    refine Classical.byContradiction fun hpart => hends ?_
    rw [IsPartialMessage, not_or, Nat.not_lt] at hpart
    have hlen : (records xs).2.length = ssl3HmHeaderLength := by
      rcases recordCut_eq_none.mp hcut with h | h <;> omega
    refine ⟨(records xs).1, (records xs).2, fun m hm => isMessage_of_mem_records hm, ⟨?_, ?_⟩, hlen,
      (Cutter.split_flatten xs).symm⟩ <;> omega

/-- A message without a body that ends the data stays in `quic_buf`. -/
theorem quicInput_emptyMessage_heldBack :
    let s := SslConnection.new UInt8 (.new Unit false (some ⟨fun _ _ _ _ => true⟩))
    let r := sslProvideQuicData (fun _ => true) s .initial [5, 0, 0, 0]
    r.2 = .ok () ∧ ¬IsPartialMessage (contents r.1.quicBuf) ∧ (quicGetMessage true r.1).2 = none :=
  ⟨rfl, by decide, rfl⟩

/-- Exactly when a complete message is held back: after a successful call the contents of `quic_buf`
are a strict prefix of one message unless the stream ends in a message with an empty body. -/
theorem quicInput_heldBack (K : Kdf Md) :
    (∀ s : SslConnection Md β, s.quicInputData = [] → contents s.quicBuf = [] →
      ∀ es : List (QuicEvent Md β), (∀ e ∈ es, e.MemoryAvailable) →
        let r := Run.run (quicStep K) s es
        IsPartialMessage (contents r.1.quicBuf) ↔ ¬EndsInEmptyMessage (accepted r.2)) ∧
    ∀ (alloc : AllocSite → Bool) (s : SslConnection Md β) (level : EncryptionLevel)
      (data : List β), data ≠ [] → (sslProvideQuicData alloc s level data).2 = .ok () →
        (IsPartialMessage (contents (sslProvideQuicData alloc s level data).1.quicBuf) ↔
          ¬EndsInEmptyMessage (contents s.quicBuf ++ data)) := by
  refine ⟨fun s hq hb es hes => ?_, fun alloc s level data hdata hok => ?_⟩
  · have hF := framed_run (K := K) hq hb hes
    intro r
    rw [hF.rest]
    exact isPartialMessage_rest _
  rcases sslProvideQuicData_cases alloc s level data with ⟨e, -, hp⟩ | ⟨rfl, -⟩ | ⟨-, hp⟩
  · rw [hp] at hok; cases hok
  · exact absurd rfl hdata
  obtain ⟨n, buf, r, heq, hr⟩ :=
    acceptQuicData_cases alloc { s with quicLatestLevelReceived := level } level data
  rw [hp, heq] at hok ⊢
  rcases hr with ⟨-, -, hbuf⟩ | ⟨rfl, -⟩
  · rw [hbuf]
    exact isPartialMessage_rest _
  · cases hok

theorem quicInput_heldBack_body :
    let s := SslConnection.new UInt8 (.new Unit false (some ⟨fun _ _ _ _ => true⟩))
    let es : List (QuicEvent Unit UInt8) :=
      [.provide (fun _ => true) .initial [2, 0, 0, 1, 7], .provide (fun _ => true) .initial [5, 0]]
    ¬EndsInEmptyMessage (accepted (Run.run (quicStep (.concat Unit)) s es).2) := by
  intro s es
  refine ((quicInput_heldBack (.concat Unit)).1 s rfl rfl es ?_).mp (by decide)
  simp [es, QuicEvent.MemoryAvailable]

end

end QuicTls
