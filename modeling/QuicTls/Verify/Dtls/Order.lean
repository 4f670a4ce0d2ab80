import QuicTls.Verify.Dtls.Delivery

/-!
# Messages are delivered in order

When all fragments are parts of the messages of one sender, the messages that are delivered are the
first messages of that sender, whatever is lost, repeated or reordered on the way (`dtls_in_order`).
-/

namespace QuicTls

open Run Pqueue List

/-- The fragment is a part of the message with its number, and has contents unless the message has
none. It does not begin the handshake again after a HelloVerifyRequest. -/
structure DtlsReceived.Honest (msgs : List (UInt8 × Bytes)) (f : DtlsReceived) : Prop where
  part : ∃ m, msgs[f.msgHdr.seq]? = some m ∧ f.msgHdr.type = m.1 ∧ f.msgHdr.msgLen = m.2.length ∧
    f.msgHdr.fragOff + f.msgHdr.fragLen ≤ m.2.length ∧
    f.body = (m.2.drop f.msgHdr.fragOff).take f.msgHdr.fragLen ∧ (0 < f.msgHdr.fragLen ∨ m.2 = [])
  chretran : f.chretran = false

instance (msgs : List (UInt8 × Bytes)) (f : DtlsReceived) : Decidable (f.Honest msgs) :=
  decidable_of_iff ((∃ m ∈ msgs[f.msgHdr.seq]?, _) ∧ _)
    ⟨fun h => ⟨h.1, h.2⟩, fun h => ⟨h.part, h.chretran⟩⟩

/-- The type and the contents of a handshake message. -/
def DtlsMessage.handshake? : DtlsMessage → Option (UInt8 × Bytes)
  | .changeCipherSpec => none
  | .handshake type _ _ _ body => some (type, body)

section

variable {msgs : List (UInt8 × Bytes)} {received : List DtlsReceived}

theorem noEmptyFragment_of_honest (h : ∀ f ∈ received, f.Honest msgs) :
    NoEmptyFragment received := by
  intro f hf _ hzero
  obtain ⟨m, -, -, hlen, -, -, hne⟩ := (h f hf).part
  rw [hlen, hne.resolve_left (by omega)]
  rfl

variable {body : Bytes} {seq : Nat}

/-- A complete message whose fragments are honest is the sender's. -/
theorem DtlsMessage.Complete.eq {type : UInt8} {msgLen len : Nat}
    (hc : (DtlsMessage.handshake type seq msgLen len body).Complete received)
    (h : ∀ f ∈ received, f.Honest msgs) : msgs[seq]? = some (type, body) := by
  obtain ⟨-, hbody, ⟨f, hf, hseq, htype, hmsgLen⟩, hsrc⟩ := hc
  obtain ⟨m, hm, hmtype, hmlen, -⟩ := (h f hf).part
  rw [hseq] at hm
  have heq : body = m.2 := by
    refine ext_getElem? fun i => ?_
    rcases Nat.lt_or_ge i msgLen with hi | hi
    · obtain ⟨g, hg, ⟨hgseq, hoff, hend⟩, hbyte⟩ := hsrc i hi
      obtain ⟨m', hm', -, -, -, hgbody, -⟩ := (h g hg).part
      rw [hgseq, hm] at hm'
      cases hm'
      rw [hbyte, hgbody, getElem?_take_of_lt (by omega), getElem?_drop, Nat.add_sub_cancel' hoff]
    · rw [getElem?_eq_none (by omega), getElem?_eq_none (by omega)]
  rw [hm, heq, ← htype, hmtype]

end

namespace Dtls

variable {s s' : Dtls} {mem : DtlsMemory} {handState : DtlsHandState} {r : Reassembled}
  {msgs : List (UInt8 × Bytes)} {pq : Pqueue HmFragment}

/-- Complete messages in the queue are still to come. -/
def Fresh (readSeq : Nat) (pq : Pqueue HmFragment) : Prop :=
  ∀ item ∈ pq, item.data.reassembly = none → readSeq ≤ item.data.msgHeader.seq

variable {received : List DtlsReceived} {item : PItem HmFragment}

theorem Items.key_eq (h : Items received pq) (hwf : Wellformed received) (hi : item ∈ pq) :
    key item = item.data.msgHeader.seq := by
  obtain ⟨hprio, hitem⟩ := h item hi
  rw [key, hprio, decode_seq64be (seq_lt_of_assembled hitem hwf)]

variable {x : PItem HmFragment}

theorem seq_lt_of_sorted
    (h : Items received (item :: pq)) (hwf : Wellformed received) (hs : Sorted (item :: pq))
    (hx : x ∈ pq) : item.data.msgHeader.seq < x.data.msgHeader.seq := by
  have hlt := (pairwise_cons.1 hs.lt).1 x hx
  rwa [h.key_eq hwf mem_cons_self, h.key_eq hwf (mem_cons_of_mem _ hx)] at hlt

variable {pq' : Pqueue HmFragment} {hdr : HmHeader}

theorem QueueStep.of_mem {body : Bytes} (h : QueueStep pq hdr body pq')
    (hitems : Items received pq) (hwf : Wellformed received) (hseq : hdr.seq < 2 ^ 16)
    (hx : x ∈ pq') : x ∈ pq ∨ x.data.msgHeader.seq = hdr.seq := by
  cases h with
  | same => exact .inl hx
  | whole _ _ hins | start _ _ _ _ hins =>
    rcases (mem_pqueueInsert hins).1 hx with rfl | hx
    exacts [.inr rfl, .inl hx]
  | extend _ hfind =>
    obtain ⟨hmem, hcmp⟩ := pqueueFind_eq_some hfind
    obtain ⟨hprio, hitem⟩ := hitems _ hmem
    rw [hprio] at hcmp
    have := seq_eq_of_memcmp hseq (seq_lt_of_assembled hitem hwf) hcmp
    rcases mem_update hx with hx | ⟨hdata, -⟩
    · exact .inl hx
    · rw [hdata]
      exact .inr this

theorem QueueStep.sorted {body : Bytes}
    (h : QueueStep pq hdr body pq') (hs : Sorted pq) : Sorted pq' := by
  cases h with
  | same => exact hs
  | whole _ _ hins | start _ _ _ _ hins => exact hs.pqueueInsert rfl hins
  | extend => exact hs.update

/-- When nothing is retrieved, no complete message in the queue is the one waited for. -/
theorem fresh_of_retrieve_none (h : Inv s) (hs : Sorted s.bufferedMessages)
    (hfresh : Fresh s.handshakeReadSeq s.bufferedMessages)
    (hnone : (s.retrieveBufferedFragment mem handState).2 = .none) :
    Fresh (s.handshakeReadSeq + 1)
      (s.retrieveBufferedFragment mem handState).1.bufferedMessages := by
  have hsuffix := s.skipStale_suffix handState s.bufferedMessages
  have hitems := h.items.suffix hsuffix
  have hsorted := hs.suffix hsuffix
  have hfresh' : Fresh s.handshakeReadSeq (s.skipStale handState s.bufferedMessages).1 :=
    fun item hi => hfresh item (hsuffix.subset hi)
  obtain ⟨hqueue, hhead⟩ := retrieveBufferedFragment_eq_none hnone
  rw [hqueue]
  cases hskip : (s.skipStale handState s.bufferedMessages).2 with
  | none =>
    rw [skipStale_eq_none hskip]
    exact nofun
  | some found =>
    obtain ⟨frag, chretran⟩ := found
    obtain ⟨item, rest, hqueue, rfl, hseq⟩ := skipStale_eq_some hskip
    rw [hqueue] at hitems hsorted hfresh' ⊢
    have hrest (x : PItem HmFragment) (hx : x ∈ rest) :=
      seq_lt_of_sorted hitems h.wellformed hsorted hx
    intro x hx hcomplete
    rcases mem_cons.1 hx with rfl | hx
    · obtain ⟨-, hne⟩ := (hhead _ _ hskip).resolve_left (not_not.2 hcomplete)
      exact Nat.lt_of_le_of_ne (hfresh' x mem_cons_self hcomplete) hne
    cases chretran with
    | false => exact Nat.lt_of_le_of_lt hseq (hrest x hx)
    | true =>
      -- the head is the first ClientHello again, and the next one is not the one we wait for
      obtain ⟨hzero, hone, hnext⟩ := hseq
      cases rest with
      | nil => cases hx
      | cons next rest =>
        have hlt := hrest next mem_cons_self
        have hne := hnext next rfl
        rcases mem_cons.1 hx with rfl | hx
        · omega
        · have := seq_lt_of_sorted (fun i hi => hitems i (mem_cons_of_mem _ hi)) h.wellformed
            (hsorted.suffix (suffix_cons ..)) hx
          omega

/-- The messages so far are the first ones, and the counter says how many there are. -/
structure InOrder (msgs : List (UInt8 × Bytes)) (s : Dtls) (ms : List (UInt8 × Bytes)) :
    Prop where
  sorted : Sorted s.bufferedMessages
  fresh : Fresh s.handshakeReadSeq s.bufferedMessages
  messages : ms <+: msgs
  count : s.handshakeReadSeq = ms.length

variable {ms : List (UInt8 × Bytes)}

section

variable (ho : InOrder msgs s ms) (h : Inv s) (hhonest : ∀ f ∈ s'.received, f.Honest msgs)
include ho h hhonest

/-- An attempt without a message keeps the order. -/
theorem InOrder.attempt (ha : Attempt mem handState s s' r) (hr : r ≠ .message) :
    InOrder msgs s' ms := by
  cases ha with
  | quiet _ hread _ hsuffix =>
    refine ⟨ho.sorted.suffix hsuffix, fun item hi => ?_, ho.messages, hread.trans ho.count⟩
    rw [hread]
    exact ho.fresh item (hsuffix.subset hi)
  | @fragment _ f pq _ hread hrec hwf hsuffix hstep hnew =>
    have hf := mem_received hrec
    refine ⟨hstep.sorted (ho.sorted.suffix hsuffix), fun item hi hcomplete => ?_, ho.messages,
      hread.trans ho.count⟩
    rw [hread]
    rcases hstep.of_mem (h.items.suffix hsuffix) h.wellformed (hwf f (mem_singleton_self _)).2
      hi with hold | hseq
    · exact ho.fresh item (hsuffix.subset hold) hcomplete
    rcases hnew with hle | hchr | hsame
    · exact hseq ▸ hle
    · rw [(hhonest f hf).chretran] at hchr
      cases hchr
    · rw [hsame] at hi
      exact ho.fresh item (hsuffix.subset hi) hcomplete
  | queued | whole => exact absurd rfl hr

/-- A message that is found has the next number. -/
theorem InOrder.found (ha : Attempt mem handState s s' .message) :
    s'.rMsgHdr.seq = ms.length ∧ s'.handshakeReadSeq = ms.length ∧ Sorted s'.bufferedMessages ∧
      Fresh (ms.length + 1) s'.bufferedMessages := by
  rw [← ho.count]
  cases ha with
  | quiet _ _ _ _ hr | fragment _ _ _ _ _ _ _ hr => exact absurd rfl hr
  | @queued item pq chretran _ _ hsuffix hqueue hcomplete hcounter hbuf =>
    have hle := ho.fresh item (hsuffix.subset mem_cons_self) hcomplete
    cases chretran with
    | true => exact absurd hcounter.1 (Nat.not_lt.2 hle)
    | false =>
      obtain ⟨hseq, hread⟩ := hcounter
      have hsorted := ho.sorted.suffix hsuffix
      rw [hqueue]
      refine ⟨hbuf.seq.trans hseq, hread, hsorted.suffix (suffix_cons ..), fun x hx _ => ?_⟩
      rw [← hseq]
      exact seq_lt_of_sorted (h.items.suffix hsuffix) h.wellformed hsorted hx
  | @whole f _ hrec _ _ hnone hqueue hsuffix hcounter _ hbuf =>
    have hf := mem_received hrec
    rw [(hhonest f hf).chretran] at hcounter
    obtain ⟨hseq, hread⟩ := hcounter
    refine ⟨hbuf.seq.trans hseq, hread, ho.sorted.suffix hsuffix, ?_⟩
    rw [hqueue]
    exact fresh_of_retrieve_none h ho.sorted ho.fresh hnone

/-- Delivering it adds the next message of the sender. -/
theorem InOrder.deliver (ha : Attempt mem handState s s' .message) (hmsgs : msgs.length < 2 ^ 16) :
    InOrder msgs s'.deliver.1 (ms ++ s'.deliver.2.handshake?.toList) := by
  obtain ⟨hseq, hread, hsorted, hfresh⟩ := ho.found h hhonest ha
  have hready := h.ready ha (noEmptyFragment_of_honest hhonest)
  have hm := DtlsMessage.Complete.eq hready.deliver hhonest
  rw [hseq] at hm
  obtain ⟨hlt, hget⟩ := List.getElem?_eq_some_iff.1 hm
  have hcount : (s'.handshakeReadSeq + 1) % 2 ^ 16 = ms.length + 1 := by
    omega
  refine ⟨hsorted, ?_, ?_, ?_⟩
  · show Fresh ((s'.handshakeReadSeq + 1) % 2 ^ 16) s'.bufferedMessages
    rw [hcount]
    exact hfresh
  · rw [prefix_iff_eq_take.1 ho.messages]
    show msgs.take ms.length ++ [_] <+: msgs
    rw [← hget, take_append_getElem hlt]
    exact take_prefix ..
  · show (s'.handshakeReadSeq + 1) % 2 ^ 16 = _
    rw [hcount, length_append]
    rfl

end

/-- A call delivers the next message or none. -/
theorem InOrder.getMessageLoop (mem : Nat → DtlsMemory) {fuel : Nat}
    {res : Dtls × Option DtlsMessage} (ho : InOrder msgs s ms)
    (h : Inv s) (hres : getMessageLoop mem handState fuel s = some res)
    (hhonest : ∀ f ∈ res.1.received, f.Honest msgs) (hmsgs : msgs.length < 2 ^ 16) :
    InOrder msgs res.1 (ms ++ (res.2.bind DtlsMessage.handshake?).toList) := by
  induction fuel generalizing s with
  | zero => cases hres
  | succ fuel ih =>
    have ha := s.getReassembledMessage_attempt (mem fuel) handState h.fragOff h.max h.current
    have hinv := h.attempt ha
    unfold Dtls.getMessageLoop at hres
    dsimp only at hres
    split at hres
    · rename_i hr
      have hcall := getMessageLoop_call mem hinv hres
      exact ih (ho.attempt h (fun f hf => hhonest f (hcall.received hf)) ha
        (by rw [hr]; exact nofun)) hinv hres
    · rename_i hr
      cases hres
      rw [Option.bind_none, Option.toList_none, append_nil]
      exact ho.attempt h hhonest ha (by rw [hr]; exact nofun)
    · rename_i hr
      cases hres
      rw [Option.bind_some, DtlsMessage.handshake?, Option.toList_none, append_nil]
      exact ho.attempt h hhonest ha (by rw [hr]; exact nofun)
    · rename_i hr
      cases hres
      rw [hr] at ha
      exact ho.deliver h hhonest ha hmsgs

theorem InOrder.getMessage (mem : Nat → DtlsMemory) (ho : InOrder msgs s ms) (h : Inv s)
    (hhonest : ∀ f ∈ (s.getMessage handState mem).1.received, f.Honest msgs)
    (hmsgs : msgs.length < 2 ^ 16) :
    InOrder msgs (s.getMessage handState mem).1
      (ms ++ ((s.getMessage handState mem).2.bind DtlsMessage.handshake?).toList) := by
  obtain ⟨res, hres, heq⟩ := h.getMessage_eq handState mem
  rw [heq] at hhonest ⊢
  have ho' : InOrder msgs { s with rMsgHdr := .zero } ms := { ho with }
  have h' : Inv { s with rMsgHdr := .zero } := { h with fragOff := rfl }
  exact ho'.getMessageLoop mem h' hres hhonest hmsgs

end Dtls

open Dtls

/-- The handshake messages in a log, with their types and contents. -/
def handshakes (log : List (Event × Option DtlsMessage)) : List (UInt8 × Bytes) :=
  (delivered log).filterMap DtlsMessage.handshake?

theorem handshakes_concat (log : List (Event × Option DtlsMessage)) (e : Event)
    (m : Option DtlsMessage) :
    handshakes (log ++ [(e, m)]) = handshakes log ++ (m.bind DtlsMessage.handshake?).toList := by
  unfold handshakes delivered
  rw [filterMap_append, filterMap_append]
  cases m with
  | none => rfl
  | some m =>
    cases h : m.handshake? <;> simp [h]

section

variable {server : Bool} {maxCertList : Nat} {events : List Event} {msgs : List (UInt8 × Bytes)}

/-- What was delivered in a run, as long as all fragments are honest. -/
theorem run_inOrder (hmsgs : msgs.length < 2 ^ 16)
    (hhonest : ∀ f ∈ (run step (init server maxCertList) events).1.received, f.Honest msgs) :
    InOrder msgs (run step (init server maxCertList) events).1
      (handshakes (run step (init server maxCertList) events).2) := by
  -- the fragments of a state are among those of the states after it
  refine (run_invariant (fun s log => Inv s ∧ ((∀ f ∈ s.received, f.Honest msgs) →
    InOrder msgs s (handshakes log))) (fun _ => True) ?_ (fun _ _ => trivial)
    ⟨inv_init .., fun _ => ⟨sorted_nil, nofun, nil_prefix, rfl⟩⟩).2 hhonest
  intro s log e _ ⟨h, ho⟩
  rw [handshakes_concat]
  cases e with
  | record rr =>
    refine ⟨{ h with }, fun hhonest => ?_⟩
    show InOrder msgs _ (handshakes log ++ [])
    rw [append_nil]
    exact { ho hhonest with }
  | getMessage mem handState =>
    have hcall := h.getMessage handState mem
    refine ⟨hcall.inv, fun hhonest => ?_⟩
    exact (ho fun f hf => hhonest f (hcall.received hf)).getMessage mem h hhonest hmsgs

/-- Whatever happens to the fragments on the way: the messages that are delivered are the first of
fewer than 2 ^ 16 messages of the sender, each one once and with its type and contents, and
`handshake_read_seq` counts them. -/
theorem dtls_in_order (hmsgs : msgs.length < 2 ^ 16)
    (hhonest : ∀ f ∈ (run step (init server maxCertList) events).1.received, f.Honest msgs) :
    handshakes (run step (init server maxCertList) events).2 <+: msgs ∧
    (run step (init server maxCertList) events).1.handshakeReadSeq
      = (handshakes (run step (init server maxCertList) events).2).length := by
  have ho := run_inOrder hmsgs hhonest
  exact ⟨ho.messages, ho.count⟩

end

/-- A Certificate, a ServerKeyExchange and a ServerHelloDone. -/
def flight : List (UInt8 × Bytes) := [(11, [1, 2, 3, 4, 5]), (12, [6, 7]), (14, [])]

/-- The second message comes before the end of the first, in parts and the last part first. A part
of the first message comes twice and one of the second again when it has been delivered; the last
message is lost. -/
def flightEvents : List Event :=
  [.record (fragmentRecord 12 2 1 1 [7] (by decide)),
    .record (fragmentRecord 11 5 0 3 [4, 5] (by decide)), .getMessage plenty .other,
    .record (fragmentRecord 12 2 1 0 [6] (by decide)),
    .record (fragmentRecord 11 5 0 3 [4, 5] (by decide)),
    .record (fragmentRecord 11 5 0 0 [1, 2, 3] (by decide)), .getMessage plenty .other,
    .getMessage plenty .other, .record (fragmentRecord 12 2 1 1 [7] (by decide)),
    .getMessage plenty .other]

theorem dtls_in_order_flight :
    let r := run step (init false 0) flightEvents
    handshakes r.2 = flight.take 2 ∧ r.1.received.length = 6 ∧
      handshakes r.2 <+: flight ∧ r.1.handshakeReadSeq = (handshakes r.2).length := by
  intro r
  have h : (∀ f ∈ r.1.received, f.Honest flight) ∧ handshakes r.2 = flight.take 2 ∧
      r.1.received.length = 6 := by
    decide +kernel
  exact ⟨h.2.1, h.2.2, dtls_in_order (by decide) h.1⟩

/-- Messages without contents that come one after the other, each one fetched at once. -/
def emptyMessages (n : Nat) : List Event :=
  (List.range n).flatMap fun i =>
    [.record (fragmentRecord 14 0 (i % 2 ^ 16) 0 [] (Nat.zero_le _)), .getMessage plenty .other]

theorem emptyMessages_succ (n : Nat) : emptyMessages (n + 1) =
    emptyMessages n ++ [.record (fragmentRecord 14 0 (n % 2 ^ 16) 0 [] (Nat.zero_le _)),
      .getMessage plenty .other] := by
  rw [emptyMessages, range_succ, flatMap_append, ← emptyMessages, flatMap_singleton]

/-- A run that delivers `n` empty messages; the counter wraps. -/
theorem run_emptyMessages (n : Nat) :
    let r := run step (init false 0) (emptyMessages n)
    Waiting r.1 ∧ r.1.handshakeReadSeq = n % 2 ^ 16 ∧ handshakes r.2 = List.replicate n (14, []) ∧
      ∀ f ∈ r.1.received, ∃ i < n, f = ⟨⟨14, 0, i % 2 ^ 16, 0, 0⟩, [], true, false⟩ := by
  induction n with
  | zero => exact ⟨⟨rfl, rfl, rfl⟩, rfl, rfl, nofun⟩
  | succ n ih =>
    obtain ⟨hw, hread, hms, hrec⟩ := ih
    obtain ⟨b, hb⟩ := run_emptyFragment hw (Nat.mod_lt n (by decide)) hread.symm (Nat.zero_le _)
      (show (14 : UInt8) ≠ mtHelloRequest by decide)
    rw [emptyMessages_succ, run_append, hb]
    refine ⟨{ hw with }, ?_, ?_, ?_⟩
    · dsimp only
      omega
    · dsimp only
      rw [append_cons, handshakes_concat, handshakes_concat, hms, replicate_succ',
        Option.bind_none, Option.toList_none, append_nil]
      rfl
    · intro f hf
      rcases mem_append.1 hf with hf | hf
      · obtain ⟨i, hi, rfl⟩ := hrec f hf
        exact ⟨i, Nat.lt_succ_of_lt hi, rfl⟩
      · exact ⟨n, Nat.lt_succ_self n, mem_singleton.1 hf⟩

theorem honest_empty {n seq : Nat} (h : seq < n) :
    DtlsReceived.Honest (List.replicate n (14, [])) ⟨⟨14, 0, seq, 0, 0⟩, [], true, false⟩ :=
  ⟨⟨(14, []), getElem?_replicate_of_lt h, rfl, rfl, Nat.le_refl _, rfl, .inr rfl⟩, rfl⟩

/-- The first of 2 ^ 16 messages is delivered again after the last one. -/
theorem dtls_in_order_wraps :
    let r := run step (init false 0) (emptyMessages (2 ^ 16 + 1))
    (∀ f ∈ r.1.received, f.Honest (List.replicate (2 ^ 16) (14, []))) ∧
      ¬handshakes r.2 <+: List.replicate (2 ^ 16) (14, []) := by
  obtain ⟨-, -, hms, hrec⟩ := run_emptyMessages (2 ^ 16 + 1)
  refine ⟨fun f hf => ?_, fun hprefix => ?_⟩
  · obtain ⟨i, -, rfl⟩ := hrec f hf
    exact honest_empty (Nat.mod_lt i (by decide))
  · have hle := hprefix.length_le
    rw [hms, length_replicate, length_replicate] at hle
    omega

end QuicTls
