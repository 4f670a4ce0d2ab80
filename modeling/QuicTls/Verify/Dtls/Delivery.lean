import QuicTls.Theory.Run
import QuicTls.Verify.Dtls.Attempt

/-!
# Delivered messages are complete

A message that `dtls_get_message` returns consists of received fragments with its number
(`dtls_delivers_complete`). The one exception is a fragment without contents for a message with
contents: when it comes in sequence it is taken for the whole message.
-/

namespace QuicTls

open Run List

instance (f : DtlsReceived) (seq i : Nat) : Decidable (f.Covers seq i) :=
  inferInstanceAs (Decidable (_ ∧ _ ∧ _))

/-- The message has the length that its header says, and each byte was received. -/
def DtlsMessage.Complete (received : List DtlsReceived) : DtlsMessage → Prop
  | .changeCipherSpec => True
  | .handshake type seq msgLen len body => len = msgLen ∧ body.length = msgLen ∧
    (∃ f ∈ received, f.msgHdr.seq = seq ∧ f.msgHdr.type = type ∧ f.msgHdr.msgLen = msgLen) ∧
    ∀ i < msgLen, Sourced received seq body i

theorem DtlsMessage.Complete.mono {received received' : List DtlsReceived} {m : DtlsMessage}
    (h : m.Complete received) (hsub : received ⊆ received') : m.Complete received' := by
  cases m with
  | changeCipherSpec => trivial
  | handshake =>
    obtain ⟨hlen, hbody, ⟨f, hf, hhdr⟩, hsrc⟩ := h
    exact ⟨hlen, hbody, ⟨f, hsub hf, hhdr⟩, fun i hi => (hsrc i hi).mono hsub⟩

/-- No message with contents is announced in sequence by a fragment without contents. -/
def NoEmptyFragment (received : List DtlsReceived) : Prop :=
  ∀ f ∈ received, f.inSequence = true → f.msgHdr.fragLen = 0 → f.msgHdr.msgLen = 0

instance (received : List DtlsReceived) : Decidable (NoEmptyFragment received) :=
  inferInstanceAs (Decidable (∀ f ∈ received, _))

namespace Dtls

variable {s s' : Dtls} {mem : DtlsMemory} {handState : DtlsHandState} {r : Reassembled}

/-- What holds of the connection between two rounds. -/
structure Inv (s : Dtls) : Prop where
  items : Items s.received s.bufferedMessages
  wellformed : Wellformed s.received
  fragOff : s.rMsgHdr.fragOff = 0
  max : ssl3RtMaxPlainLength ≤ s.initBuf.max
  current : s.current.length ≤ ssl3RtMaxPlainLength

/-- A complete message is in `init_buf`. -/
structure Ready (s : Dtls) : Prop where
  initNum : s.initNum = s.rMsgHdr.msgLen
  length : s.initBuf.data.length = s.rMsgHdr.msgLen + dtls1HmHeaderLength
  announced : Announced s.received s.rMsgHdr
  sourced : ∀ i < s.rMsgHdr.msgLen,
    Sourced s.received s.rMsgHdr.seq (s.initBuf.data.drop dtls1HmHeaderLength) i

theorem mem_received {f : DtlsReceived} (h : s'.received = s.received ++ [f]) :
    f ∈ s'.received :=
  h ▸ mem_append_right _ (mem_singleton_self _)

theorem Attempt.received (h : Attempt mem handState s s' r) : s.received ⊆ s'.received := by
  cases h with
  | quiet _ _ hrec | queued _ _ hrec => exact hrec ▸ List.Subset.refl _
  | fragment _ _ hrec | whole _ hrec => exact hrec ▸ subset_append_left ..

/-- One attempt to read a message keeps the invariant. -/
theorem Inv.attempt (h : Inv s) (ha : Attempt mem handState s s' r) : Inv s' := by
  have hsub := ha.received
  have hold : Items s'.received s.bufferedMessages := fun item hi =>
    ⟨(h.items item hi).1, (h.items item hi).2.mono hsub⟩
  have hnew {f : DtlsReceived} (hrec : s'.received = s.received ++ [f]) (hwf : Wellformed [f]) :
      Wellformed s'.received := by
    intro g hg
    rw [hrec] at hg
    exact (mem_append.1 hg).elim (h.wellformed g) (hwf g)
  have hframe (hf : Frame s s') (hitems : Items s'.received s'.bufferedMessages)
      (hwf : Wellformed s'.received) : Inv s' :=
    ⟨hitems, hwf, hf.fragOff.trans h.fragOff, Nat.le_trans h.max hf.max, hf.current⟩
  cases ha with
  | quiet hf _ hrec hsuffix => exact hframe hf (hold.suffix hsuffix) (hrec ▸ h.wellformed)
  | @fragment _ f pq hf _ hrec hwf hsuffix hstep =>
    exact hframe hf (hstep.items (hold.suffix hsuffix) (hnew hrec hwf) (mem_received hrec) rfl)
      (hnew hrec hwf)
  | queued _ hf hrec hsuffix hqueue =>
    refine hframe hf (hold.suffix ?_) (hrec ▸ h.wellformed)
    exact hqueue ▸ (suffix_cons ..).trans hsuffix
  | whole hf hrec hwf _ _ _ hsuffix => exact hframe hf (hold.suffix hsuffix) (hnew hrec hwf)

/-- A message that is found is complete. -/
theorem Inv.ready (h : Inv s) (ha : Attempt mem handState s s' .message)
    (hne : NoEmptyFragment s'.received) : Ready s' := by
  cases ha with
  | quiet _ _ _ _ hr | fragment _ _ _ _ _ _ _ hr => exact absurd rfl hr
  | @queued item pq chretran _ hrec hsuffix _ hcomplete _ hbuf =>
    have hitem := (h.items item (hsuffix.subset mem_cons_self)).2
    rw [hitem.fragLen, ← hitem.length, take_length] at hbuf
    refine ⟨?_, ?_, ?_, ?_⟩
    · rw [hbuf.initNum, hbuf.msgLen, hitem.fragLen]
    · rw [hbuf.length, hbuf.msgLen]
    · obtain ⟨f, hf, hseq, htype, hlen⟩ := hitem.announced
      exact ⟨f, hrec ▸ hf, hseq.trans hbuf.seq.symm, htype.trans hbuf.type.symm,
        hlen.trans hbuf.msgLen.symm⟩
    · intro i hi
      rw [hbuf.msgLen] at hi
      rw [hbuf.seq, hbuf.contents hitem.fragLen hitem.length, hrec]
      exact hitem.sourced i hi (fun bm hbm => by rw [hcomplete] at hbm; cases hbm)
  | @whole f _ hrec hwf hin _ _ _ _ hwhole hbuf =>
    have hf := mem_received hrec
    have hbody := (hwf f (mem_singleton_self _)).1
    have hfit := hbuf.fragment
    have hlen : f.msgHdr.fragLen = f.msgHdr.msgLen := by
      rcases Nat.eq_zero_or_pos f.msgHdr.fragLen with hzero | hpos
      · rw [hzero, hne f hf hin hzero]
      · omega
    refine ⟨?_, ?_, ?_, ?_⟩
    · rw [hbuf.initNum, hbuf.msgLen, hlen]
    · rw [hbuf.length, hbuf.msgLen]
    · exact ⟨f, hf, hbuf.seq.symm, hbuf.type.symm, hbuf.msgLen.symm⟩
    intro i hi
    rw [hbuf.msgLen] at hi
    rw [hbuf.seq, hbuf.contents hlen (hbody.trans hlen)]
    have hoff : f.msgHdr.fragOff = 0 := by omega
    refine ⟨f, hf, ⟨rfl, by omega, by omega⟩, ?_⟩
    rw [hoff, Nat.sub_zero]

theorem drop_write_toBytes {b : BufMem UInt8} (hdr : HmHeader)
    (h : dtls1HmHeaderLength ≤ b.data.length) :
    (b.write 0 hdr.toBytes).data.drop dtls1HmHeaderLength = b.data.drop dtls1HmHeaderLength := by
  have hlen : hdr.toBytes.length = dtls1HmHeaderLength := by
    simp [HmHeader.toBytes, dtls1HmHeaderLength]
  rw [BufMem.data_write_eq_overwrite (by omega), overwrite, take_zero, nil_append,
    drop_append_of_le_length (by omega), ← hlen, drop_length, nil_append,
    Nat.zero_add]

theorem Ready.deliver (h : Ready s) : s.deliver.2.Complete s.received := by
  have hbody : ((s.initBuf.write 0 s.rMsgHdr.toBytes).data.drop dtls1HmHeaderLength).take s.initNum
      = s.initBuf.data.drop dtls1HmHeaderLength := by
    have hlen := h.length
    rw [drop_write_toBytes _ (by omega), take_of_length_le]
    rw [length_drop, h.initNum]
    omega
  have hlength : (s.initBuf.data.drop dtls1HmHeaderLength).length = s.rMsgHdr.msgLen := by
    rw [length_drop, h.length, Nat.add_sub_cancel]
  unfold Dtls.deliver
  dsimp only
  rw [hbody]
  exact ⟨h.initNum, hlength, h.announced, h.sourced⟩

theorem Inv.deliver (h : Inv s) : Inv s.deliver.1 := { h with fragOff := rfl }

/-! ### Calls -/

/-- The loop ends: each round uses up some of the input. -/
theorem getMessageLoop_isSome (mem : Nat → DtlsMemory) {fuel : Nat} (h : Inv s)
    (hfuel : s.inputSize < fuel) : (getMessageLoop mem handState fuel s).isSome := by
  induction fuel generalizing s with
  | zero => exact absurd hfuel (Nat.not_lt_zero _)
  | succ fuel ih =>
    have ha := s.getReassembledMessage_attempt (mem fuel) handState h.fragOff h.max h.current
    unfold getMessageLoop
    dsimp only
    split
    · rename_i hr
      refine ih (h.attempt ha) ?_
      rw [hr] at ha
      cases ha with
      | quiet _ _ _ _ _ hretry => exact absurd rfl hretry
      | fragment _ _ _ _ _ _ _ _ hsize => omega
    all_goals rfl

/-- What a call keeps and delivers. -/
structure Call (s : Dtls) (res : Dtls × Option DtlsMessage) : Prop where
  inv : Inv res.1
  received : s.received ⊆ res.1.received
  complete : NoEmptyFragment res.1.received → ∀ m ∈ res.2, m.Complete res.1.received

/-- A call makes attempts until there is a message or nothing more to read. -/
theorem getMessageLoop_call (mem : Nat → DtlsMemory) {fuel : Nat} {res : Dtls × Option DtlsMessage}
    (h : Inv s) (hres : getMessageLoop mem handState fuel s = some res) : Call s res := by
  induction fuel generalizing s with
  | zero => cases hres
  | succ fuel ih =>
    have ha := s.getReassembledMessage_attempt (mem fuel) handState h.fragOff h.max h.current
    have hinv := h.attempt ha
    unfold getMessageLoop at hres
    dsimp only at hres
    split at hres
    · have hcall := ih hinv hres
      exact { hcall with received := List.Subset.trans ha.received hcall.received }
    · cases hres
      exact ⟨hinv, ha.received, fun _ _ hm => by cases hm⟩
    · cases hres
      refine ⟨hinv, ha.received, fun _ m hm => ?_⟩
      cases hm
      trivial
    rename_i hr
    cases hres
    rw [hr] at ha
    refine ⟨hinv.deliver, ha.received, fun hne m hm => ?_⟩
    cases hm
    exact (h.ready ha hne).deliver

theorem Inv.getMessage_eq (h : Inv s) (handState : DtlsHandState) (mem : Nat → DtlsMemory) :
    ∃ res, getMessageLoop mem handState (s.inputSize + 1) { s with rMsgHdr := .zero } = some res ∧
      s.getMessage handState mem = res := by
  have hzero : Inv { s with rMsgHdr := .zero } := { h with fragOff := rfl }
  obtain ⟨res, hres⟩ := Option.isSome_iff_exists.1
    (@getMessageLoop_isSome _ handState mem (s.inputSize + 1) hzero (Nat.lt_succ_self _))
  refine ⟨res, hres, ?_⟩
  rw [Dtls.getMessage, hres, Option.getD_some]

theorem Inv.getMessage (h : Inv s) (handState : DtlsHandState) (mem : Nat → DtlsMemory) :
    Call s (s.getMessage handState mem) := by
  obtain ⟨res, hres, heq⟩ := h.getMessage_eq handState mem
  have hzero : Inv { s with rMsgHdr := .zero } := { h with fragOff := rfl }
  rw [heq]
  exact { getMessageLoop_call mem hzero hres with }

theorem max_init : ssl3RtMaxPlainLength
    ≤ ((BufMem.bufMemNew : BufMem UInt8).bufMemGrow true ssl3RtMaxPlainLength).1.max := by
  decide

theorem inv_init (server : Bool) (maxCertList : Nat) : Inv (init server maxCertList) :=
  ⟨nofun, nofun, rfl, max_init, Nat.zero_le _⟩

/-- The messages in a log. -/
def delivered (log : List (Event × Option DtlsMessage)) : List DtlsMessage :=
  log.filterMap Prod.snd

/-- Every message that a run delivers is complete. -/
theorem run_complete (server : Bool) (maxCertList : Nat) (events : List Event) :
    Inv (run step (init server maxCertList) events).1 ∧
    (NoEmptyFragment (run step (init server maxCertList) events).1.received →
      ∀ m ∈ delivered (run step (init server maxCertList) events).2,
        m.Complete (run step (init server maxCertList) events).1.received) := by
  refine run_invariant (fun s log => Inv s ∧ (NoEmptyFragment s.received →
    ∀ m ∈ delivered log, m.Complete s.received)) (fun _ => True) ?_ (fun _ _ => trivial)
    ⟨inv_init .., nofun⟩
  intro s log e _ ⟨h, hlog⟩
  cases e with
  | record rr =>
    refine ⟨{ h with }, fun hne m hm => hlog hne m ?_⟩
    simpa [delivered, step] using hm
  | getMessage mem handState =>
    have hcall := h.getMessage handState mem
    refine ⟨hcall.inv, fun hne m hm => ?_⟩
    rw [delivered, filterMap_append] at hm
    rcases mem_append.1 hm with hm | hm
    · exact (hlog (fun f hf => hne f (hcall.received hf)) m hm).mono hcall.received
    · refine hcall.complete hne m ?_
      obtain ⟨e, he, hsome⟩ := mem_filterMap.1 hm
      rw [mem_singleton.1 he] at hsome
      exact hsome

/-! ### Fragments without contents -/

/-- A connection that waits for a message, with nothing buffered. -/
structure Waiting (s : Dtls) : Prop where
  queue : s.bufferedMessages = []
  current : s.current = []
  records : s.records = []

/-- A fragment that fits is accepted, when there is memory for its message. -/
theorem preprocessFragment_of_fits {hdr : HmHeader} (hmem : mem.grow = true)
    (hzero : s.rMsgHdr = .zero) (hfit : hdr.fragOff + hdr.fragLen ≤ hdr.msgLen)
    (hmax : hdr.msgLen ≤ dtls1HmHeaderLength + ssl3RtMaxEncryptedLength) :
    ∃ b, s.preprocessFragment mem hdr = ({ s with
      initBuf := b, rMsgHdr := ⟨hdr.type, hdr.msgLen, hdr.seq, 0, 0⟩ }, true) := by
  have hgrow : (s.initBuf.bufMemGrow mem.grow (hdr.msgLen + dtls1HmHeaderLength)).2 ≠ 0 := by
    rw [hmem]
    unfold dtls1HmHeaderLength ssl3RtMaxEncryptedLength at *
    exact BufMem.bufMemGrow_ne_zero (by omega) (by unfold BufMem.limitBeforeExpansion; omega)
  have hle : dtls1HmHeaderLength + ssl3RtMaxEncryptedLength ≤ s.maxHandshakeMessageLen := by
    unfold maxHandshakeMessageLen
    dsimp only
    split <;> omega
  refine ⟨(s.initBuf.bufMemGrow mem.grow (hdr.msgLen + dtls1HmHeaderLength)).1, ?_⟩
  unfold preprocessFragment
  rw [if_neg (by omega), hzero]
  rw [if_neg hgrow]
  rfl

section Empty

variable {hdr : HmHeader} (hseq : hdr.seq = s.handshakeReadSeq) (hfrag : hdr.fragLen = 0)
  (hfit : hdr.fragOff ≤ hdr.msgLen)
  (hmax : hdr.msgLen ≤ dtls1HmHeaderLength + ssl3RtMaxEncryptedLength)
  (hhello : hdr.type ≠ mtHelloRequest)
include hseq hfrag hfit hmax hhello

/-- An in-sequence fragment without contents is taken for the message. -/
theorem processFragment_empty (hmem : mem.grow = true) (hzero : s.rMsgHdr = .zero)
    (hcur : s.current = []) :
    ∃ b, s.processFragment mem handState hdr = ({ s with
      initBuf := b, initNum := 0, rMsgHdr := ⟨hdr.type, hdr.msgLen, hdr.seq, 0, 0⟩
      received := s.received ++ [⟨hdr, [], true, false⟩] }, .message) := by
  have hchr : (s.isRetransmittedHello handState hdr.seq && hdr.type == mtClientHello) = false := by
    unfold isRetransmittedHello
    rw [← hseq]
    rcases Nat.eq_zero_or_pos hdr.seq with h | h
    · simp [h]
    · simp [Nat.pos_iff_ne_zero.1 h]
  let s' : Dtls := { s with received := s.received ++ [⟨hdr, [], true, false⟩] }
  obtain ⟨b, hb⟩ := preprocessFragment_of_fits (s := s') hmem hzero (hfrag ▸ hfit) hmax
  have heq : s.processFragment mem handState hdr = s'.wholeMessage mem hdr false := by
    unfold processFragment dispatchFragment
    rw [hchr, hcur, hseq]
    simp [hfrag, hhello, s', hcur]
  rw [heq, wholeMessage, hb]
  simp [readBody, hfrag, resetSeq, s']

/-- A record with nothing but the header of a fragment is taken for a whole message. -/
theorem getMessage_emptyFragment (h : Waiting s) {rr : DtlsHandshakeRecord}
    {mem : Nat → DtlsMemory} (hmem : ∀ n, (mem n).grow = true) (htype : rr.type = .handshake)
    (hlen : rr.data.length = dtls1HmHeaderLength)
    (hhdr : HmHeader.dtls1GetMessageHeader rr.data = hdr) :
    ∃ b, getMessage { s with records := [rr] } handState mem = ({ s with
          initBuf := b, initNum := 0, rMsgHdr := .zero, currentType := .handshake
          received := s.received ++ [⟨hdr, [], true, false⟩]
          handshakeReadSeq := (s.handshakeReadSeq + 1) % 2 ^ 16 },
        some (.handshake hdr.type hdr.seq hdr.msgLen 0 [])) := by
  obtain ⟨hq, hc, hr⟩ := h
  have hsize : inputSize { s with records := [rr] } = 13 := by
    simp [inputSize, hc, hlen, dtls1HmHeaderLength]
  let s₁ : Dtls := { s with
    rMsgHdr := .zero, initBuf := s.initBuf.write 0 rr.data, currentType := .handshake }
  have hround : getReassembledMessage { s with rMsgHdr := .zero, records := [rr] } (mem 13)
      handState = s₁.processFragment (mem 13) handState hdr := by
    have htake : rr.data.take dtls1HmHeaderLength = rr.data := take_of_length_le (by omega)
    have hdrop : rr.data.drop dtls1HmHeaderLength = [] := drop_of_length_le (by omega)
    simp [getReassembledMessage, retrieveBufferedFragment, hq, skipStale, readHeader, hc, htake,
      hdrop, htype, hlen, hhdr, s₁, hr]
  obtain ⟨b, hb⟩ := @processFragment_empty s₁ _ handState _ hseq hfrag hfit hmax hhello
    (hmem 13) rfl hc
  refine ⟨b.write 0 (HmHeader.toBytes ⟨hdr.type, hdr.msgLen, hdr.seq, 0, 0⟩), ?_⟩
  unfold getMessage
  rw [hsize, getMessageLoop]
  rw [hround, hb]
  rfl

end Empty

/-- A record with one fragment: type, message length, number, offset and contents. -/
def fragmentRecord (type : UInt8) (msgLen seq fragOff : Nat) (body : Bytes)
    (h : body.length ≤ 16) : DtlsHandshakeRecord where
  type := .handshake
  data := [type] ++ BigEndian.encode 3 msgLen ++ BigEndian.encode 2 seq
    ++ BigEndian.encode 3 fragOff ++ BigEndian.encode 3 body.length ++ body
  length_le := by simp [ssl3RtMaxPlainLength]; omega

/-- Memory is available. -/
def plenty : Nat → DtlsMemory := fun _ => ⟨true, true, true, fun _ => 0⟩

theorem header_fragmentRecord {type : UInt8} {msgLen seq fragOff : Nat} {body : Bytes}
    (hbody : body.length ≤ 16) (hmsgLen : msgLen < 2 ^ 24) (hseq : seq < 2 ^ 16)
    (hoff : fragOff < 2 ^ 24) :
    HmHeader.dtls1GetMessageHeader (fragmentRecord type msgLen seq fragOff body hbody).data
      = ⟨type, msgLen, seq, fragOff, body.length⟩ := by
  unfold HmHeader.dtls1GetMessageHeader
  congr 1
  · exact BigEndian.decode_encode (n := 3) hmsgLen
  · exact BigEndian.decode_encode (n := 2) hseq
  · exact BigEndian.decode_encode (n := 3) hoff
  · exact BigEndian.decode_encode (n := 3) (by omega)

/-- Such a record from the network, and a call. -/
theorem run_emptyFragment (h : Waiting s) {type : UInt8} {msgLen seq : Nat} (hlt : seq < 2 ^ 16)
    (hseq : seq = s.handshakeReadSeq) (hmax : msgLen ≤ ssl3RtMaxEncryptedLength)
    (hhello : type ≠ mtHelloRequest) :
    ∃ b, run step s [.record (fragmentRecord type msgLen seq 0 [] (Nat.zero_le _)),
        .getMessage plenty .other] =
      ({ s with
          initBuf := b, initNum := 0, rMsgHdr := .zero, currentType := .handshake
          received := s.received ++ [⟨⟨type, msgLen, seq, 0, 0⟩, [], true, false⟩]
          handshakeReadSeq := (s.handshakeReadSeq + 1) % 2 ^ 16 },
        [(.record (fragmentRecord type msgLen seq 0 [] (Nat.zero_le _)), none),
          (.getMessage plenty .other, some (.handshake type seq msgLen 0 []))]) := by
  have hlen : msgLen < 2 ^ 24 := by
    unfold ssl3RtMaxEncryptedLength at hmax
    omega
  obtain ⟨b, hb⟩ := @getMessage_emptyFragment s .other ⟨type, msgLen, seq, 0, 0⟩ hseq rfl
    (Nat.zero_le _) (by dsimp only; omega) hhello h
    (fragmentRecord type msgLen seq 0 [] (Nat.zero_le _)) plenty (fun _ => rfl) rfl rfl
    (header_fragmentRecord _ hlen hlt (by decide))
  refine ⟨b, ?_⟩
  simp only [run_cons, run_nil, step, h.records, nil_append, hb]

end Dtls

open Dtls

/-- Every handshake message that is delivered has the length its header says, and a fragment with
its number was received for each of its bytes, as long as no fragment without contents comes in
sequence for a message with contents. -/
theorem dtls_delivers_complete {server : Bool} {maxCertList : Nat} {events : List Event}
    {type : UInt8} {seq msgLen len : Nat} {body : Bytes}
    (hne : NoEmptyFragment (run step (init server maxCertList) events).1.received)
    (hm : .handshake type seq msgLen len body
      ∈ delivered (run step (init server maxCertList) events).2) :
    len = msgLen ∧ ∀ i < msgLen,
      ∃ f ∈ (run step (init server maxCertList) events).1.received, f.Covers seq i := by
  obtain ⟨hlen, -, -, hsrc⟩ := (run_complete server maxCertList events).2 hne _ hm
  refine ⟨hlen, fun i hi => ?_⟩
  obtain ⟨f, hf, hcov, -⟩ := hsrc i hi
  exact ⟨f, hf, hcov⟩

/-- Two fragments of a message that come in the wrong order. -/
theorem dtls_delivers_complete_reordered :
    let events : List Event :=
      [.record (fragmentRecord 2 5 0 3 [4, 5] (by decide)),
        .record (fragmentRecord 2 5 0 0 [1, 2, 3] (by decide)), .getMessage plenty .other]
    5 = 5 ∧ ∀ i < 5, ∃ f ∈ (run step (init false 0) events).1.received, f.Covers 0 i := by
  intro events
  have h : NoEmptyFragment (run step (init false 0) events).1.received ∧
      .handshake 2 0 5 5 [1, 2, 3, 4, 5] ∈ delivered (run step (init false 0) events).2 := by
    decide +kernel
  exact dtls_delivers_complete h.1 h.2

/-- A ServerHello of ten bytes is announced by a fragment without contents. -/
theorem dtls_delivers_empty_fragment :
    let events : List Event :=
      [.record (fragmentRecord 2 10 0 0 [] (by decide)), .getMessage plenty .other]
    delivered (run step (init false 0) events).2 = [.handshake 2 0 10 0 []] ∧
    ∀ f ∈ (run step (init false 0) events).1.received, ¬f.Covers 0 0 := by
  obtain ⟨b, hb⟩ := @run_emptyFragment (init false 0) ⟨rfl, rfl, rfl⟩ 2 10 0 (by decide) rfl
    (by decide) (by decide)
  dsimp only
  rw [hb]
  refine ⟨rfl, fun f hf => ?_⟩
  rw [mem_singleton.1 hf]
  decide

end QuicTls
