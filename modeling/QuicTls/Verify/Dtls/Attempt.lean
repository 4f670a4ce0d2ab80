import QuicTls.Verify.Dtls.Reassembly

/-!
# One round of `dtls_get_message`

`Attempt` says what one call of `dtls_get_reassembled_message` can do.
-/

namespace QuicTls.Dtls

open List

variable {s s' : Dtls} {mem : DtlsMemory} {handState : DtlsHandState} {msgHdr : HmHeader}
  {frag : HmFragment} {pq : Pqueue HmFragment} {f : DtlsReceived} {r : Reassembled}
  {chretran : Bool}

/-- What every round keeps. -/
structure Frame (s s' : Dtls) : Prop where
  server : s'.server = s.server
  fragOff : s'.rMsgHdr.fragOff = s.rMsgHdr.fragOff
  max : s.initBuf.max ≤ s'.initBuf.max
  current : s'.current.length ≤ ssl3RtMaxPlainLength

/-- The message with header `hdr` and contents `bytes` is in `init_buf`. -/
structure InBuffer (s : Dtls) (hdr : HmHeader) (bytes : Bytes) : Prop where
  type : s.rMsgHdr.type = hdr.type
  seq : s.rMsgHdr.seq = hdr.seq
  msgLen : s.rMsgHdr.msgLen = hdr.msgLen
  initNum : s.initNum = hdr.fragLen
  length : s.initBuf.data.length = hdr.msgLen + dtls1HmHeaderLength
  fragment : hdr.fragOff + hdr.fragLen ≤ hdr.msgLen
  contents : hdr.fragLen = hdr.msgLen → bytes.length = hdr.msgLen →
    s.initBuf.data.drop dtls1HmHeaderLength = bytes

/-- The counter when a message with number `seq` was found. -/
def Counter (s s' : Dtls) (seq : Nat) (chretran : Bool) : Prop :=
  if chretran then seq < s.handshakeReadSeq ∧ s'.handshakeReadSeq = 0
  else seq = s.handshakeReadSeq ∧ s'.handshakeReadSeq = s.handshakeReadSeq

/-- One call of `dtls_get_reassembled_message`. -/
inductive Attempt (mem : DtlsMemory) (handState : DtlsHandState) (s : Dtls) :
    Dtls → Reassembled → Prop
  /-- no fragment is received and no message found -/
  | quiet {s' : Dtls} {r : Reassembled} :
    Frame s s' → s'.handshakeReadSeq = s.handshakeReadSeq → s'.received = s.received →
    s'.bufferedMessages <:+ s.bufferedMessages → r ≠ .message → r ≠ .retry →
    Attempt mem handState s s' r
  /-- a fragment is received and buffered, or dropped -/
  | fragment {s' : Dtls} {r : Reassembled} {f : DtlsReceived} {pq : Pqueue HmFragment} :
    Frame s s' → s'.handshakeReadSeq = s.handshakeReadSeq → s'.received = s.received ++ [f] →
    Wellformed [f] → pq <:+ s.bufferedMessages →
    QueueStep pq f.msgHdr f.body s'.bufferedMessages →
    (s.handshakeReadSeq ≤ f.msgHdr.seq ∨ f.chretran = true ∨ s'.bufferedMessages = pq) →
    r ≠ .message → s'.inputSize < s.inputSize → Attempt mem handState s s' r
  /-- a buffered message is found -/
  | queued {s' : Dtls} {item : PItem HmFragment} {pq : Pqueue HmFragment} (chretran : Bool) :
    Frame s s' → s'.received = s.received → (item :: pq) <:+ s.bufferedMessages →
    s'.bufferedMessages = pq → item.data.reassembly = none →
    Counter s s' item.data.msgHeader.seq chretran →
    InBuffer s' item.data.msgHeader (item.data.fragment.take item.data.msgHeader.fragLen) →
    Attempt mem handState s s' .message
  /-- the fragment is taken for a whole message, and none is found in the queue -/
  | whole {s' : Dtls} {f : DtlsReceived} :
    Frame s s' → s'.received = s.received ++ [f] → Wellformed [f] → f.inSequence = true →
    (s.retrieveBufferedFragment mem handState).2 = .none →
    s'.bufferedMessages = (s.retrieveBufferedFragment mem handState).1.bufferedMessages →
    s'.bufferedMessages <:+ s.bufferedMessages → Counter s s' f.msgHdr.seq f.chretran →
    (0 < f.msgHdr.fragLen → f.msgHdr.msgLen ≤ f.msgHdr.fragLen) →
    InBuffer s' f.msgHdr f.body → Attempt mem handState s s' .message

theorem skipStale_suffix (s : Dtls) (handState : DtlsHandState) (pq : Pqueue HmFragment) :
    (s.skipStale handState pq).1 <:+ pq := by
  fun_induction skipStale s handState pq with
  | case2 item pq hstale hhello ih => exact ih.trans (suffix_cons ..)
  | case3 => exact suffix_cons ..
  | case1 | case4 | case5 | case6 => exact suffix_refl _

theorem skipStale_eq_none (h : (s.skipStale handState pq).2 = none) :
    (s.skipStale handState pq).1 = [] := by
  fun_induction skipStale s handState pq with
  | case1 => rfl
  | case2 item pq hstale hhello ih => exact ih h
  | case3 | case4 | case5 | case6 => cases h

/-- The fragment that is looked at is the head of the queue. It is not stale, or it is the first
ClientHello again and the next one is not the ClientHello that we wait for. -/
theorem skipStale_eq_some (h : (s.skipStale handState pq).2 = some (frag, chretran)) :
    ∃ item rest, (s.skipStale handState pq).1 = item :: rest ∧ item.data = frag ∧
      if chretran then frag.msgHeader.seq = 0 ∧ s.handshakeReadSeq = 1 ∧
        ∀ next ∈ rest.head?, next.data.msgHeader.seq ≠ s.handshakeReadSeq
      else s.handshakeReadSeq ≤ frag.msgHeader.seq := by
  have hseq {seq : Nat} (hhello : ¬(!s.isRetransmittedHello handState seq) = true) :
      seq = 0 ∧ s.handshakeReadSeq = 1 := by
    simp only [isRetransmittedHello, Bool.not_eq_true, Bool.not_eq_false', Bool.and_eq_true,
      beq_iff_eq] at hhello
    exact ⟨hhello.1.1.2, hhello.1.2⟩
  fun_induction skipStale s handState pq with
  | case1 => cases h
  | case2 item pq hstale hhello ih => exact ih h
  | case3 item hstale hhello next rest hnext =>
    cases h
    exact ⟨next, rest, rfl, rfl, hnext.ge⟩
  | case4 item hstale hhello next rest hnext =>
    cases h
    refine ⟨item, _, rfl, rfl, (hseq hhello).1, (hseq hhello).2, ?_⟩
    intro n hn
    cases hn
    exact hnext
  | case5 item hstale hhello =>
    cases h
    exact ⟨item, _, rfl, rfl, (hseq hhello).1, (hseq hhello).2, nofun⟩
  | case6 item pq hstale =>
    cases h
    exact ⟨item, pq, rfl, rfl, Nat.le_of_not_lt hstale⟩

/-- When no message is found, the queue is empty or its head is incomplete or not yet due. -/
theorem retrieveBufferedFragment_eq_none
    (h : (s.retrieveBufferedFragment mem handState).2 = .none) :
    (s.retrieveBufferedFragment mem handState).1.bufferedMessages
      = (s.skipStale handState s.bufferedMessages).1 ∧
    ∀ frag chretran, (s.skipStale handState s.bufferedMessages).2 = some (frag, chretran) →
      frag.reassembly ≠ none ∨ chretran = false ∧ s.handshakeReadSeq ≠ frag.msgHeader.seq := by
  unfold retrieveBufferedFragment at h ⊢
  dsimp only at h ⊢
  split at h
  · rename_i hskip
    exact ⟨rfl, fun frag chretran hsome => by rw [hskip] at hsome; cases hsome⟩
  rename_i frag chretran hskip
  have hfrag {P : HmFragment → Bool → Prop} (hP : P frag chretran) (frag' : HmFragment)
      (chretran' : Bool) (hsome : (s.skipStale handState s.bufferedMessages).2
        = some (frag', chretran')) : P frag' chretran' := by
    rw [hskip] at hsome
    cases hsome
    exact hP
  split at h
  · rename_i hpending
    rw [if_pos hpending]
    refine ⟨rfl, hfrag (.inl fun hnone => ?_)⟩
    rw [hnone] at hpending
    cases hpending
  rename_i hcomplete
  split at h
  · split at h <;> cases h
  · rename_i hready
    rw [if_neg hcomplete, if_neg hready]
    refine ⟨rfl, hfrag (.inr ⟨?_, fun heq => hready (.inl heq)⟩)⟩
    exact Bool.eq_false_iff.2 fun hchr => hready (.inr hchr)

theorem drop_copyMessage {b : BufMem UInt8} {hdr : HmHeader} {bytes : Bytes}
    (hb : b.data.length = hdr.msgLen + dtls1HmHeaderLength) (hlen : hdr.fragLen = hdr.msgLen)
    (hfit : hdr.fragOff + hdr.fragLen ≤ hdr.msgLen) (hbytes : bytes.length = hdr.msgLen) :
    (if 0 < hdr.fragLen then b.write (dtls1HmHeaderLength + hdr.fragOff) bytes
      else b).data.drop dtls1HmHeaderLength = bytes := by
  have hoff : hdr.fragOff = 0 := by omega
  split
  · rw [hoff]
    exact drop_data_write (by omega)
  · rw [drop_of_length_le (by omega), eq_comm, ← length_eq_zero_iff]
    omega

/-- What the queue of buffered messages gives: nothing, or a complete message. -/
theorem retrieveBufferedFragment_cases (s : Dtls) (mem : DtlsMemory) (handState : DtlsHandState)
    (hoff : s.rMsgHdr.fragOff = 0) (hcur : s.current.length ≤ ssl3RtMaxPlainLength) :
    (∀ len, (s.retrieveBufferedFragment mem handState).2 ≠ .message len) ∧
      (∃ pq n, (s.retrieveBufferedFragment mem handState).1
        = { s with bufferedMessages := pq, initNum := n } ∧ pq <:+ s.bufferedMessages) ∨
    ∃ item pq chretran, (item :: pq) <:+ s.bufferedMessages ∧ item.data.reassembly = none ∧
      (s.retrieveBufferedFragment mem handState).2 = .message item.data.msgHeader.fragLen ∧
      ∀ s', s' = { (s.retrieveBufferedFragment mem handState).1 with
          initNum := item.data.msgHeader.fragLen } →
        Frame s s' ∧ s'.received = s.received ∧ s'.bufferedMessages = pq ∧
        Counter s s' item.data.msgHeader.seq chretran ∧
        InBuffer s' item.data.msgHeader (item.data.fragment.take item.data.msgHeader.fragLen) := by
  have hsuffix := s.skipStale_suffix handState s.bufferedMessages
  unfold retrieveBufferedFragment
  dsimp only
  split
  · exact .inl ⟨nofun, _, _, rfl, hsuffix⟩
  rename_i frag chretran hskip
  obtain ⟨item, rest, hqueue, rfl, hseq⟩ := skipStale_eq_some hskip
  rw [hqueue] at hsuffix ⊢
  split
  · exact .inl ⟨nofun, _, _, rfl, hsuffix⟩
  rename_i hcomplete
  split
  · rename_i hready
    rcases preprocessFragment_cases { s with bufferedMessages := rest } mem item.data.msgHeader hoff
      with hpre | ⟨hfit, b, hpre, hb, hmax⟩
    · rw [show List.tail (item :: rest) = rest from rfl, hpre]
      exact .inl ⟨nofun, _, _, rfl, (suffix_cons ..).trans hsuffix⟩
    rw [show List.tail (item :: rest) = rest from rfl, hpre]
    refine .inr ⟨item, rest, chretran, hsuffix, by simpa using hcomplete, rfl, ?_⟩
    have hmax' : (copyMessage item.data b).max = b.max := by
      unfold copyMessage
      split <;> rfl
    have hlength : (copyMessage item.data b).data.length = b.data.length := by
      unfold copyMessage
      split
      · exact BufMem.length_write ..
      · rfl
    have hcontents := @drop_copyMessage b item.data.msgHeader
      (item.data.fragment.take item.data.msgHeader.fragLen) hb
    rintro s' rfl
    cases chretran <;>
      refine ⟨⟨rfl, rfl, hmax'.symm ▸ hmax, hcur⟩, rfl, rfl, ⟨?_, rfl⟩, ⟨rfl, rfl, rfl, rfl,
        hlength.trans hb, hfit, fun hlen => hcontents hlen hfit⟩⟩
    · exact (hready.resolve_right nofun).symm
    · obtain ⟨hzero, hone, -⟩ := hseq
      omega
  · exact .inl ⟨nofun, _, _, rfl, hsuffix⟩

/-- The bytes of a fragment that is taken for a whole message. -/
theorem wholeMessage_cases (s : Dtls) (mem : DtlsMemory) (msgHdr : HmHeader) (chretran : Bool)
    (hoff : s.rMsgHdr.fragOff = 0) (hlen : msgHdr.fragLen ≤ s.current.length)
    (hmax : s.current.length + dtls1HmHeaderLength ≤ s.initBuf.max)
    (hcur : s.current.length ≤ ssl3RtMaxPlainLength) :
    (∃ n, s.wholeMessage mem msgHdr chretran = ({ s with initNum := n }, .error)) ∨
    (s.wholeMessage mem msgHdr chretran).2 = .message ∧
      ∀ s', s' = (s.wholeMessage mem msgHdr chretran).1 →
        Frame s s' ∧ s'.received = s.received ∧ s'.bufferedMessages = s.bufferedMessages ∧
        s'.handshakeReadSeq = (if chretran then 0 else s.handshakeReadSeq) ∧
        InBuffer s' msgHdr (s.current.take msgHdr.fragLen) := by
  unfold wholeMessage
  rcases preprocessFragment_cases s mem msgHdr hoff with hpre | ⟨hfit, b, hpre, hb, hbmax⟩
  · rw [hpre]
    exact .inl ⟨_, rfl⟩
  rw [hpre]
  refine .inr ⟨rfl, ?_⟩
  rintro s' rfl
  -- a message that is whole fits into `init_buf` as it is
  have hcontents : msgHdr.fragLen = msgHdr.msgLen →
      (s.current.take msgHdr.fragLen).length = msgHdr.msgLen →
      (if 0 < msgHdr.fragLen ∧ !decide (s.initBuf.max < msgHdr.msgLen + dtls1HmHeaderLength) then
        b.write (dtls1HmHeaderLength + msgHdr.fragOff) (s.current.take msgHdr.fragLen)
        else b).data.drop dtls1HmHeaderLength = s.current.take msgHdr.fragLen := by
    intro hwhole hbytes
    have hroom : ¬s.initBuf.max < msgHdr.msgLen + dtls1HmHeaderLength := by omega
    have hdrop := drop_copyMessage hb hwhole hfit hbytes
    simp only [hroom, decide_false, Bool.not_false, and_true]
    exact hdrop
  have hlength (c : Prop) [Decidable c] (o : Nat) (src : Bytes) :
      (if c then b.write o src else b).data.length = b.data.length
        ∧ (if c then b.write o src else b).max = b.max := by
    split
    · exact ⟨BufMem.length_write .., rfl⟩
    · exact ⟨rfl, rfl⟩
  have hdrop : (s.current.drop msgHdr.fragLen).length ≤ ssl3RtMaxPlainLength := by
    rw [length_drop]
    omega
  cases chretran <;>
    refine ⟨⟨rfl, rfl, Nat.le_trans hbmax (Nat.le_of_eq ?_), hdrop⟩, rfl, rfl, rfl,
      ⟨rfl, rfl, rfl, rfl, Eq.trans ?_ hb, hfit, hcontents⟩⟩
  exacts [(hlength _ _ _).2.symm, (hlength _ _ _).1, (hlength _ _ _).2.symm, (hlength _ _ _).1]

/-- A header is read from the rest of the current record or from the next one. -/
theorem readHeader_eq_some {p : Bytes} (h : s.readHeader = some (p, s'))
    (hcur : s.current.length ≤ ssl3RtMaxPlainLength) :
    ∃ (data : Bytes) (type : DtlsRecordType) (records : List DtlsHandshakeRecord),
      data.length ≤ ssl3RtMaxPlainLength ∧
      p = data.take dtls1HmHeaderLength ∧ s'.inputSize < s.inputSize ∧
      s' = { s with current := data.drop dtls1HmHeaderLength, currentType := type
                    records := records } := by
  unfold readHeader at h
  split at h
  · rename_i hne
    have hpos := length_pos_iff.2 hne
    cases h
    refine ⟨s.current, _, _, hcur, rfl, ?_, rfl⟩
    simp only [inputSize, length_drop, dtls1HmHeaderLength]
    omega
  · split at h
    · cases h
    · rename_i rr records hrr
      cases h
      refine ⟨rr.data, _, _, rr.length_le, rfl, ?_, rfl⟩
      simp only [inputSize, hrr, length_drop, map_cons, sum_cons]
      omega

theorem seq_dtls1GetMessageHeader_lt (p : Bytes) :
    (HmHeader.dtls1GetMessageHeader p).seq < 2 ^ 16 := by
  have hlt := BigEndian.decode_lt ((p.drop 4).take 2)
  have hlen : ((p.drop 4).take 2).length ≤ 2 := length_take_le ..
  have hpow : 256 ^ ((p.drop 4).take 2).length ≤ 256 ^ 2 := Nat.pow_le_pow_right (by decide) hlen
  exact Nat.lt_of_lt_of_le hlt hpow

/-- What becomes of a fragment that was received in state `s`, when the round began in `s₀`. -/
theorem dispatchFragment_attempt {s₀ : Dtls} (hframe : Frame s₀ s) (hoff : s.rMsgHdr.fragOff = 0)
    (hread : s.handshakeReadSeq = s₀.handshakeReadSeq) (hrec : s.received = s₀.received ++ [f])
    (hnone : (s₀.retrieveBufferedFragment mem handState).2 = .none)
    (hqueue : s.bufferedMessages
      = (s₀.retrieveBufferedFragment mem handState).1.bufferedMessages)
    (hsuffix : s.bufferedMessages <:+ s₀.bufferedMessages) (hwf : Wellformed [f])
    (hbody : f.body = s.current.take f.msgHdr.fragLen)
    (hseq : f.inSequence = true → if f.chretran then f.msgHdr.seq < s.handshakeReadSeq
      else f.msgHdr.seq = s.handshakeReadSeq) (hlen : f.msgHdr.fragLen ≤ s.current.length)
    (hmax : s.current.length + dtls1HmHeaderLength ≤ s.initBuf.max)
    (hsize : s.inputSize < s₀.inputSize) :
    Attempt mem handState s₀ (s.dispatchFragment mem handState f).1
      (s.dispatchFragment mem handState f).2 := by
  -- the functions that buffer a fragment change the queue and read the fragment's bytes
  have hbuffered {q : Dtls} {r : Reassembled} (hr : r ≠ .message) (hq : Buffers s f.msgHdr q)
      (hnew : s.handshakeReadSeq ≤ f.msgHdr.seq ∨ f.chretran = true ∨
        q.bufferedMessages = s.bufferedMessages) : Attempt mem handState s₀ q r := by
    obtain ⟨pq, current, rfl, hstep, hcur⟩ := hq
    refine .fragment ⟨hframe.server, hframe.fragOff, hframe.max, ?_⟩ hread hrec hwf hsuffix
      (hbody ▸ hstep) (hread ▸ hnew) hr ?_
    · exact Nat.le_trans hcur.length_le hframe.current
    · exact Nat.lt_of_le_of_lt (Nat.add_le_add_right hcur.length_le _) hsize
  have hdropped {q : Dtls} {r : Reassembled} {n : Nat} (hq : q = { s with initNum := n })
      (hr : r ≠ .message) : Attempt mem handState s₀ q r := by
    subst hq
    exact .fragment { hframe with } hread hrec hwf hsuffix .same (.inr (.inr rfl)) hr hsize
  have hto (r : Buffered) : r.toReassembled ≠ .message := by
    cases r <;> exact nofun
  unfold dispatchFragment
  split
  · obtain ⟨hq, hnew⟩ := processOutOfSeqMessage_cases s mem f.msgHdr
    exact hbuffered (hto _) hq (hnew.imp Nat.le_of_lt .inr)
  rename_i hin
  replace hseq := hseq (by simpa using hin)
  split
  · refine hbuffered (hto _) (reassembleFragment_cases s mem f.msgHdr) ?_
    split at hseq
    · rename_i hchr
      exact .inr (.inl hchr)
    · exact .inl hseq.ge
  split
  · refine hdropped rfl ?_
    split <;> exact nofun
  rcases wholeMessage_cases s mem f.msgHdr f.chretran hoff hlen hmax hframe.current with
    ⟨n, heq⟩ | ⟨hmsg, hs'⟩
  · rw [heq]
    exact hdropped rfl nofun
  obtain ⟨hframe', hrec', hqueue', hread', hbuf⟩ := hs' _ rfl
  rw [hmsg]
  refine .whole ⟨hframe'.server.trans hframe.server, hframe'.fragOff.trans hframe.fragOff,
    Nat.le_trans hframe.max hframe'.max, hframe'.current⟩ (hrec'.trans hrec) hwf
    (by simpa using hin) hnone (hqueue'.trans hqueue) (hqueue' ▸ hsuffix) ?_ (by omega)
    (hbody ▸ hbuf)
  unfold Counter
  split_ifs at hseq with hchr
  · rw [if_pos hchr] at hread' ⊢
    exact ⟨hread ▸ hseq, hread'⟩
  · rw [if_neg hchr] at hread' ⊢
    exact ⟨hseq.trans hread, hread'.trans hread⟩

/-- Every round is one of the four. -/
theorem getReassembledMessage_attempt (s : Dtls) (mem : DtlsMemory) (handState : DtlsHandState)
    (hoff : s.rMsgHdr.fragOff = 0) (hmax : ssl3RtMaxPlainLength ≤ s.initBuf.max)
    (hcur : s.current.length ≤ ssl3RtMaxPlainLength) :
    Attempt mem handState s (s.getReassembledMessage mem handState).1
      (s.getReassembledMessage mem handState).2 := by
  unfold getReassembledMessage
  rcases s.retrieveBufferedFragment_cases mem handState hoff hcur with
    ⟨hnot, pq, n, heq, hsuffix⟩ | ⟨item, pq, chretran, hitem, hcomplete, hmsg, hs'⟩
  · dsimp only
    split
    · rw [heq]
      exact .quiet ⟨rfl, rfl, Nat.le_refl _, hcur⟩ rfl rfl hsuffix nofun nofun
    · rename_i len hmsg
      exact absurd hmsg (hnot len)
    rename_i hnone
    split
    · rw [heq]
      exact .quiet ⟨rfl, rfl, Nat.le_refl _, hcur⟩ rfl rfl hsuffix nofun nofun
    rename_i p s' hread
    have hqueue : (s.retrieveBufferedFragment mem handState).1.bufferedMessages = pq := by
      rw [heq]
    rw [heq] at hread
    obtain ⟨data, type, records, hdata, rfl, hsize, rfl⟩ := readHeader_eq_some hread hcur
    have hdrop : (data.drop dtls1HmHeaderLength).length ≤ ssl3RtMaxPlainLength := by
      rw [length_drop]
      omega
    split
    · split <;> exact .quiet ⟨rfl, rfl, Nat.le_refl _, hdrop⟩ rfl rfl hsuffix nofun nofun
    split
    · exact .quiet ⟨rfl, rfl, Nat.le_refl _, hdrop⟩ rfl rfl hsuffix nofun nofun
    rename_i hheader
    unfold processFragment
    split
    · exact .quiet ⟨rfl, rfl, Nat.le_refl _, hdrop⟩ rfl rfl hsuffix nofun nofun
    rename_i hlen
    refine dispatchFragment_attempt ⟨rfl, rfl, Nat.le_refl _, hdrop⟩ hoff rfl rfl hnone hqueue.symm
      hsuffix ?_ rfl ?_ (Nat.le_of_not_lt hlen) ?_ hsize
    · intro f hf
      rw [mem_singleton.1 hf]
      refine ⟨?_, seq_dtls1GetMessageHeader_lt _⟩
      rw [length_take]
      exact Nat.min_eq_left (Nat.le_of_not_lt hlen)
    · intro hin
      dsimp only at hin ⊢
      split_ifs with hchr
      · simp only [isRetransmittedHello, Bool.and_eq_true, beq_iff_eq] at hchr
        omega
      · rw [Bool.eq_false_iff.2 hchr, Bool.or_false] at hin
        exact eq_of_beq hin
    · rw [length_take, ne_eq] at hheader
      show (data.drop dtls1HmHeaderLength).length + dtls1HmHeaderLength ≤ s.initBuf.max
      rw [length_drop]
      omega
  · dsimp only
    rw [hmsg]
    obtain ⟨hframe, hrec, hqueue, hcounter, hbuf⟩ := hs' _ rfl
    exact .queued chretran hframe hrec hitem hqueue hcomplete hcounter hbuf

end QuicTls.Dtls
