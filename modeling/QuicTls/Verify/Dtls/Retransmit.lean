import QuicTls.Verify.Pqueue
import QuicTls.Verify.Dtls.Fragmentation

/-!
# Messages are resent in the order in which they were constructed

The queue is, item by item, the list of the messages that were constructed, without
HelloVerifyRequests: the priority of a new message lies behind those of the others (`Queued`). What
`dtls1_retransmit_buffered_messages` puts on the wire is described by `Resends`; the theorem about
whole handshakes is `retransmits_in_order`. Calls in which `dtls1_do_write` tries a later fragment
again by itself are left out (`noLateResends`).
-/

namespace QuicTls.DtlsWrite

open List

open Dtls (dtls1HmHeaderLength)

variable {ω : Type} {cfg : Config} {s s' : Sender ω} {m : Message} {o : Outgoing ω} {ok : Bool}
  {n : Nat} {w : Writer ω} {c : Call}

/-! ### The item of a message -/

namespace Outgoing

/-- A whole message behind its header. -/
structure Whole (cfg : Config) (o : Outgoing ω) : Prop where
  fragOff : o.hdr.fragOff = 0
  fragLen : o.hdr.fragLen = o.hdr.msgLen
  length : o.data.length = o.hdr.msgLen + bufferedHeaderLength cfg !o.handshake
  ccs : o.handshake = false → o.hdr.msgLen = 0
  bound : o.hdr.msgLen + dtls1HmHeaderLength ≤ intMax

/-- What can be kept and resent. -/
structure WF (cfg : Config) (o : Outgoing ω) : Prop extends Whole cfg o where
  range : 0 ≤ o.priority ∧ o.priority < 2 ^ 16

/-- What is resent: of a ChangeCipherSpec only the first byte. -/
def resend (o : Outgoing ω) : Outgoing ω :=
  if o.handshake then o else { o with data := o.data.take dtls1CcsHeaderLength }

/-- The records of a message that was resent: fragments that cover it, or the first byte of a
ChangeCipherSpec, under the record layer of its time. -/
def Resent (o : Outgoing ω) (records : List (SentRecord ω)) : Prop :=
  if o.handshake then
    ∃ rs, Covers o.hdr (o.data.drop dtls1HmHeaderLength) rs ∧ records = rs.map (⟨o.wrl, true, ·⟩)
  else records = [⟨o.wrl, false, o.resend.data⟩]

/-- The records of a message whose sending failed. -/
def Begun (o : Outgoing ω) (records : List (SentRecord ω)) : Prop :=
  if o.handshake then
    ∃ parts, parts.flatten <+: o.data.drop dtls1HmHeaderLength ∧
      records = (fragments o.hdr 0 parts).map (⟨o.wrl, true, ·⟩)
  else records = []

/-- The message that was constructed. -/
def message (o : Outgoing ω) : Message :=
  if o.handshake then .handshake o.hdr.type (o.data.drop dtls1HmHeaderLength) else .changeCipherSpec

/-- Outside DTLS1_BAD_VER that is all of it. -/
theorem WF.resend (h : o.WF cfg) (hver : cfg.badVer = false) : o.resend = o := by
  have hlen := h.length
  rw [Outgoing.resend]
  split
  · rfl
  · rename_i hccs
    rw [Bool.not_eq_true] at hccs
    rw [hccs, h.ccs hccs, bufferedHeaderLength] at hlen
    simp only [hver, Bool.not_false, if_true, Bool.false_eq_true, if_false, Nat.zero_add] at hlen
    rw [take_of_length_le hlen.le]

end Outgoing

theorem decode_queueKey {p : Int} (h : 0 ≤ p ∧ p < 2 ^ 16) :
    BigEndian.decode (queueKey p) = p.toNat := by
  obtain ⟨n, rfl⟩ := Int.eq_ofNat_of_zero_le h.1
  have hzero : UInt8.toNat 0 = 0 := rfl
  simp only [queueKey, BigEndian.decode, foldl_cons, foldl_nil, UInt8.toNat_ofNat']
  omega

theorem Outgoing.WF.key (h : o.WF cfg) : Pqueue.key o.item = o.priority.toNat :=
  decode_queueKey h.range

theorem length_slice_packetWrite (initBuf : Bytes) (gap : Nat) (data : Bytes) :
    (slice (packetWrite initBuf gap data) 0 (gap + data.length)).length = gap + data.length := by
  apply length_slice
  rw [Nat.zero_add]
  exact length_packetWrite ..

theorem whole_outgoing (h : m.gap + (m.payload cfg s.nextHandshakeWriteSeq).length ≤ intMax) :
    (m.outgoing cfg s).Whole cfg := by
  cases m with
  | changeCipherSpec =>
    refine ⟨rfl, rfl, (length_slice_packetWrite ..).trans ?_, fun _ => rfl,
      show 12 ≤ intMax by decide⟩
    show 0 + List.length _ = 0 + bufferedHeaderLength cfg true
    rw [bufferedHeaderLength]
    cases hver : cfg.badVer <;> simp [Message.payload, hver]
    rfl
  | handshake htype body =>
    exact ⟨rfl, rfl, (length_slice_packetWrite ..).trans (Nat.add_comm ..), by rintro ⟨⟩,
      (Nat.add_comm ..).trans_le h⟩

theorem message_outgoing (cfg : Config) (s : Sender ω) (m : Message) :
    (m.outgoing cfg s).message = m := by
  cases m with
  | changeCipherSpec => rfl
  | handshake htype body =>
    have hbody : (slice (packetWrite s.writer.initBuf dtls1HmHeaderLength body) 0
        (dtls1HmHeaderLength + body.length)).drop dtls1HmHeaderLength = body := by
      rw [slice, drop_take, Nat.add_sub_cancel_left]
      exact slice_packetWrite ..
    exact congrArg (Message.handshake htype) hbody

/-! ### The queue during a handshake -/

/-- No ChangeCipherSpec comes right after another one, or first unless `ok`. -/
def ccsSeparated : Bool → List Message → Bool
  | _, [] => true
  | ok, .changeCipherSpec :: ms => ok && ccsSeparated false ms
  | _, .handshake .. :: ms => ccsSeparated true ms

/-- The sender after `n` messages; `ok` when a ChangeCipherSpec may come next. -/
structure Queued (cfg : Config) (ok : Bool) (n : Nat) (s : Sender ω) : Prop where
  next_le : s.nextHandshakeWriteSeq ≤ n
  next_pos : ok = true → 0 < s.nextHandshakeWriteSeq
  wf : ∀ o ∈ s.constructed, o.WF cfg
  /-- room behind the last priority: for a ChangeCipherSpec, or only for a handshake message -/
  below : ∀ o ∈ s.constructed,
    o.priority + (if ok then 2 else 1) ≤ 2 * (s.nextHandshakeWriteSeq : Int)
  increasing : s.constructed.Pairwise fun a b => a.priority < b.priority
  queue : s.sentMessages = (s.constructed.filter Outgoing.buffered).map Outgoing.item

theorem Queued.sorted (h : Queued cfg ok n s) : Pqueue.Sorted s.sentMessages := by
  rw [h.queue]
  constructor
  · intro item hitem
    obtain ⟨o, -, rfl⟩ := mem_map.1 hitem
    rfl
  refine pairwise_map.2 ((h.increasing.filter _).imp_of_mem ?_)
  intro a b ha hb hlt
  have hwa := h.wf a (mem_of_mem_filter ha)
  have hwb := h.wf b (mem_of_mem_filter hb)
  have hra := hwa.range
  rw [hwa.key, hwb.key]
  omega

theorem priority_outgoing (cfg : Config) (s : Sender ω) (m : Message) :
    (m.outgoing cfg s).priority = s.nextHandshakeWriteSeq * 2 - (!m.isHandshake).toNat := by
  cases m <;> rfl

theorem nextHandshakeWriteSeq_constructed (cfg : Config) (m : Message)
    (hlt : s.nextHandshakeWriteSeq < 2 ^ 15) : (m.constructed cfg s).nextHandshakeWriteSeq =
      s.nextHandshakeWriteSeq + (m.isHandshake || cfg.badVer).toNat := by
  rw [Message.constructed]
  split
  · rename_i hinc
    rw [hinc, Nat.mod_eq_of_lt (by omega)]
    rfl
  · rename_i hinc
    rw [Bool.not_eq_true] at hinc
    rw [hinc]
    rfl

/-- A new message has a larger priority than those in the queue. -/
theorem Queued.priority (h : Queued cfg ok n s) (hn : n < 2 ^ 15)
    (hok : m.isHandshake = false → ok = true) :
    (0 ≤ (m.outgoing cfg s).priority ∧ (m.outgoing cfg s).priority < 2 ^ 16) ∧
      (∀ a ∈ s.constructed, a.priority < (m.outgoing cfg s).priority) ∧
      (m.outgoing cfg s).priority + (if m.isHandshake then 2 else 1) ≤
        2 * ((m.constructed cfg s).nextHandshakeWriteSeq : Int) := by
  have hnext := h.next_le
  rw [nextHandshakeWriteSeq_constructed cfg m (by omega), priority_outgoing]
  cases hk : m.isHandshake with
  | true =>
    simp only [Bool.not_true, Bool.toNat_false, Bool.true_or, Bool.toNat_true]
    refine ⟨by omega, ?_, by omega⟩
    intro a ha
    have hbelow := h.below a ha
    split at hbelow <;> omega
  | false =>
    have hpos := h.next_pos (hok hk)
    simp only [Bool.not_false, Bool.toNat_true, Bool.false_eq_true, if_false]
    refine ⟨by omega, ?_, by omega⟩
    intro a ha
    have hbelow := h.below a ha
    rw [if_pos (hok hk)] at hbelow
    omega

/-- A new message is queued behind the others. -/
theorem Queued.construct (h : Queued cfg ok n s) (hn : n < 2 ^ 15)
    (hok : m.isHandshake = false → ok = true) (hm : constructMessage cfg s m = some s') :
    Queued cfg m.isHandshake (n + 1) s' ∧ s'.constructed = s.constructed ++ [m.outgoing cfg s] := by
  have hle := h.next_le
  obtain ⟨hbound, rfl⟩ := constructMessage_eq hm
  obtain ⟨hrange, hlt, hbelow⟩ := h.priority hn hok
  have hnext := nextHandshakeWriteSeq_constructed cfg m (show s.nextHandshakeWriteSeq < _ by omega)
  have hwf : (m.outgoing cfg s).WF cfg := ⟨whole_outgoing hbound, hrange⟩
  have hinsert : s.sentMessages.pqueueInsert (m.outgoing cfg s).item =
      some (s.sentMessages ++ [(m.outgoing cfg s).item]) := by
    apply Pqueue.pqueueInsert_of_lt
    · intro item hitem
      exact h.sorted.length item hitem
    rw [h.queue]
    intro item hitem
    obtain ⟨a, ha, rfl⟩ := mem_map.1 hitem
    have hmem := mem_of_mem_filter ha
    have hap := hlt a hmem
    have hrange := (h.wf a hmem).range
    rw [(h.wf a hmem).key, hwf.key]
    omega
  refine ⟨⟨?_, ?_, ?_, ?_, ?_, ?_⟩, rfl⟩
  · have hone := Bool.toNat_le (m.isHandshake || cfg.badVer)
    omega
  · intro hk
    rw [hnext, hk]
    exact Nat.succ_pos _
  · exact forall_mem_append.2 ⟨h.wf, forall_mem_singleton.2 hwf⟩
  · refine forall_mem_append.2 ⟨fun a ha => ?_, forall_mem_singleton.2 hbelow⟩
    have hap := hlt a ha
    omega
  · exact pairwise_append.2 ⟨h.increasing, pairwise_singleton .., fun a ha =>
      forall_mem_singleton.2 (hlt a ha)⟩
  · rw [Message.constructed, filter_append, map_append, ← h.queue, hinsert]
    cases hb : (m.outgoing cfg s).buffered with
    | true => simp [hb]
    | false => simp [hb]

/-- The writer when a message is to be sent again. -/
def resumed (w : Writer ω) (o : Outgoing ω) : Writer ω :=
  { w with
    initBuf := overwrite w.initBuf 0 o.resend.data
    initNum := o.resend.data.length
    wMsgHdr := o.hdr
    retransmitting := true
    wrl := o.wrl }

theorem Outgoing.WF.take_data (h : o.WF cfg) :
    o.data.take (o.hdr.msgLen + if o.handshake then dtls1HmHeaderLength else dtls1CcsHeaderLength)
      = o.resend.data := by
  have hlen := h.length
  rw [Outgoing.resend]
  cases hk : o.handshake with
  | true =>
    rw [hk] at hlen
    exact take_of_length_le hlen.le
  | false =>
    rw [h.ccs hk]
    rfl

theorem Outgoing.WF.length_resend (h : o.WF cfg) : o.resend.data.length =
    o.hdr.msgLen + if o.handshake then dtls1HmHeaderLength else dtls1CcsHeaderLength := by
  have hlen := h.length
  rw [← h.take_data, length_take]
  rw [hlen, bufferedHeaderLength]
  cases hk : o.handshake <;> cases hv : cfg.badVer <;> simp [dtls1CcsHeaderLength]

/-- A message is sent again, under its record layer. -/
def resendMessage (cfg : Config) (w : Writer ω) (o : Outgoing ω) (c : Call) : Writer ω × Int :=
  let r := dtls1DoWrite cfg o.handshake (resumed w o) c
  ({ r.1 with wrl := w.wrl, retransmitting := false }, r.2)

/-- The message is found in the queue under its priority and sent again. -/
theorem dtls1RetransmitMessage_eq (hsorted : Pqueue.Sorted s.sentMessages)
    (hmem : o.item ∈ s.sentMessages) (h : o.WF cfg) (c : Call) :
    dtls1RetransmitMessage cfg s (o.priority % 2 ^ 16).toNat c =
      let r := resendMessage cfg s.writer o c
      ({ s with writer := r.1 }, r.2, true) := by
  have hseq : ((o.priority % 2 ^ 16).toNat : Int) = o.priority := by
    have hrange := h.range
    omega
  have hfind : s.sentMessages.pqueueFind (queueKey o.priority) = some o.item :=
    hsorted.pqueueFind hmem
  have hhdr : { o.hdr with fragOff := 0 } = o.hdr := by rw [← h.fragOff]
  have hhead : (if o.item.data.isCcs then dtls1CcsHeaderLength else dtls1HmHeaderLength) =
      if o.handshake then dtls1HmHeaderLength else dtls1CcsHeaderLength := by
    rw [Outgoing.item]
    cases o.handshake <;> rfl
  have hnot : (!o.item.data.isCcs) = o.handshake := Bool.not_not _
  have hw : { s.writer with
      initBuf := overwrite s.writer.initBuf 0 (o.item.data.fragment.take
        (o.item.data.msgHeader.msgLen +
          if o.item.data.isCcs then dtls1CcsHeaderLength else dtls1HmHeaderLength))
      initNum := o.item.data.msgHeader.msgLen +
        if o.item.data.isCcs then dtls1CcsHeaderLength else dtls1HmHeaderLength
      wMsgHdr := { o.item.data.msgHeader with fragOff := 0 }
      retransmitting := true
      wrl := o.item.data.savedWrl } = resumed s.writer o := by
    rw [hhead, resumed, h.length_resend, ← h.take_data]
    simp only [Outgoing.item, hhdr]
  rw [dtls1RetransmitMessage, hseq, hfind]
  dsimp only
  rw [hw, hnot]
  rfl

/-! #### A ChangeCipherSpec -/

/-- The writer after the single byte of a ChangeCipherSpec was sent. -/
def sentByte (w : Writer ω) : Writer ω :=
  { w with
    sent := w.sent ++ [⟨w.wrl, false, slice w.initBuf w.initOff 1⟩]
    initOff := 0
    initNum := 0 }

/-- The byte is sent, or nothing is, and the MTU may change. -/
theorem doWriteTurn_changeCipherSpec (hnum : w.initNum = 1) (overhead fragOff : Nat) (retry : Bool)
    (t : Turn) :
    t.write = .sent ∧ doWriteTurn cfg false overhead w fragOff retry t = (sentByte w, .done 1) ∨
      ¬(t.Good ∧ overhead + dtls1HmHeaderLength < w.mtu) ∧
        ((∃ ret ≤ 0, doWriteTurn cfg false overhead w fragOff retry t = (w, .done ret)) ∨
          ∃ mtu, doWriteTurn cfg false overhead w fragOff retry t =
            ({ w with mtu := mtu }, .again fragOff false)) := by
  have hmax := cfg.le_maxSendFragment
  rw [doWriteTurn, makeRoom, if_neg (by simp)]
  dsimp only
  obtain ⟨m, hcurr, hm⟩ | ⟨ret, hret, hcurr, hbad⟩ := currMtu_spec w.mtu overhead t <;> rw [hcurr]
  rotate_left
  · exact .inr ⟨fun h => hbad ⟨h.1.1, h.2⟩, .inl ⟨ret, hret, rfl⟩⟩
  have hone : recordLen cfg w.initNum m = w.initNum := by
    have hle : ¬1 > m := by omega
    rw [recordLen, hnum, Nat.mod_eq_of_lt (by decide), if_neg hle, if_neg (by omega)]
  dsimp only
  rw [hone, if_neg (by simp), if_neg (by simp), Turn.Good]
  cases t.write with
  | sent =>
    refine .inl ⟨rfl, ?_⟩
    simp [afterWrite, afterSent, logSent, sentByte, hnum]
  | failed => exact .inr ⟨by simp, .inl ⟨-1, by decide, rfl⟩⟩
  | mtuExceeded mtu =>
    refine .inr ⟨by simp, ?_⟩
    rw [afterWrite.eq_def]
    dsimp only
    split
    · cases mtu with
      | none => exact .inl ⟨-1, by decide, rfl⟩
      | some mtu => exact .inr ⟨mtu, rfl⟩
    · exact .inl ⟨-1, by decide, rfl⟩

/-- What a call for a ChangeCipherSpec leaves. -/
inductive ByteSpec (before after : List (SentRecord ω)) : Writer ω × Int → Prop
  | sent {w : Writer ω} (hoff : w.initOff = 0) (hsent : w.sent = after) :
    ByteSpec before after (w, 1)
  | failed {w : Writer ω} {ret : Int} (hret : ret ≤ 0) (hsent : w.sent = before) :
    ByteSpec before after (w, ret)

/-- ChangeCipherSpec has one byte: it is sent in one record or not at all. -/
theorem doWriteLoop_changeCipherSpec (hnum : w.initNum = 1) {overhead fragOff : Nat} {retry : Bool}
    {turns : List Turn} :
    ByteSpec w.sent (sentByte w).sent (doWriteLoop cfg false overhead w fragOff retry turns) := by
  induction turns generalizing w retry with
  | nil =>
    rw [doWriteLoop, if_pos (by simp [hnum])]
    rcases @doWriteTurn_changeCipherSpec ω cfg w hnum overhead fragOff retry ⟨0, 1, .failed⟩
      with ⟨hsent, -⟩ | ⟨-, ⟨ret, -, heq⟩ | ⟨mtu, heq⟩⟩
    · cases hsent
    · exact .failed (by decide) (by rw [heq])
    · exact .failed (by decide) (by rw [heq])
  | cons t ts ih =>
    rw [doWriteLoop, if_pos (by simp [hnum])]
    rcases @doWriteTurn_changeCipherSpec ω cfg w hnum overhead fragOff retry t with
      ⟨-, heq⟩ | ⟨-, ⟨ret, hret, heq⟩ | ⟨mtu, heq⟩⟩ <;> rw [heq]
    · exact .sent rfl rfl
    · exact .failed hret rfl
    · exact @ih { w with mtu := mtu } hnum false

theorem dtls1DoWrite_changeCipherSpec (hnum : w.initNum = 1) (c : Call) :
    ByteSpec w.sent (sentByte w).sent (dtls1DoWrite cfg false w c) := by
  rw [dtls1DoWrite]
  cases c.mtu with
  | none => exact .failed (by decide) rfl
  | some mtu =>
    dsimp only
    split
    · exact .failed (by decide) rfl
    · rw [if_neg (by simp)]
      exact @doWriteLoop_changeCipherSpec ω cfg { w with mtu := mtu } hnum c.overhead 0 true c.turns

theorem dtls1DoWrite_changeCipherSpec_good (hnum : w.initNum = 1) (hc : c.Good n) :
    (dtls1DoWrite cfg false w c).2 = 1 := by
  obtain ⟨mtu, hmtu, hmin, hover⟩ := hc.mtu
  have hlen := hc.length
  rw [dtls1DoWrite, hmtu]
  dsimp only
  rw [if_neg (Nat.not_lt.2 hmin), if_neg (by simp)]
  cases hts : c.turns with
  | nil =>
    rw [hts] at hlen
    exact absurd hlen (Nat.not_lt_zero _)
  | cons t ts =>
    rw [doWriteLoop, if_pos (by simp [hnum])]
    obtain ⟨-, heq⟩ | ⟨hbad, -⟩ :=
      @doWriteTurn_changeCipherSpec ω cfg { w with mtu := mtu } hnum c.overhead 0 true t
    · rw [heq]
    · exact absurd ⟨hc.turns t (hts ▸ mem_cons_self), hover⟩ hbad

/-- A queued message is ready to be sent from its start. -/
theorem Outgoing.WF.suspended (h : o.WF cfg) (hk : o.handshake = true) (hoff : w.initOff = 0) :
    Suspended cfg (resumed w o) o.hdr (o.data.drop dtls1HmHeaderLength) 0 (resumed w o) ∧
      (o.data.drop dtls1HmHeaderLength).length = o.hdr.msgLen := by
  have hlen := h.length_resend
  have hres : o.resend = o := by rw [Outgoing.resend, if_pos hk]
  rw [hk, if_pos rfl, hres] at hlen
  have hbody : (o.data.drop dtls1HmHeaderLength).length = o.hdr.msgLen := by
    rw [length_drop, hlen, Nat.add_sub_cancel]
  have hbuf : (resumed w o).initBuf = o.data ++ w.initBuf.drop (0 + o.data.length) := by
    rw [resumed, hres]
    rfl
  refine ⟨@Suspended.start ω cfg (resumed w o) _ hbody.symm ?_ ?_ ?_ hoff ?_, hbody⟩
  · rw [hbody]
    exact h.bound
  · rw [hbuf, length_append]
    omega
  · rw [hbuf, slice, drop_append_of_le_length (by omega)]
    exact take_left
  · show o.resend.data.length = _
    rw [hres, hlen, hbody]

theorem Outgoing.WF.initNum_resumed (h : o.WF cfg) (hk : o.handshake = false) :
    (resumed w o).initNum = 1 := by
  show o.resend.data.length = 1
  rw [h.length_resend, h.ccs hk, hk]
  rfl

/-- A message is resent completely, or from its beginning as far as the writes succeed. -/
theorem resendMessage_spec (h : o.WF cfg) (hoff : w.initOff = 0)
    (hlate : (!o.handshake || c.noLateRetry cfg (resumed w o)) = true) :
    ∃ records, (resendMessage cfg w o c).1.sent = w.sent ++ records ∧
      ((resendMessage cfg w o c).2 = 1 ∧ (resendMessage cfg w o c).1.initOff = 0 ∧
          o.Resent records ∨
        (resendMessage cfg w o c).2 ≤ 0 ∧ o.Begun records) := by
  simp only [resendMessage, Outgoing.Resent, Outgoing.Begun]
  cases hk : o.handshake with
  | false =>
    have hnum := h.initNum_resumed (w := w) hk
    have hspec := @dtls1DoWrite_changeCipherSpec ω cfg _ hnum c
    simp only [Bool.false_eq_true, if_false]
    generalize dtls1DoWrite cfg false (resumed w o) c = r at hspec ⊢
    cases hspec with
    | sent hend hsent =>
      have hbyte : slice (resumed w o).initBuf w.initOff 1 = o.resend.data := by
        rw [hoff, ← hnum, slice, drop_zero]
        exact take_left
      exact ⟨_, hsent, .inl ⟨rfl, hend, congrArg (fun b => [SentRecord.mk o.wrl false b]) hbyte⟩⟩
    | failed hret hsent => exact ⟨[], hsent.trans (append_nil _).symm, .inr ⟨hret, rfl⟩⟩
  | true =>
    obtain ⟨hs, hbody⟩ := h.suspended hk hoff
    rw [hk] at hlate
    have hspec := hs.doWrite hlate
    simp only [if_true]
    generalize dtls1DoWrite cfg true (resumed w o) c = r at hspec ⊢
    cases hspec with
    | finished hfin =>
      obtain ⟨parts, buf, off, l, mtu, hflat, hne, hnil, rfl⟩ := hfin
      exact ⟨_, rfl, .inl ⟨rfl, rfl, _, covers_fragments hflat hne hnil hbody.symm, rfl⟩⟩
    | failed hret hsusp =>
      obtain ⟨parts, buf, off, l, mtu, hp, -, rfl⟩ := hsusp
      exact ⟨_, rfl, .inr ⟨hret, parts, hp.flatten ▸ take_prefix .., rfl⟩⟩

theorem resendMessage_good (h : o.WF cfg) (hoff : w.initOff = 0) (hc : c.Good o.hdr.msgLen) :
    (resendMessage cfg w o c).2 = 1 := by
  rw [resendMessage]
  cases hk : o.handshake with
  | false => exact dtls1DoWrite_changeCipherSpec_good (h.initNum_resumed hk) hc
  | true =>
    obtain ⟨hs, hbody⟩ := h.suspended hk hoff
    exact hs.doWrite_good (by rwa [hbody])

/-- What a retransmission of messages puts on the wire, and what it returns: the records of one
message after the other, until a write fails. -/
inductive Resends : List (Outgoing ω) → List (SentRecord ω) → Int → Prop
  | done : Resends [] [] 1
  | failed {o : Outgoing ω} {os : List (Outgoing ω)} {records : List (SentRecord ω)}
    (h : o.Begun records) : Resends (o :: os) records (-1)
  | next {o : Outgoing ω} {os : List (Outgoing ω)} {records rest : List (SentRecord ω)} {ret : Int}
    (h : o.Resent records) (hrest : Resends os rest ret) : Resends (o :: os) (records ++ rest) ret

/-- No call of a retransmission tries a later fragment again by itself. -/
def noLateResends (cfg : Config) (w : Writer ω) : List (Outgoing ω) → List Call → Bool
  | [], _ => true
  | o :: os, calls =>
    let c := calls.headD ⟨none, 0, 0, []⟩
    (!o.handshake || c.noLateRetry cfg (resumed w o)) &&
      noLateResends cfg (resendMessage cfg w o c).1 os calls.tail

theorem noLateResends_of_good {os : List (Outgoing ω)} {calls : List Call}
    (hg : ∀ c ∈ calls, ∀ o ∈ os, c.Good o.hdr.msgLen) (hcalls : os.length ≤ calls.length) :
    noLateResends cfg w os calls = true := by
  induction os generalizing w calls with
  | nil => rfl
  | cons o os ih =>
    cases calls with
    | nil => exact absurd hcalls (Nat.not_succ_le_zero _)
    | cons c cs =>
      refine Bool.and_eq_true_iff.2 ⟨?_, ?_⟩
      · rw [headD_cons, (hg c mem_cons_self o mem_cons_self).noLateRetry, Bool.or_true]
      · exact ih (fun c hc o ho => hg c (mem_cons_of_mem _ hc) o (mem_cons_of_mem _ ho))
          (Nat.le_of_succ_le_succ hcalls)

/-- Messages of the queue are resent one after the other, until a write fails. -/
theorem retransmitLoop_spec {os : List (Outgoing ω)} {calls : List Call}
    (hsorted : Pqueue.Sorted s.sentMessages) (hmem : ∀ o ∈ os, o.item ∈ s.sentMessages)
    (hwf : ∀ o ∈ os, o.WF cfg) (hoff : s.writer.initOff = 0)
    (hlate : noLateResends cfg s.writer os calls = true) :
    let r := retransmitLoop cfg s (os.map Outgoing.item) calls
    (∃ records, r.1.writer.sent = s.writer.sent ++ records ∧ Resends os records r.2) ∧
      ((∀ c ∈ calls, ∀ o ∈ os, c.Good o.hdr.msgLen) → os.length ≤ calls.length → r.2 = 1) := by
  induction os generalizing s calls with
  | nil => exact ⟨⟨[], (append_nil _).symm, .done⟩, fun _ _ => rfl⟩
  | cons o os ih =>
    obtain ⟨hfirst, hothers⟩ := Bool.and_eq_true_iff.1 hlate
    have ho := hwf o mem_cons_self
    have heq := dtls1RetransmitMessage_eq hsorted (hmem o mem_cons_self) ho
      (calls.headD ⟨none, 0, 0, []⟩)
    have hseq : (dtls1GetQueuePriority o.item.data.msgHeader.seq o.item.data.isCcs % 2 ^ 16).toNat =
        (o.priority % 2 ^ 16).toNat := rfl
    have hgood : (∀ c ∈ calls, ∀ o' ∈ o :: os, c.Good o'.hdr.msgLen) →
        (o :: os).length ≤ calls.length →
        (resendMessage cfg s.writer o (calls.headD ⟨none, 0, 0, []⟩)).2 = 1 := by
      intro hg hcalls
      cases calls with
      | nil => exact absurd hcalls (Nat.not_succ_le_zero _)
      | cons c cs => exact resendMessage_good ho hoff (hg c mem_cons_self o mem_cons_self)
    obtain ⟨records, hsent, hspec⟩ := resendMessage_spec ho hoff hfirst
    rw [map_cons, retransmitLoop, hseq, heq]
    dsimp only at hothers ⊢
    generalize resendMessage cfg s.writer o (calls.headD ⟨none, 0, 0, []⟩) = r at *
    rcases hspec with ⟨hone, hend, hresent⟩ | ⟨hret, hbegun⟩
    · rw [if_neg (by omega)]
      obtain ⟨⟨rest, hrest, hresends⟩, hall⟩ := @ih { s with writer := r.1 } calls.tail hsorted
        (fun o ho => hmem o (mem_cons_of_mem _ ho)) (fun o ho => hwf o (mem_cons_of_mem _ ho)) hend
        hothers
      refine ⟨⟨records ++ rest, ?_, .next hresent hresends⟩, fun hg hcalls => ?_⟩
      · rw [hrest, hsent, append_assoc]
      apply hall
      · intro c hc o ho
        exact hg c (mem_of_mem_tail hc) o (mem_cons_of_mem _ ho)
      · rw [length_tail]
        rw [length_cons] at hcalls
        omega
    · rw [if_pos hret]
      refine ⟨⟨records, hsent, .failed hbegun⟩, fun hg hcalls => ?_⟩
      have hone := hgood hg hcalls
      omega

/-! ### A handshake -/

/-- A retransmission changes only the writer. -/
theorem retransmitLoop_eq (cfg : Config) (s : Sender ω) (items : Pqueue (SentFragment ω))
    (calls : List Call) : ∃ w, (retransmitLoop cfg s items calls).1 = { s with writer := w } := by
  induction items generalizing s calls with
  | nil => exact ⟨s.writer, rfl⟩
  | cons item items ih =>
    rw [retransmitLoop]
    generalize hseq : Int.toNat _ = seq
    generalize calls.headD _ = call
    obtain ⟨w, hstep⟩ :
        ∃ w, (dtls1RetransmitMessage cfg s seq call).1 = { s with writer := w } := by
      rw [dtls1RetransmitMessage]
      split <;> exact ⟨_, rfl⟩
    rw [hstep]
    split
    · exact ⟨w, rfl⟩
    · exact ih _ calls.tail

theorem Queued.of_same (h : Queued cfg ok n s) (w : Writer ω) :
    Queued cfg ok n { s with writer := w } :=
  ⟨h.next_le, h.next_pos, h.wf, h.below, h.increasing, h.queue⟩

/-- Every event keeps the queue in order and logs the message it constructs. -/
theorem Queued.step {e : Event ω} (h : Queued cfg ok n s) (hn : n + (messages [e]).length ≤ 2 ^ 15)
    (hccs : ccsSeparated ok (messages [e]) = true) (hstep : step cfg s e = some s') :
    ∃ ok', Queued cfg ok' (n + (messages [e]).length) s' ∧
      (∀ ms, ccsSeparated ok (messages [e] ++ ms) = true → ccsSeparated ok' ms = true) ∧
      s'.constructed.map Outgoing.message = s.constructed.map Outgoing.message ++ messages [e] := by
  cases e with
  | construct m =>
    have hok : m.isHandshake = false → ok = true := by
      intro hk
      cases m with
      | changeCipherSpec => exact (Bool.and_eq_true_iff.1 hccs).1
      | handshake htype body => cases hk
    obtain ⟨hq, hlog⟩ := h.construct hn hok hstep
    refine ⟨m.isHandshake, hq, ?_, ?_⟩
    · intro ms hms
      cases m with
      | changeCipherSpec => exact (Bool.and_eq_true_iff.1 hms).2
      | handshake htype body => exact hms
    · rw [hlog, map_append, map_singleton, message_outgoing]
      rfl
  | write handshake c | setWriteState wrl =>
    cases hstep
    exact ⟨ok, h.of_same _, fun _ hms => hms, (append_nil _).symm⟩
  | retransmit calls =>
    cases hstep
    obtain ⟨w, heq⟩ := retransmitLoop_eq cfg s s.sentMessages calls
    rw [dtls1RetransmitBufferedMessages, heq]
    exact ⟨ok, h.of_same w, fun _ hms => hms, (append_nil _).symm⟩

theorem messages_cons (e : Event ω) (events : List (Event ω)) :
    messages (e :: events) = messages [e] ++ messages events := by
  cases e <;> rfl

theorem ccsSeparated_left {ms ms' : List Message} (h : ccsSeparated ok (ms ++ ms') = true) :
    ccsSeparated ok ms = true := by
  induction ms generalizing ok with
  | nil => rfl
  | cons m ms ih =>
    cases m with
    | changeCipherSpec =>
      obtain ⟨hok, hrest⟩ := Bool.and_eq_true_iff.1 h
      exact Bool.and_eq_true_iff.2 ⟨hok, ih hrest⟩
    | handshake htype body => exact ih h

/-- The queue holds what a handshake has constructed. -/
theorem Queued.steps {events : List (Event ω)} (h : Queued cfg ok n s)
    (hn : n + (messages events).length ≤ 2 ^ 15) (hccs : ccsSeparated ok (messages events) = true)
    (hsteps : steps cfg s events = some s') :
    ∃ ok', Queued cfg ok' (n + (messages events).length) s' ∧ s'.constructed.map Outgoing.message =
        s.constructed.map Outgoing.message ++ messages events := by
  induction events generalizing s ok n with
  | nil =>
    cases hsteps
    exact ⟨ok, h, (append_nil _).symm⟩
  | cons e events ih =>
    rw [messages_cons, length_append] at hn
    rw [messages_cons] at hccs
    obtain ⟨s₁, hstep, hrest⟩ := Option.bind_eq_some_iff.1 hsteps
    obtain ⟨ok₁, h₁, hok, hlog⟩ := h.step (by omega) (ccsSeparated_left hccs) hstep
    obtain ⟨ok', h', hlog'⟩ := ih h₁ (by omega) (hok _ hccs) hrest
    refine ⟨ok', ?_, ?_⟩
    · rwa [messages_cons, length_append, ← Nat.add_assoc]
    · rw [hlog', hlog, messages_cons e events, append_assoc]

/-- The beginning of a handshake: nothing was constructed yet. -/
structure Sender.Fresh (s : Sender ω) : Prop where
  next : s.nextHandshakeWriteSeq = 0
  constructed : s.constructed = []
  sentMessages : s.sentMessages = []

theorem Sender.Fresh.queued (h : s.Fresh) (cfg : Config) : Queued cfg false 0 s where
  next_le := h.next.le
  next_pos := nofun
  wf := by simp [h.constructed]
  below := by simp [h.constructed]
  increasing := by simp [h.constructed]
  queue := by simp [h.constructed, h.sentMessages]

/-- In a handshake of fewer than 2^15 messages, whatever else happens between them, none of the
messages but HelloVerifyRequests is missing in the queue. A retransmission puts the records of these
messages on the wire in the order in which the messages were constructed, each one complete and with
the record layer of its time before the next begins, until a write fails; it returns 1 if and only
if it has resent all. Left out are calls that try a later fragment again by themselves when the MTU
was exceeded. Outside DTLS1_BAD_VER messages are resent byte for byte. -/
theorem retransmits_in_order {ω : Type} {cfg : Config} {s₀ s : Sender ω} {events : List (Event ω)}
    {calls : List Call} (hfresh : s₀.Fresh) (hccs : ccsSeparated false (messages events) = true)
    (hlen : (messages events).length < 2 ^ 15) (hsteps : steps cfg s₀ events = some s)
    (hoff : s.writer.initOff = 0) :
    let kept := s.constructed.filter Outgoing.buffered
    let r := dtls1RetransmitBufferedMessages cfg s calls
    s.constructed.map Outgoing.message = messages events ∧ s.sentMessages = kept.map Outgoing.item ∧
      (noLateResends cfg s.writer kept calls = true →
        ∃ records, r.1.writer.sent = s.writer.sent ++ records ∧ Resends kept records r.2) ∧
      ((∀ c ∈ calls, ∀ o ∈ kept, c.Good o.hdr.msgLen) → kept.length ≤ calls.length →
        noLateResends cfg s.writer kept calls = true ∧ r.2 = 1) ∧
      (cfg.badVer = false → ∀ o ∈ kept, o.resend = o) := by
  intro kept r
  obtain ⟨ok, h, hlog⟩ := (hfresh.queued cfg).steps (by omega) hccs hsteps
  have hwf : ∀ o ∈ kept, o.WF cfg := fun o ho => h.wf o (mem_of_mem_filter ho)
  have hmem : ∀ o ∈ kept, o.item ∈ s.sentMessages := by
    intro o ho
    rw [h.queue]
    exact mem_map_of_mem ho
  have hloop := @retransmitLoop_spec ω cfg s kept calls h.sorted hmem hwf hoff
  rw [← h.queue] at hloop
  refine ⟨?_, h.queue, fun hlate => (hloop hlate).1, fun hg hcalls => ?_, ?_⟩
  · rw [hlog, hfresh.constructed]
    rfl
  · have hlate : noLateResends cfg s.writer kept calls = true := noLateResends_of_good hg hcalls
    exact ⟨hlate, (hloop hlate).2 hg hcalls⟩
  · exact fun hver o ho => (hwf o ho).resend hver

/-- A message that is cut into two records, a ChangeCipherSpec, the new keys and a Finished; all are
sent once more. -/
theorem retransmits_in_order_last_flight :
    let events : List (Event Nat) :=
      [.construct (.handshake 16 [1, 2, 3]), .construct .changeCipherSpec, .setWriteState 1,
        .construct (.handshake 20 [7])]
    let calls : List Call := List.replicate 3 ⟨some 300, 200, 20, List.replicate 4 ⟨266, 1, .sent⟩⟩
    let wire : List (SentRecord Nat) := [⟨0, true, fragmentHeader ⟨16, 3, 0, 0, 3⟩ 0 2 ++ [1, 2]⟩,
      ⟨0, true, fragmentHeader ⟨16, 3, 0, 0, 3⟩ 2 1 ++ [3]⟩, ⟨0, false, [1]⟩,
      ⟨1, true, fragmentHeader ⟨20, 1, 1, 0, 1⟩ 0 1 ++ [7]⟩]
    ∃ s, steps (plainConfig false) (Sender.init 0) events = some s ∧
      let r := dtls1RetransmitBufferedMessages (plainConfig false) s calls
      r.2 = 1 ∧ r.1.writer.sent = wire ∧ Resends s.constructed wire 1 := by
  intro events calls wire
  have heval : (steps (plainConfig false) (Sender.init 0) events).any (fun s =>
      s.writer.initOff = 0 ∧ s.writer.sent = [] ∧
      s.constructed.filter Outgoing.buffered = s.constructed ∧ s.constructed.length = 3 ∧
      (∀ o ∈ s.constructed, o.hdr.msgLen < 4) ∧
      (dtls1RetransmitBufferedMessages (plainConfig false) s calls).1.writer.sent = wire) =
        true := by
    decide +kernel
  obtain ⟨s, hsteps, hs⟩ := (Option.any_eq_true ..).1 heval
  obtain ⟨hoff, hnone, hkept, hlen, hmsg, hwire⟩ := of_decide_eq_true hs
  have hcalls (n : Nat) (hn : n < 4) : ∀ c ∈ calls, c.Good n := by
    intro c hc
    rw [eq_of_mem_replicate hc]
    exact ⟨⟨300, rfl, by decide, by decide⟩,
      fun t ht => eq_of_mem_replicate ht ▸ ⟨by decide, rfl⟩, hn⟩
  obtain ⟨-, -, hrecords, hgood, -⟩ := @retransmits_in_order Nat (plainConfig false) (Sender.init 0)
    s events calls ⟨rfl, rfl, rfl⟩ rfl (by decide) hsteps hoff
  rw [hkept, hnone] at hrecords
  rw [hkept, hlen] at hgood
  obtain ⟨hlate, hdone⟩ := hgood (fun c hc o ho => hcalls _ (hmsg o ho) c hc) (by decide)
  obtain ⟨records, hsent, hresends⟩ := hrecords hlate
  rw [hdone, ← hsent.trans (nil_append _), hwire] at hresends
  exact ⟨s, hsteps, hdone, hwire, hresends⟩

/-- A HelloVerifyRequest is constructed, and is not resent. -/
theorem hello_verify_request_not_resent :
    ∃ s, steps (plainConfig false) (Sender.init 0)
        [.construct (.handshake dtls1MtHelloVerifyRequest [1])] = some s ∧
      s.constructed.length = 1 ∧ ∀ calls,
        (dtls1RetransmitBufferedMessages (plainConfig false) s calls).2 = 1 ∧
        (dtls1RetransmitBufferedMessages (plainConfig false) s calls).1.writer.sent = [] :=
  ⟨_, rfl, rfl, fun _ => ⟨rfl, rfl⟩⟩

end QuicTls.DtlsWrite
