import QuicTls.Verify.Dtls.Bitmask
import QuicTls.Verify.Pqueue

/-!
# What a message is assembled from

Every byte of a buffered message whose bit is set comes from a received fragment with the message's
number, and so does every byte of a message that is delivered.
-/

namespace QuicTls

open Rsmbly List

/-- The fragment holds byte `i` of message `seq`. -/
def DtlsReceived.Covers (f : DtlsReceived) (seq i : Nat) : Prop :=
  f.msgHdr.seq = seq ∧ f.msgHdr.fragOff ≤ i ∧ i < f.msgHdr.fragOff + f.msgHdr.fragLen

/-- Byte `i` of the contents comes from a fragment of message `seq`. -/
def Sourced (received : List DtlsReceived) (seq : Nat) (bytes : Bytes) (i : Nat) : Prop :=
  ∃ f ∈ received, f.Covers seq i ∧ bytes[i]? = f.body[i - f.msgHdr.fragOff]?

/-- A fragment was received with this number, type and length. -/
def Announced (received : List DtlsReceived) (hdr : HmHeader) : Prop :=
  ∃ f ∈ received, f.msgHdr.seq = hdr.seq ∧ f.msgHdr.type = hdr.type ∧ f.msgHdr.msgLen = hdr.msgLen

/-- What is known of a buffered message. -/
structure Assembled (received : List DtlsReceived) (frag : HmFragment) : Prop where
  announced : Announced received frag.msgHeader
  fragOff : frag.msgHeader.fragOff = 0
  fragLen : frag.msgHeader.fragLen = frag.msgHeader.msgLen
  length : frag.fragment.length = frag.msgHeader.msgLen
  bitmask : ∀ bm, frag.reassembly = some bm → bm.length = bitmaskSize frag.msgHeader.msgLen
  sourced : ∀ i < frag.msgHeader.msgLen, (∀ bm, frag.reassembly = some bm → bit bm i = true) →
    Sourced received frag.msgHeader.seq frag.fragment i

section

variable {received received' : List DtlsReceived} {seq i : Nat} {bytes : Bytes}
  {hdr : HmHeader} {frag : HmFragment}

theorem Sourced.mono (h : Sourced received seq bytes i) (hsub : received ⊆ received') :
    Sourced received' seq bytes i :=
  have ⟨f, hf, hc⟩ := h
  ⟨f, hsub hf, hc⟩

theorem Announced.mono (h : Announced received hdr) (hsub : received ⊆ received') :
    Announced received' hdr :=
  have ⟨f, hf, hc⟩ := h
  ⟨f, hsub hf, hc⟩

theorem Assembled.mono (h : Assembled received frag) (hsub : received ⊆ received') :
    Assembled received' frag :=
  { h with
    announced := h.announced.mono hsub
    sourced := fun i hi hbit => (h.sourced i hi hbit).mono hsub }

theorem bit_replicate_zero (n i : Nat) : bit (List.replicate n 0) i = false := by
  unfold bit
  rw [getD_eq_getElem?_getD, getElem?_replicate]
  split <;> simp

end

namespace Dtls

variable {s s' : Dtls} {mem : DtlsMemory} {msgHdr : HmHeader}
  {frag : HmFragment} {bm : List (BitVec 8)} {pq : Pqueue HmFragment} {f : DtlsReceived}

variable {received : List DtlsReceived}

/-- The whole message of which a fragment is the first that arrives. -/
def newMessage (mem : DtlsMemory) (msgHdr : HmHeader) : HmFragment :=
  hmFragmentNew mem { msgHdr with fragLen := msgHdr.msgLen, fragOff := 0 } msgHdr.msgLen true

theorem assembled_newMessage (hf : f ∈ received) (hhdr : f.msgHdr = msgHdr) :
    Assembled received (newMessage mem msgHdr) where
  announced := by
    subst hhdr
    exact ⟨f, hf, rfl, rfl, rfl⟩
  fragOff := rfl
  fragLen := rfl
  length := by simp [newMessage, hmFragmentNew]
  bitmask := by
    intro bm hbm
    cases hbm
    exact length_replicate ..
  sourced := by
    intro i _ hbit
    have := hbit _ rfl
    rw [bit_replicate_zero] at this
    cases this

/-- A fragment of the message is copied to its place. -/
theorem assembled_addFragment (h : Assembled received frag)
    (hbm : frag.reassembly = some bm) (hf : f ∈ received) (hhdr : f.msgHdr = msgHdr)
    (hbody : f.body.length = msgHdr.fragLen) (hseq : frag.msgHeader.seq = msgHdr.seq)
    (hlen : frag.msgHeader.msgLen = msgHdr.msgLen)
    (hle : msgHdr.fragOff + msgHdr.fragLen ≤ msgHdr.msgLen) :
    Assembled received (addFragment msgHdr frag bm f.body) := by
  have hfit : msgHdr.fragOff + f.body.length ≤ frag.fragment.length := by
    rw [h.length, hlen, hbody]
    exact hle
  have hsize := h.bitmask bm hbm
  have hmark (i : Nat) :=
    @bit_bitmaskMark bm i msgHdr.fragOff (msgHdr.fragOff + msgHdr.fragLen) (Nat.le_add_right ..)
      (by rw [hsize, bitmaskSize]; omega)
  refine { h with length := ?_, bitmask := ?_, sourced := ?_ }
  · exact (length_overwrite hfit).trans h.length
  · intro bm' hbm'
    unfold Dtls.addFragment at hbm'
    dsimp only at hbm'
    split at hbm'
    · cases hbm'
    · cases hbm'
      rw [length_bitmaskMark]
      exact hsize
  intro i hi hbit
  have hset : bit (bitmaskMark bm msgHdr.fragOff (msgHdr.fragOff + msgHdr.fragLen)) i = true := by
    unfold Dtls.addFragment at hbit
    dsimp only at hbit hi
    split at hbit
    · rename_i hcomplete
      exact bit_of_bitmaskIsComplete hcomplete (hlen ▸ hi)
    · exact hbit _ rfl
  rw [hmark, Bool.or_eq_true, decide_eq_true_eq] at hset
  show Sourced received frag.msgHeader.seq (overwrite frag.fragment msgHdr.fragOff f.body) i
  by_cases hin : msgHdr.fragOff ≤ i ∧ i < msgHdr.fragOff + msgHdr.fragLen
  · -- the byte is one of the new ones
    refine ⟨f, hf, ⟨by rw [hhdr, hseq], by rw [hhdr]; exact hin⟩, ?_⟩
    rw [getElem?_overwrite hfit, hbody, if_pos hin, hhdr]
  obtain ⟨g, hg, hcov, hbyte⟩ := h.sourced i hi (fun bm' hbm' => by
    cases hbm.symm.trans hbm'
    exact hset.resolve_right hin)
  refine ⟨g, hg, hcov, ?_⟩
  rw [getElem?_overwrite hfit, hbody, if_neg hin]
  exact hbyte

/-- How a fragment with header `msgHdr` and contents `body` changes the queue. -/
inductive QueueStep (pq : Pqueue HmFragment) (msgHdr : HmHeader) (body : Bytes) :
    Pqueue HmFragment → Prop
  | same : QueueStep pq msgHdr body pq
  | whole {pq'} : msgHdr.fragLen = msgHdr.msgLen → msgHdr.fragOff = 0 →
    pq.pqueueInsert ⟨msgHdr.seq64be, msgHdr, body, none⟩ = some pq' → QueueStep pq msgHdr body pq'
  | start {pq'} (mem : DtlsMemory) (bm) :
    msgHdr.fragOff + msgHdr.fragLen ≤ msgHdr.msgLen →
    (newMessage mem msgHdr).reassembly = some bm →
    pq.pqueueInsert ⟨msgHdr.seq64be, addFragment msgHdr (newMessage mem msgHdr) bm body⟩
      = some pq' → QueueStep pq msgHdr body pq'
  | extend {item bm} : msgHdr.fragOff + msgHdr.fragLen ≤ msgHdr.msgLen →
    pq.pqueueFind msgHdr.seq64be = some item → item.data.msgHeader.msgLen = msgHdr.msgLen →
    item.data.reassembly = some bm →
    QueueStep pq msgHdr body (pq.update msgHdr.seq64be (addFragment msgHdr item.data bm body))

/-- The fragment at the start of the current record goes to the queue, or is dropped. -/
def Buffers (s : Dtls) (msgHdr : HmHeader) (s' : Dtls) : Prop :=
  ∃ pq current, s' = { s with bufferedMessages := pq, current := current } ∧
    QueueStep s.bufferedMessages msgHdr (s.current.take msgHdr.fragLen) pq ∧ current <:+ s.current

theorem Buffers.same : Buffers s msgHdr s := ⟨_, _, rfl, .same, suffix_refl _⟩

theorem Buffers.dropped : Buffers s msgHdr { s with current := s.current.drop msgHdr.fragLen } :=
  ⟨_, _, rfl, .same, drop_suffix ..⟩

theorem reassemblyItem_cases {queued : Bool}
    (h : s.reassemblyItem mem msgHdr = some (frag, queued)) :
    (queued = true ∧ ∃ item, s.bufferedMessages.pqueueFind msgHdr.seq64be = some item ∧
      item.data.msgHeader.msgLen = msgHdr.msgLen ∧ item.data = frag) ∨
    queued = false ∧ frag = newMessage mem msgHdr := by
  unfold reassemblyItem at h
  split at h
  · split at h <;> cases h
    exact .inr ⟨rfl, rfl⟩
  rename_i item hfind
  split at h <;> cases h
  exact .inl ⟨rfl, item, hfind, not_not.1 ‹_›, rfl⟩

theorem reassembleFragment_cases (s : Dtls) (mem : DtlsMemory) (msgHdr : HmHeader) :
    Buffers s msgHdr (s.reassembleFragment mem msgHdr).1 := by
  unfold reassembleFragment
  split
  · exact .same
  split
  · exact .same
  split
  · exact .same
  rename_i frag queued hitem
  dsimp only [readBody]
  split
  · exact .dropped
  rename_i bm hbm
  obtain ⟨rfl, item, hfind, hlen, rfl⟩ | ⟨rfl, rfl⟩ := reassemblyItem_cases hitem
  · exact ⟨_, _, rfl, .extend (by omega) hfind hlen hbm, drop_suffix ..⟩
  rw [if_neg Bool.false_ne_true]
  split
  · exact .dropped
  split
  · exact .dropped
  · rename_i pq hins
    exact ⟨_, _, rfl, .start mem bm (by omega) hbm hins, drop_suffix ..⟩

theorem processOutOfSeqMessage_cases (s : Dtls) (mem : DtlsMemory) (msgHdr : HmHeader) :
    Buffers s msgHdr (s.processOutOfSeqMessage mem msgHdr).1 ∧
      (s.handshakeReadSeq < msgHdr.seq ∨
        (s.processOutOfSeqMessage mem msgHdr).1.bufferedMessages = s.bufferedMessages) := by
  fun_cases processOutOfSeqMessage s mem msgHdr with
  | case1 => exact ⟨.same, .inr rfl⟩
  | case2 => exact ⟨.dropped, .inr rfl⟩
  | case3 => exact ⟨reassembleFragment_cases s mem msgHdr, .inl (by omega)⟩
  | case4 | case5 => exact ⟨.same, .inl (by omega)⟩
  | case6 _ _ _ _ _ _ _ _ hread | case7 _ _ _ _ _ _ _ _ hread =>
    cases hread
    exact ⟨.dropped, .inl (by omega)⟩
  | case8 _ _ _ hwhole _ _ _ _ hread _ pq hins =>
    cases hread
    exact ⟨⟨_, _, rfl, .whole (not_not.1 hwhole) (by omega) hins, drop_suffix ..⟩, .inl (by omega)⟩

/-- What is known of the items of the queue. -/
def Items (received : List DtlsReceived) (pq : Pqueue HmFragment) : Prop :=
  ∀ item ∈ pq, item.priority = item.data.msgHeader.seq64be ∧ Assembled received item.data

/-- A fragment is received with as many bytes as its header says. -/
def Wellformed (received : List DtlsReceived) : Prop :=
  ∀ f ∈ received, f.body.length = f.msgHdr.fragLen ∧ f.msgHdr.seq < 2 ^ 16

theorem decode_seq64be (h : msgHdr.seq < 2 ^ 16) :
    BigEndian.decode msgHdr.seq64be = msgHdr.seq := by
  have hhigh : (UInt8.ofNat (msgHdr.seq / 256)).toNat = msgHdr.seq / 256 % 256 := rfl
  have hlow : (UInt8.ofNat msgHdr.seq).toNat = msgHdr.seq % 256 := rfl
  simp only [HmHeader.seq64be, BigEndian.decode, foldl_cons, foldl_nil, UInt8.toNat_ofNat]
  omega

theorem seq_eq_of_memcmp {hdr : HmHeader} (h : msgHdr.seq < 2 ^ 16) (hh : hdr.seq < 2 ^ 16)
    (heq : memcmp hdr.seq64be msgHdr.seq64be = .eq) : hdr.seq = msgHdr.seq := by
  have hlen : hdr.seq64be.length = msgHdr.seq64be.length := rfl
  rw [memcmp_eq_compare hlen, decode_seq64be h, decode_seq64be hh] at heq
  exact Nat.compare_eq_eq.1 heq

theorem seq_lt_of_assembled (h : Assembled received frag)
    (hwf : Wellformed received) : frag.msgHeader.seq < 2 ^ 16 := by
  obtain ⟨g, hg, hseq, -⟩ := h.announced
  exact hseq ▸ (hwf g hg).2

variable {pq' : Pqueue HmFragment}

/-- A step of the queue keeps what is known about its items. -/
theorem QueueStep.items
    (hstep : QueueStep pq msgHdr f.body pq') (h : Items received pq) (hwf : Wellformed received)
    (hf : f ∈ received) (hhdr : f.msgHdr = msgHdr) : Items received pq' := by
  have hbody : f.body.length = msgHdr.fragLen := hhdr ▸ (hwf f hf).1
  have hlt : msgHdr.seq < 2 ^ 16 := hhdr ▸ (hwf f hf).2
  cases hstep with
  | same => exact h
  | whole hlen hoff hins =>
    intro item hitem
    rcases (Pqueue.mem_pqueueInsert hins).1 hitem with rfl | hitem
    · refine ⟨rfl, ⟨f, hf, by rw [hhdr], by rw [hhdr], by rw [hhdr]⟩, hoff, hlen,
        hbody.trans hlen, nofun, ?_⟩
      intro i hi _
      refine ⟨f, hf, ⟨by rw [hhdr], ?_, ?_⟩, ?_⟩
      · rw [hhdr, hoff]
        exact Nat.zero_le _
      · rw [hhdr, hoff, hlen, Nat.zero_add]
        exact hi
      · rw [hhdr, hoff, Nat.sub_zero]
    · exact h item hitem
  | start mem bm hle hbm hins =>
    intro item hitem
    rcases (Pqueue.mem_pqueueInsert hins).1 hitem with rfl | hitem
    · exact ⟨rfl, assembled_addFragment (assembled_newMessage hf hhdr) hbm hf hhdr hbody rfl rfl
        hle⟩
    · exact h item hitem
  | extend hle hfind hlen hbm =>
    rename_i item bm
    obtain ⟨hmem, hcmp⟩ := Pqueue.pqueueFind_eq_some hfind
    obtain ⟨hprio, hitem⟩ := h item hmem
    rw [hprio] at hcmp
    have hseq := seq_eq_of_memcmp hlt (seq_lt_of_assembled hitem hwf) hcmp
    intro x hx
    rcases Pqueue.mem_update hx with hx | ⟨hdata, y, hy, hxy, hcmpy⟩
    · exact h x hx
    obtain ⟨hprioy, hy⟩ := h y hy
    rw [hprioy] at hcmpy hxy
    have hseqy := seq_eq_of_memcmp hlt (seq_lt_of_assembled hy hwf) hcmpy
    rw [hdata]
    refine ⟨?_, assembled_addFragment hitem hbm hf hhdr hbody hseq hlen hle⟩
    show x.priority = HmHeader.seq64be item.data.msgHeader
    rw [hxy, HmHeader.seq64be, HmHeader.seq64be, hseqy, hseq]

theorem Items.suffix (h : Items received pq) (hs : pq' <:+ pq) : Items received pq' :=
  fun item hi => h item (hs.subset hi)

theorem drop_data_write {b : BufMem UInt8} {src : Bytes}
    (h : b.data.length = src.length + dtls1HmHeaderLength) :
    (b.write dtls1HmHeaderLength src).data.drop dtls1HmHeaderLength = src := by
  have hle : dtls1HmHeaderLength + src.length ≤ b.data.length := by omega
  rw [BufMem.data_write_eq_overwrite hle, overwrite, drop_of_length_le (l := b.data) (by omega),
    append_nil, drop_append_of_le_length]
  · simp
  · rw [length_take]
    omega

theorem preprocessFragment_cases (s : Dtls) (mem : DtlsMemory) (msgHdr : HmHeader)
    (hoff : s.rMsgHdr.fragOff = 0) :
    s.preprocessFragment mem msgHdr = (s, false) ∨
    msgHdr.fragOff + msgHdr.fragLen ≤ msgHdr.msgLen ∧ ∃ b : BufMem UInt8,
      s.preprocessFragment mem msgHdr = ({ s with
        initBuf := b
        rMsgHdr := { s.rMsgHdr with msgLen := msgHdr.msgLen, type := msgHdr.type
                                    seq := msgHdr.seq } }, true) ∧
      b.data.length = msgHdr.msgLen + dtls1HmHeaderLength ∧ s.initBuf.max ≤ b.max := by
  unfold preprocessFragment
  split
  · exact .inl rfl
  dsimp only
  split
  · exact .inl rfl
  rename_i hgrow
  exact .inr ⟨by omega, _, rfl, BufMem.length_bufMemGrow hgrow, BufMem.max_le_bufMemGrow⟩

end Dtls
end QuicTls
