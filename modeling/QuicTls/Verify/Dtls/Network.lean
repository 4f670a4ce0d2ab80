import QuicTls.Verify.Dtls.Order
import QuicTls.Verify.Dtls.Fragmentation

/-!
# From `dtls1_do_write` to `dtls_get_message`

A sender's records are cut from its messages (`Wrote`). The network loses, repeats and reorders
them. A record that arrives is an honest fragment (`Wrote.honest`), so the receiver returns the
messages in order (`dtls_handshake_across_network`).
-/

namespace QuicTls

open Run Pqueue List Dtls

variable {ω : Type} {cfg : DtlsWrite.Config} {msgs : List (UInt8 × Bytes)} {data : Bytes}

namespace DtlsWrite

/-- The sender constructs a message of `msgs` under its number, and `dtls1_do_write` gives `data` to
the record layer in one of the calls for it, whether they finish the message or not. -/
def Wrote (ω : Type) (cfg : Config) (msgs : List (UInt8 × Bytes)) (data : Bytes) : Prop :=
  ∃ (s s₁ : Sender ω) (m : UInt8 × Bytes) (calls : List Call),
    msgs[s.nextHandshakeWriteSeq]? = some m ∧
    constructMessage cfg s (.handshake m.1 m.2) = some s₁ ∧
    noLateRetries cfg s₁.writer calls = true ∧
    ∃ r ∈ (doWriteCalls cfg true s₁.writer calls).1.sent.drop s₁.writer.sent.length, r.data = data

/-- A receiver reads a part of the message from the record. -/
theorem Wrote.honest (h : Wrote ω cfg msgs data) (hmsgs : msgs.length < 2 ^ 16)
    (hlen : ∀ m ∈ msgs, m.2.length < 2 ^ 24) (b : Bool) :
    DtlsReceived.Honest msgs
      ⟨.dtls1GetMessageHeader data, data.drop dtls1HmHeaderLength, b, false⟩ := by
  obtain ⟨s, s₁, m, calls, hm, hc, hlate, r, hr, rfl⟩ := h
  -- the records of the message so far
  obtain ⟨parts, rest, hbody, hnil, hsent⟩ : ∃ parts rest, parts.flatten ++ rest = m.2 ∧
      ([] ∈ parts → m.2 = []) ∧ (doWriteCalls cfg true s₁.writer calls).1.sent = s₁.writer.sent ++
        (fragments _ 0 parts).map (⟨s₁.writer.wrl, true, ·⟩) := by
    rcases (suspended_constructMessage hc).calls hlate with
      ⟨-, parts, _, _, _, _, hflat, -, hnil, hs⟩ | ⟨-, f, parts, _, _, _, _, hpartly, -, hs⟩
    · exact ⟨parts, [], by rwa [append_nil], hnil, congrArg Writer.sent hs⟩
    · exact ⟨parts, m.2.drop f, by rw [hpartly.flatten, take_append_drop],
        fun hmem => absurd hmem hpartly.nonempty, congrArg Writer.sent hs⟩
  rw [hsent, drop_left, mem_map] at hr
  obtain ⟨record, hrecord, rfl⟩ := hr
  have hin : record.drop dtls1HmHeaderLength ∈ parts := by
    rw [← map_drop_fragments _ 0 parts]
    exact mem_map_of_mem hrecord
  obtain ⟨off, part, rfl, hle, hslice⟩ := mem_fragments [] hrecord
  rw [nil_append] at hle hslice
  have hfit : off + part.length ≤ m.2.length := by
    rw [← hbody, length_append]
    omega
  have hpart : part = (m.2.drop off).take part.length := by
    rw [← hbody, drop_append_of_le_length (by omega),
      take_append_of_le_length (by rw [length_drop]; omega)]
    exact hslice.symm
  have hseq := Nat.lt_trans (List.getElem?_eq_some_iff.1 hm).1 hmsgs
  rw [dtls1GetMessageHeader_fragment (hlen m (mem_of_getElem? hm)) hseq hfit]
  rw [drop_left' (length_fragmentHeader ..)] at hin ⊢
  refine ⟨⟨m, hm, rfl, rfl, hfit, hpart, ?_⟩, rfl⟩
  rcases eq_or_ne part [] with rfl | hne
  · exact .inr (hnil hin)
  · exact .inl (length_pos_iff.2 hne)

end DtlsWrite

/-- When all fragments that are received come from records that `dtls1_do_write` wrote, the messages
that `dtls_get_message` returns are the first ones of the sender, each one once and with its type
and contents, whatever is lost, repeated or reordered and however they were cut into records. -/
theorem dtls_handshake_across_network {server : Bool} {maxCertList : Nat} {events : List Event}
    (hmsgs : msgs.length < 2 ^ 16) (hlen : ∀ m ∈ msgs, m.2.length < 2 ^ 24)
    (h : ∀ f ∈ (run step (init server maxCertList) events).1.received, f.chretran = false ∧
      ∃ data, DtlsWrite.Wrote ω cfg msgs data ∧ f.msgHdr = .dtls1GetMessageHeader data ∧
        f.body = data.drop dtls1HmHeaderLength) :
    handshakes (run step (init server maxCertList) events).2 <+: msgs := by
  refine (run_inOrder hmsgs fun f hf => ?_).messages
  obtain ⟨hchr, data, hw, hhdr, hbody⟩ := h f hf
  have hpart := hw.honest hmsgs hlen f.inSequence
  rwa [← hhdr, ← hbody, ← hchr] at hpart

/-- The flight is written in records with at most three bytes of contents, and with one byte each
for the second message, since the datagram has no more room. -/
theorem dtls_handshake_across_network_flight :
    let r := run step (init false 0) flightEvents
    handshakes r.2 <+: flight ∧ handshakes r.2 = flight.take 2 := by
  intro r
  let sender (i : Nat) : DtlsWrite.Sender Unit :=
    { DtlsWrite.Sender.init () with nextHandshakeWriteSeq := i }
  let calls (room : Nat) : List DtlsWrite.Call :=
    [⟨some 300, 200, 20, List.replicate 2 ⟨268 - room, 1, .sent⟩⟩]
  let first : List Bytes := [(fragmentRecord 11 5 0 0 [1, 2, 3] (by decide)).data,
    (fragmentRecord 11 5 0 3 [4, 5] (by decide)).data]
  let second : List Bytes := [(fragmentRecord 12 2 1 0 [6] (by decide)).data,
    (fragmentRecord 12 2 1 1 [7] (by decide)).data]
  have hw : ∀ data ∈ first ++ second,
      DtlsWrite.Wrote Unit (DtlsWrite.plainConfig false) flight data := by
    refine forall_mem_append.2 ⟨fun data h => ?_, fun data h => ?_⟩
    · refine ⟨sender 0, _, (11, [1, 2, 3, 4, 5]), calls 3, rfl, rfl, by decide, ?_⟩
      revert data
      decide
    · refine ⟨sender 1, _, (12, [6, 7]), calls 1, rfl, rfl, by decide, ?_⟩
      revert data
      decide
  have hr : (∀ f ∈ r.1.received, f.chretran = false ∧ ∃ data ∈ first ++ second,
      f.msgHdr = .dtls1GetMessageHeader data ∧ f.body = data.drop dtls1HmHeaderLength) ∧
      handshakes r.2 = flight.take 2 := by
    decide +kernel
  refine ⟨@dtls_handshake_across_network Unit (DtlsWrite.plainConfig false) flight _ _ _ (by decide)
    (by decide) fun f hf => ?_, hr.2⟩
  obtain ⟨hchr, data, hdata, hpart⟩ := hr.1 f hf
  exact ⟨hchr, data, hw data hdata, hpart⟩

end QuicTls
