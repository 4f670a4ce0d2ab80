import QuicTls.Verify.Record.ReadN

/-!
# The header and the body of a record

What `tls_get_more_records` does for one record, as a description of the bytes to come: before the
header there is no packet, before the body the packet is the header.
-/

namespace QuicTls.Record.Read

/-- A buffer is longer than a header at any alignment. -/
theorem le_readBufferLen (cfg : Config) : 328 ≤ readBufferLen cfg := by
  have hbase : 328 ≤ cfg.maxFragLen + ssl3RtMaxEncryptedOverhead + ssl3RtHeaderLength +
      (ssl3AlignPayload - ssl3RtHeaderLength % ssl3AlignPayload) % ssl3AlignPayload :=
    Nat.le_add_left 328 cfg.maxFragLen
  rw [readBufferLen]
  generalize cfg.maxFragLen + ssl3RtMaxEncryptedOverhead + ssl3RtHeaderLength +
      (ssl3AlignPayload - ssl3RtHeaderLength % ssl3AlignPayload) % ssl3AlignPayload = len at hbase ⊢
  have hcomp : 328 ≤ if cfg.allowCompression then len + ssl3RtMaxCompressedOverhead else len := by
    split <;> omega
  generalize (if cfg.allowCompression then len + ssl3RtMaxCompressedOverhead else len) = len
    at hcomp ⊢
  have hpipes : 328 ≤ if cfg.maxPipelines > 1 then len * cfg.maxPipelines else len := by
    split
    · exact hcomp.trans (Nat.le_mul_of_pos_right _ (by omega))
    · exact hcomp
  generalize (if cfg.maxPipelines > 1 then len * cfg.maxPipelines else len) = len at hpipes ⊢
  split <;> omega

variable {cfg : Config} {thisrr : RecHeader} {rl : Layer ReadBuffer}

section

variable (cfg thisrr rl) (io : Io)

/-- The packet is the header of the record. -/
structure AtBody : Prop where
  wf : rl.WF
  rstate : rl.rstate = .readBody
  packetLength : rl.packetLength = ssl3RtHeaderLength
  length : rl.rbuf.buf.length = readBufferLen cfg
  align : readAlign rl.rbuf.addr ≤ rl.packet
  header : checkHeader cfg rl.isFirstRecord (readBufferLen cfg) rl.packetBytes = .ok thisrr

/-- The layer is between two records, or waits for the body of one. -/
inductive Ready : Prop where
  | header (rstate : rl.rstate = .readHeader) (idle : rl.rbuf.Idle (readBufferLen cfg))
  | body (atBody : AtBody cfg rl.rr0 rl) (front : rl.packet = readAlign rl.rbuf.addr)

/-- The bytes from the next header on. -/
def Layer.upcoming : Bytes :=
  match rl.rstate with
  | .readHeader => rl.unread io
  | .readBody => rl.contents io

/-- How `getHeader` ends for the first record of a call. -/
def HeaderSpec : Out RecHeader → Prop
  | .ok thisrr rl' io' _ =>
    AtBody cfg thisrr rl' ∧ rl'.packet = readAlign rl'.rbuf.addr ∧ rl'.rr0 = thisrr ∧
      rl'.rbuf.addr = rl.rbuf.addr ∧ rl'.isFirstRecord = rl.isFirstRecord ∧
      rl'.contents io' = rl.upcoming io
  | .failed rl' io' _ ret raised =>
    (ret ≠ .success ∧ raised ≠ some overrun ∧ rl'.rstate = .readHeader ∧
      rl'.isFirstRecord = rl.isFirstRecord ∧
      (∀ rb ∈ rl'.rbuf, rb.Idle (readBufferLen cfg) ∧ rb.addr = rl.rbuf.addr ∧
        rb.left < ssl3RtHeaderLength) ∧
      rl'.pending io' = rl.upcoming io) ∨
    (ret = .fatal ∧ ∃ r packet rest, raised = some r ∧ rl.upcoming io = packet ++ rest ∧
      packet.length = ssl3RtHeaderLength ∧
      checkHeader cfg rl.isFirstRecord (readBufferLen cfg) packet = .error r)

/-- The record of a whole packet. -/
def RecHeader.record (packet : Bytes) : Rec :=
  ⟨thisrr.type, thisrr.recVersion, slice packet thisrr.start thisrr.length⟩

/-- How `getBody` ends. -/
def BodySpec : Out Rec → Prop
  | .ok rec rl' io' _ =>
    rl'.rstate = .readHeader ∧ rl'.isFirstRecord = false ∧ rl'.rbuf.Idle (readBufferLen cfg) ∧
      rl'.rbuf.addr = rl.rbuf.addr ∧
      ∃ packet, rl.contents io = packet ++ rl'.unread io' ∧
        packet.length = ssl3RtHeaderLength + thisrr.more ∧ rec = thisrr.record packet
  | .failed rl' io' _ ret raised =>
    rl.rbuf.left < thisrr.more ∧
    if readBufferLen cfg < rl.rbuf.offset + thisrr.more then ret = .fatal ∧ raised = some overrun
    else
      ret ≠ .success ∧ raised ≠ some overrun ∧
        ∃ rl'' : Layer ReadBuffer, rl' = rl''.keep ∧ AtBody cfg thisrr rl'' ∧
          rl''.packet = rl.packet ∧ rl''.rbuf.addr = rl.rbuf.addr ∧ rl''.rr0 = rl.rr0 ∧
          rl''.isFirstRecord = rl.isFirstRecord ∧ rl''.rbuf.left < thisrr.more ∧
          rl''.contents io' = rl.contents io

end

theorem AtBody.offset (h : AtBody cfg thisrr rl) :
    rl.rbuf.offset = rl.packet + ssl3RtHeaderLength := by
  rw [← h.wf.packet, h.packetLength]

theorem packetBytes_readBody (rl : Layer ReadBuffer) :
    { rl with rstate := .readBody }.packetBytes = rl.packetBytes := rfl

/-- Reading a header from the transport. -/
theorem getHeader_spec (h : Ready cfg rl) (io : Io) (results : List BioRead) :
    HeaderSpec cfg rl io (getHeader cfg true rl io results) := by
  cases h with
  | header hstate hidle =>
    have hupcoming : rl.upcoming io = rl.unread io := by rw [Layer.upcoming, hstate]
    have hlen := le_readBufferLen cfg
    have hspec := readN_new_spec cfg hidle rl.rbuf.buf.length (Nat.succ_pos 4)
      (by omega : 8 + 5 ≤ readBufferLen cfg) (.inr rfl) io results
    rw [getHeader, hstate, ssl3RtHeaderLength]
    cases hout : tlsDefaultReadN cfg rl 5 rl.rbuf.buf.length false true io results with
    | failed rl' io' results' ret raised =>
      rw [hout] at hspec
      obtain ⟨_, hret, hraised, _, hkept, hidle', hpending⟩ := hspec
      refine .inl ⟨hret, hraised, hkept.rstate.trans hstate, hkept.isFirstRecord, hidle', ?_⟩
      rw [hpending, hupcoming]
    | ok u rl' io' results' =>
      rw [hout] at hspec
      obtain ⟨hkept, hwf, haddr, hlength, halign, hfront, hpl, _, hcontents⟩ := hspec
      have hpacket : rl'.packetBytes.length = ssl3RtHeaderLength :=
        hwf.length_packetBytes.trans hpl
      rw [Out.bind]
      dsimp only
      rw [packetBytes_readBody, hlength]
      cases hcheck : checkHeader cfg rl'.isFirstRecord (readBufferLen cfg) rl'.packetBytes with
      | error r =>
        refine .inr ⟨rfl, r, rl'.packetBytes, rl'.unread io', rfl, ?_, hpacket, ?_⟩
        · rw [hupcoming, ← hcontents, Layer.contents]
        · rw [← hkept.isFirstRecord]
          exact hcheck
      | ok thisrr =>
        refine ⟨⟨⟨hwf.fits, hwf.packet⟩, rfl, hpl, hlength, ?_, hcheck⟩, ?_, rfl, haddr,
          hkept.isFirstRecord, ?_⟩
        · exact haddr ▸ halign
        · exact haddr ▸ hfront rfl
        · rw [hupcoming, ← hcontents]
          rfl
  | body hbody hfront =>
    have hlt : ¬ rl.packetLength < ssl3RtHeaderLength := by
      rw [hbody.packetLength]
      exact Nat.lt_irrefl _
    have hupcoming : rl.upcoming io = rl.contents io := by rw [Layer.upcoming, hbody.rstate]
    rw [getHeader, if_neg (by rw [hbody.rstate]; exact fun hor => hor.elim (absurd rfl) hlt)]
    exact ⟨hbody, hfront, rfl, rfl, rfl, hupcoming.symm⟩

theorem RecHeader.start_add_length_le (thisrr : RecHeader) :
    thisrr.start + thisrr.length ≤ ssl3RtHeaderLength + thisrr.more := by
  rw [start, more, ssl3RtHeaderLength]
  split <;> omega

/-- A body that is complete. -/
theorem bodySpec_done {rl' : Layer ReadBuffer} {io io' : Io} (hbody : AtBody cfg thisrr rl)
    (hsame : SamePacket rl rl') (hwf : rl'.WF)
    (hpl : rl'.packetLength = ssl3RtHeaderLength + thisrr.more)
    (hcontents : rl'.contents io' = rl.contents io) (results : List BioRead) :
    BodySpec cfg thisrr rl io (.ok ⟨thisrr.type, thisrr.recVersion,
        slice rl'.rbuf.buf (rl'.packet + thisrr.start) thisrr.length⟩
      { rl' with rstate := .readHeader, packetLength := 0, isFirstRecord := false } io'
      results) := by
  have hfits := hwf.fits
  have hpacket := hwf.packet
  have hlength := hsame.length.trans hbody.length
  refine ⟨rfl, rfl, ⟨hlength, hlength ▸ hfits, .inr ?_⟩, hsame.addr, rl'.packetBytes, ?_, ?_, ?_⟩
  · rw [← hpacket, hsame.addr, hsame.packet]
    exact hbody.align.trans (Nat.le_add_right _ _)
  · rw [← hcontents]
    rfl
  · rw [hwf.length_packetBytes, hpl]
  · rw [RecHeader.record, Layer.packetBytes, slice_slice _ _ (hpl ▸ thisrr.start_add_length_le)]

/-- Reading a body from the transport. -/
theorem getBody_spec (hbody : AtBody cfg thisrr rl)
    (hpos : thisrr.more ≤ rl.rbuf.left ∨ rl.packet = readAlign rl.rbuf.addr) (io : Io)
    (results : List BioRead) : BodySpec cfg thisrr rl io (getBody cfg thisrr rl io results) := by
  rw [getBody]
  by_cases hmore : thisrr.more > 0
  · rw [if_pos hmore, readN_extend cfg rl _ hmore]
    have hspec := readMore_spec cfg hbody.wf thisrr.more hpos io results
    cases hout : readMore cfg rl thisrr.more thisrr.more io results with
    | ok u rl' io' results' =>
      rw [hout] at hspec
      obtain ⟨hsame, hwf, hpl, _, hcontents⟩ := hspec
      rw [hbody.packetLength] at hpl
      exact bodySpec_done hbody hsame hwf hpl hcontents results'
    | failed rl' io' results' ret raised =>
      rw [hout] at hspec
      obtain ⟨hleft, hspec⟩ := hspec
      refine ⟨hleft, ?_⟩
      rw [hbody.length] at hspec
      split_ifs at hspec with hover
      · rw [if_pos hover]
        exact hspec
      rw [if_neg hover]
      obtain ⟨hret, hraised, _, hcase⟩ := hspec
      refine ⟨hret, hraised, ?_⟩
      rcases hcase with ⟨_, hzero, _⟩ | ⟨rl₂, rfl, hsame, hwf, hpl, hoffset, hlt, hcontents⟩
      · rw [hbody.packetLength] at hzero
        exact nomatch hzero
      refine ⟨rl₂, rfl, ⟨hwf, hsame.rstate.trans hbody.rstate, hpl.trans hbody.packetLength,
        hsame.length.trans hbody.length, ?_, ?_⟩, hsame.packet, hsame.addr, hsame.rr0,
        hsame.isFirstRecord, hlt, hcontents⟩
      · rw [hsame.addr, hsame.packet]
        exact hbody.align
      · have hlen := hwf.length_packetBytes.trans (hpl.trans
          hbody.wf.length_packetBytes.symm)
        have hpb : rl₂.packetBytes = rl.packetBytes := (List.append_inj hcontents hlen).1
        rw [hsame.isFirstRecord, hpb]
        exact hbody.header
  · rw [if_neg hmore]
    apply bodySpec_done hbody ⟨⟨rfl, rfl, rfl⟩, rfl, rfl, rfl⟩ hbody.wf _ rfl
    rw [hbody.packetLength, Nat.eq_zero_of_not_pos hmore, Nat.add_zero]

end QuicTls.Record.Read
