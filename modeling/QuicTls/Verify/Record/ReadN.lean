import QuicTls.Ssl.Record.Read

/-!
# What `tls_default_read_n` does

The packet, followed by what is left in the buffer and in the BIOs, is the same before and after a
read: no byte is lost, read twice or moved past another one.
-/

namespace QuicTls.Record.Read

open List

/-! ### Loading bytes behind those that are there -/

/-- Of the bytes to come, some have been stored behind the `left` bytes at `pos`. -/
structure Loaded (pos left : Nat) (buf rest : Bytes) (left' : Nat) (buf' rest' : Bytes) :
    Prop where
  length : buf'.length = buf.length
  front : ∀ i k, i + k ≤ pos → slice buf' i k = slice buf i k
  data : slice buf' pos left' ++ rest' = slice buf pos left ++ rest

theorem Loaded.refl (pos left : Nat) (buf rest : Bytes) : Loaded pos left buf rest left buf rest :=
  ⟨rfl, fun _ _ _ => rfl, rfl⟩

variable {pos left' : Nat}

theorem Loaded.trans {left left'' : Nat} {buf buf' buf'' rest rest' rest'' : Bytes}
    (h : Loaded pos left buf rest left' buf' rest')
    (h' : Loaded pos left' buf' rest' left'' buf'' rest'') :
    Loaded pos left buf rest left'' buf'' rest'' where
  length := h'.length.trans h.length
  front i k hik := (h'.front i k hik).trans (h.front i k hik)
  data := h'.data.trans h.data

/-- Something that is read later does not matter. -/
theorem Loaded.append {left : Nat} {buf buf' rest rest' : Bytes}
    (h : Loaded pos left buf rest left' buf' rest') (later : Bytes) :
    Loaded pos left buf (rest ++ later) left' buf' (rest' ++ later) where
  length := h.length
  front := h.front
  data := by rw [← append_assoc, h.data, append_assoc]

theorem loaded_overwrite {left : Nat} {buf d rest : Bytes}
    (h : pos + left + d.length ≤ buf.length) :
    Loaded pos left buf (d ++ rest) (left + d.length) (overwrite buf (pos + left) d) rest where
  length := length_overwrite h
  front i k hik := slice_overwrite (.inl (by omega)) h
  data := by
    rw [← slice_append, slice_overwrite (.inl (Nat.le_refl _)) h, slice_overwrite_self h,
      append_assoc]

theorem take_append_drop_taken {α : Type*} (xs : List α) (n : Nat) :
    xs.take n ++ xs.drop (xs.take n).length = xs := by
  rcases Nat.le_total n xs.length with h | h
  · rw [length_take_of_le h, take_append_drop]
  · rw [take_of_length_le h, drop_length, append_nil]

theorem read_bytes {r : BioRead} {content d : Bytes} {asked k : Nat}
    (h : r.read content asked = (d, .bytes k)) :
    d ++ content.drop d.length = content ∧ d.length ≤ asked := by
  cases r with
  | bytes n =>
    rw [BioRead.read] at h
    split at h
    · exact nomatch h
    · cases h
      refine ⟨take_append_drop_taken _ _, ?_⟩
      rw [length_take]
      omega
  | retry | eof | error => exact nomatch h

/-- The branch that does not happen. -/
def overrun : Raised := ⟨.tlsDefaultReadN, .internalError, .internalError⟩

theorem readBioNotSet_ne_overrun : some readBioNotSet ≠ some overrun := by decide

variable {n max : Nat}

/-- The loop appends what it reads to the buffer. -/
theorem readLoop_spec (results : List BioRead) {buf : Bytes} {left : Nat}
    (bio : Option Bytes) (hroom : pos + max ≤ buf.length) (hleft : left ≤ max) :
    let out := readLoop n max pos results buf left bio
    Loaded pos left buf (bio.getD []) out.left out.buf (out.bio.getD []) ∧ out.left ≤ max ∧
      (out.ret = .success ↔ n ≤ out.left) ∧ out.raised ≠ some overrun := by
  dsimp only
  fun_induction readLoop n max pos results buf left bio with
  | case1 _ _ _ hn | case4 _ _ _ _ _ hn =>
    exact ⟨.refl .., hleft, ⟨fun _ => hn, fun _ => rfl⟩, nofun⟩
  | case2 _ _ hn | case5 _ _ _ _ hn =>
    exact ⟨.refl .., hleft, ⟨nofun, fun h => absurd h hn⟩, readBioNotSet_ne_overrun⟩
  | case6 _ _ buf left _ content d k hread ih =>
    obtain ⟨hd, hasked⟩ := read_bytes hread
    have hfit : pos + left + d.length ≤ buf.length := by omega
    have hload := @loaded_overwrite pos left buf d (content.drop d.length) hfit
    rw [hd] at hload
    obtain ⟨hrest, hmax, hret, hraised⟩ := ih (by rwa [hload.length]) (by omega)
    exact ⟨hload.trans hrest, hmax, hret, hraised⟩
  | case3 _ _ hn | case7 _ _ _ _ hn | case8 _ _ _ _ hn | case9 _ _ _ _ hn =>
    exact ⟨.refl .., hleft, ⟨nofun, fun h => absurd h hn⟩, nofun⟩

theorem readLoop_of_le {left : Nat} (h : n ≤ left) (results : List BioRead)
    (buf : Bytes) (bio : Option Bytes) :
    readLoop n max pos results buf left bio = ⟨buf, left, bio, results, .success, none⟩ := by
  cases results with
  | nil | cons r rs => rw [readLoop.eq_def]; exact if_pos h

theorem readLoop_bytes {left k : Nat} {content : Bytes} (hmax : n ≤ max)
    (hk : n ≤ left + k) (hcontent : n ≤ left + content.length) (results : List BioRead)
    (buf : Bytes) :
    (readLoop n max pos (.bytes k :: results) buf left (some content)).ret = .success := by
  by_cases hn : n ≤ left
  · rw [readLoop_of_le hn]
  have hlen : (content.take (min k (max - left))).length =
      min (min k (max - left)) content.length := length_take
  rw [readLoop.eq_def]
  dsimp only [BioRead.read]
  rw [if_neg hn, if_neg (by omega)]
  dsimp only
  rw [readLoop_of_le (by omega)]

/-- Nothing of the previous epoch is dropped. -/
theorem readPrev_spec {buf : Bytes} {left : Nat} (prev : Option Bytes)
    (hroom : pos + max ≤ buf.length) (hleft : left ≤ max) (hn : n ≤ max) :
    let out := readPrev n max pos buf left prev
    Loaded pos left buf (prev.getD []) out.2.1 out.1 (out.2.2.getD []) ∧ out.2.1 ≤ max ∧
      (n ≤ out.2.1 ∨ out.2.2 = none) := by
  cases prev with
  | none => exact ⟨.refl .., hleft, .inr rfl⟩
  | some content =>
    have hle : (content.take (max - left)).length ≤ max - left := length_take_le _ _
    have hload := @loaded_overwrite pos left buf (content.take (max - left))
      (content.drop (content.take (max - left)).length) (by omega)
    rw [take_append_drop_taken] at hload
    dsimp only [readPrev]
    split_ifs with hn
    · exact ⟨hload, by omega, .inl hn⟩
    refine ⟨?_, by omega, .inr rfl⟩
    have hall : content.drop (content.take (max - left)).length = [] := by
      rw [length_take] at hn ⊢
      exact drop_eq_nil_of_le (by omega)
    rw [hall] at hload
    exact hload

/-- The bytes that the BIOs still have. -/
def Io.content (io : Io) : Bytes := io.prev.getD [] ++ io.bio.getD []

/-- The first read of the transport gives all that is missing. -/
def Enough (n left : Nat) (io : Io) (results : List BioRead) : Prop :=
  ∃ k content results', io = ⟨none, some content⟩ ∧ results = .bytes k :: results' ∧
    n ≤ left + k ∧ n ≤ left + content.length

/-- The previous transport is read first. -/
theorem readPrev_readLoop_spec {buf : Bytes} {left : Nat} (io : Io)
    (results : List BioRead) (hroom : pos + max ≤ buf.length) (hleft : left ≤ max) (hn : n ≤ max) :
    let prev := readPrev n max pos buf left io.prev
    let out := readLoop n max pos results prev.1 prev.2.1 io.bio
    Loaded pos left buf io.content out.left out.buf (Io.content ⟨prev.2.2, out.bio⟩) ∧
      out.left ≤ max ∧ (out.ret = .success ↔ n ≤ out.left) ∧ out.raised ≠ some overrun ∧
      (Enough n left io results → out.ret = .success) := by
  have henough : Enough n left io results → (readLoop n max pos results
      (readPrev n max pos buf left io.prev).1 (readPrev n max pos buf left io.prev).2.1
      io.bio).ret = .success := by
    rintro ⟨k, content, results, rfl, rfl, hk, hcontent⟩
    exact readLoop_bytes hn hk hcontent results buf
  obtain ⟨hload, hmax, hprev⟩ := readPrev_spec io.prev hroom hleft hn
  generalize readPrev n max pos buf left io.prev = p at *
  obtain ⟨buf', left', prev'⟩ := p
  dsimp only at hload hmax hprev ⊢
  have hload' := hload.append (io.bio.getD [])
  rcases hprev with hdone | rfl
  · -- what is left of the previous epoch stays in front of the transport
    rw [readLoop_of_le hdone]
    exact ⟨hload', hmax, ⟨fun _ => hdone, fun _ => rfl⟩, nofun, fun _ => rfl⟩
  · have hroom' : pos + max ≤ buf'.length := by rwa [hload.length]
    obtain ⟨hrest, hleft, hret, hraised⟩ := readLoop_spec results io.bio hroom' hmax
    exact ⟨hload'.trans hrest, hleft, hret, hraised, henough⟩

/-! ### The packet and what follows it -/

structure Layer.WF (rl : Layer ReadBuffer) : Prop where
  fits : rl.rbuf.offset + rl.rbuf.left ≤ rl.rbuf.buf.length
  packet : rl.packet + rl.packetLength = rl.rbuf.offset

/-- What comes after the packet. -/
def Layer.unread (rl : Layer ReadBuffer) (io : Io) : Bytes :=
  slice rl.rbuf.buf rl.rbuf.offset rl.rbuf.left ++ io.content

/-- The packet and what comes after it. -/
def Layer.contents (rl : Layer ReadBuffer) (io : Io) : Bytes := rl.packetBytes ++ rl.unread io

variable {rl : Layer ReadBuffer}

theorem Layer.WF.contents_eq (h : rl.WF) (io : Io) :
    rl.contents io =
      slice rl.rbuf.buf rl.packet (rl.packetLength + rl.rbuf.left) ++ io.content := by
  rw [contents, packetBytes, unread, ← h.packet, ← append_assoc, slice_append]

theorem Layer.WF.length_packetBytes (h : rl.WF) : rl.packetBytes.length = rl.packetLength := by
  have hfits := h.fits
  have hpacket := h.packet
  exact length_slice (by omega)

/-- What a read does not touch. -/
structure Kept {β γ : Type} (rl : Layer β) (rl' : Layer γ) : Prop where
  rstate : rl'.rstate = rl.rstate
  rr0 : rl'.rr0 = rl.rr0
  isFirstRecord : rl'.isFirstRecord = rl.isFirstRecord

theorem Kept.trans {α β γ : Type} {rl : Layer α} {rl' : Layer β} {rl'' : Layer γ}
    (h : Kept rl rl') (h' : Kept rl' rl'') : Kept rl rl'' :=
  ⟨h'.rstate.trans h.rstate, h'.rr0.trans h.rr0, h'.isFirstRecord.trans h.isFirstRecord⟩

/-- The same packet of the same buffer, except for its end. -/
structure SamePacket (rl rl' : Layer ReadBuffer) : Prop extends Kept rl rl' where
  packet : rl'.packet = rl.packet
  addr : rl'.rbuf.addr = rl.rbuf.addr
  length : rl'.rbuf.buf.length = rl.rbuf.buf.length

theorem Layer.WF.takeBytes (h : rl.WF) (hn : n ≤ rl.rbuf.left)
    (io : Io) : (takeBytes rl n).WF ∧ (takeBytes rl n).contents io = rl.contents io := by
  have hfits := h.fits
  have hpacket := h.packet
  have hwf : (Read.takeBytes rl n).WF := by
    constructor <;> dsimp only [Read.takeBytes] <;> omega
  refine ⟨hwf, ?_⟩
  have hlen : rl.packetLength + n + (rl.rbuf.left - n) = rl.packetLength + rl.rbuf.left := by omega
  rw [hwf.contents_eq, h.contents_eq]
  dsimp only [Read.takeBytes]
  rw [hlen]

/-- Bytes are stored behind those that are left. -/
theorem Layer.WF.load (h : rl.WF) {io io' : Io} {buf : Bytes} {left : Nat}
    (hload : Loaded rl.rbuf.offset rl.rbuf.left rl.rbuf.buf io.content left buf io'.content)
    (hfits : rl.rbuf.offset + left ≤ rl.rbuf.buf.length) :
    Layer.WF { rl with rbuf := { rl.rbuf with buf := buf, left := left } } ∧
      Layer.contents { rl with rbuf := { rl.rbuf with buf := buf, left := left } } io' =
        rl.contents io := by
  refine ⟨⟨hload.length ▸ hfits, h.packet⟩, ?_⟩
  rw [Layer.contents, Layer.contents, Layer.unread, Layer.unread, Layer.packetBytes,
    Layer.packetBytes]
  rw [hload.front _ _ (Nat.le_of_eq h.packet), hload.data]

/-- How a read ends. -/
def ReadSpec (rl : Layer ReadBuffer) (io : Io) (results : List BioRead) (n : Nat) : Out Unit → Prop
  | .ok () rl' io' _ =>
    SamePacket rl rl' ∧ rl'.WF ∧ rl'.packetLength = rl.packetLength + n ∧
      (n ≤ rl.rbuf.left → rl'.rbuf.left = rl.rbuf.left - n) ∧ rl'.contents io' = rl.contents io
  | .failed rl' io' _ ret raised =>
    rl.rbuf.left < n ∧
    if rl.rbuf.buf.length < rl.rbuf.offset + n then ret = .fatal ∧ raised = some overrun
    else
      ret ≠ .success ∧ raised ≠ some overrun ∧ ¬ Enough n rl.rbuf.left io results ∧
        ((rl' = rl.release ∧ rl.packetLength = 0 ∧ io'.content = rl.contents io) ∨
          ∃ rl'' : Layer ReadBuffer, rl' = rl''.keep ∧ SamePacket rl rl'' ∧ rl''.WF ∧
            rl''.packetLength = rl.packetLength ∧ rl''.rbuf.offset = rl.rbuf.offset ∧
            rl''.rbuf.left < n ∧ rl''.contents io' = rl.contents io)

/-- The read asks for what is needed and not for more than fits. -/
theorem readMax_spec (cfg : Config) {room : Nat} (max : Nat) (h : n ≤ room) :
    n ≤ readMax cfg n max room ∧ readMax cfg n max room ≤ room := by
  rw [readMax]
  split
  · exact ⟨Nat.le_refl _, h⟩
  · have hmax : n ≤ if max < n then n else max := by split <;> omega
    generalize (if max < n then n else max) = max at hmax ⊢
    dsimp only
    split <;> omega

/-- What is read is in the buffer, in order. -/
theorem readMore_spec (cfg : Config) (h : rl.WF) (max : Nat)
    (hpos : n ≤ rl.rbuf.left ∨ rl.packet = readAlign rl.rbuf.addr) (io : Io)
    (results : List BioRead) : ReadSpec rl io results n (readMore cfg rl n max io results) := by
  have hpacket := h.packet
  rw [readMore]
  dsimp only
  by_cases hn : rl.rbuf.left ≥ n
  · rw [if_pos hn]
    obtain ⟨hwf, hcontents⟩ := h.takeBytes hn io
    exact ⟨⟨⟨rfl, rfl, rfl⟩, rfl, rfl, rfl⟩, hwf, rfl, fun _ => rfl, hcontents⟩
  rw [if_neg hn]
  by_cases hover : n > rl.rbuf.buf.length - rl.rbuf.offset
  · rw [if_pos hover]
    have hbranch : rl.rbuf.buf.length < rl.rbuf.offset + n := by omega
    rw [ReadSpec, if_pos hbranch]
    exact ⟨not_le.1 hn, rfl, rfl⟩
  rw [if_neg hover]
  have halign : readAlign rl.rbuf.addr + rl.packetLength = rl.rbuf.offset := by
    rw [← hpos.resolve_left hn, hpacket]
  rw [halign]
  obtain ⟨hn', hm⟩ := readMax_spec cfg max (not_lt.1 hover)
  generalize readMax cfg n max (rl.rbuf.buf.length - rl.rbuf.offset) = m at hn' hm ⊢
  have hroom : rl.rbuf.offset + m ≤ rl.rbuf.buf.length := by omega
  have hleft : rl.rbuf.left ≤ m := by omega
  have hspec := readPrev_readLoop_spec io results hroom hleft hn'
  generalize readPrev n m rl.rbuf.offset rl.rbuf.buf rl.rbuf.left io.prev = p at hspec ⊢
  obtain ⟨buf', left', prev'⟩ := p
  dsimp only at hspec ⊢
  generalize readLoop n m rl.rbuf.offset results buf' left' io.bio = out at hspec ⊢
  obtain ⟨hload, hmax, hret, hraised, henough⟩ := hspec
  obtain ⟨hwf, hcontents⟩ := h.load hload (by omega)
  by_cases hok : out.ret = .success
  · rw [if_pos hok]
    obtain ⟨hwf', hcontents'⟩ := hwf.takeBytes (hret.1 hok) ⟨prev', out.bio⟩
    exact ⟨⟨⟨rfl, rfl, rfl⟩, rfl, rfl, hload.length⟩, hwf', rfl, fun hle => absurd hle hn,
      hcontents'.trans hcontents⟩
  rw [if_neg hok]
  have hbranch : ¬ rl.rbuf.buf.length < rl.rbuf.offset + n := by omega
  rw [ReadSpec, if_neg hbranch]
  refine ⟨not_le.1 hn, hok, hraised, mt henough hok, ?_⟩
  by_cases hrelease : cfg.releaseBuffers = true ∧ rl.packetLength + out.left = 0
  · rw [if_pos hrelease]
    refine .inl ⟨rfl, (Nat.add_eq_zero_iff.1 hrelease.2).1, ?_⟩
    rw [← hcontents, hwf.contents_eq, hrelease.2, slice_zero, nil_append]
  · rw [if_neg hrelease]
    exact .inr ⟨_, rfl, ⟨⟨rfl, rfl, rfl⟩, rfl, rfl, hload.length⟩, hwf, rfl, rfl,
      not_le.1 (mt hret.2 hok), hcontents⟩

/-! ### The next packet -/

/-- A buffer between two packets. -/
structure ReadBuffer.Idle (len : Nat) (rb : ReadBuffer) : Prop where
  length : rb.buf.length = len
  fits : rb.offset + rb.left ≤ len
  align : rb.left = 0 ∨ readAlign rb.addr ≤ rb.offset

/-- There is room for a header behind any alignment. -/
theorem readAlign_lt (addr : Nat) : readAlign addr < 8 := by
  exact Nat.lt_succ_of_le (Nat.sub_le _ _)

variable {len : Nat}

/-- What comes next when there is no packet. -/
def Layer.pending (rl : Layer (Option ReadBuffer)) (io : Io) : Bytes :=
  match rl.rbuf with
  | none => io.content
  | some rb => slice rb.buf rb.offset rb.left ++ io.content

/-- How the read of a packet of `n` bytes ends. -/
def NewSpec (len : Nat) (rl : Layer ReadBuffer) (io : Io) (results : List BioRead) (n : Nat)
    (clearold : Bool) : Out Unit → Prop
  | .ok () rl' io' _ =>
    Kept rl rl' ∧ rl'.WF ∧ rl'.rbuf.addr = rl.rbuf.addr ∧ rl'.rbuf.buf.length = len ∧
      readAlign rl.rbuf.addr ≤ rl'.packet ∧
      (clearold = true → rl'.packet = readAlign rl.rbuf.addr) ∧ rl'.packetLength = n ∧
      (n ≤ rl.rbuf.left → rl'.rbuf.left = rl.rbuf.left - n) ∧ rl'.contents io' = rl.unread io
  | .failed rl' io' _ ret raised =>
    rl.rbuf.left < n ∧ ret ≠ .success ∧ raised ≠ some overrun ∧
      ¬ Enough n rl.rbuf.left io results ∧ Kept rl rl' ∧
      (∀ rb ∈ rl'.rbuf, rb.Idle len ∧ rb.addr = rl.rbuf.addr ∧ rb.left < n) ∧
      rl'.pending io' = rl.unread io

/-- The packet before the first byte is added to it. -/
structure Fresh (len : Nat) (rl rl' : Layer ReadBuffer) (io : Io) (clearold : Bool) : Prop where
  kept : Kept rl rl'
  wf : rl'.WF
  addr : rl'.rbuf.addr = rl.rbuf.addr
  length : rl'.rbuf.buf.length = len
  left : rl'.rbuf.left = rl.rbuf.left
  align : readAlign rl.rbuf.addr ≤ rl'.packet
  front : clearold = true → rl'.packet = readAlign rl.rbuf.addr
  packetLength : rl'.packetLength = 0
  contents : rl'.contents io = rl.unread io

theorem fresh_startPacket (h : rl.rbuf.Idle len) (hlen : 8 ≤ len) (io : Io) :
    Fresh len rl (startPacket rl false) io false := by
  have halign := readAlign_lt rl.rbuf.addr
  have hfits := h.fits
  have hlength := h.length
  rw [startPacket, if_neg nofun]
  generalize hoffset : (if rl.rbuf.left = 0 then readAlign rl.rbuf.addr else rl.rbuf.offset) = o
  have ho : o + rl.rbuf.left ≤ len ∧ readAlign rl.rbuf.addr ≤ o ∧
      slice rl.rbuf.buf o rl.rbuf.left = slice rl.rbuf.buf rl.rbuf.offset rl.rbuf.left := by
    split_ifs at hoffset with hleft
    · rw [hleft, slice_zero]
      exact ⟨by omega, by omega, rfl⟩
    · rw [← hoffset]
      exact ⟨hfits, h.align.resolve_left hleft, rfl⟩
  refine ⟨⟨rfl, rfl, rfl⟩, ⟨hlength ▸ ho.1, rfl⟩, rfl, hlength, rfl, ho.2.1, nofun, rfl, ?_⟩
  rw [Layer.contents, Layer.packetBytes, Layer.unread, ho.2.2]
  rfl

/-- Moving to the front of the buffer changes no contents. -/
theorem Fresh.moveToFront {rl' : Layer ReadBuffer} {io : Io} (h : Fresh len rl rl' io false)
    (clearold : Bool) : Fresh len rl (moveToFront rl' clearold) io clearold := by
  have hfits := h.wf.fits
  have hpacket := h.wf.packet
  have hpl := h.packetLength
  have halign := h.align
  have hunread := h.wf.contents_eq io
  rw [hpl, Nat.zero_add, h.contents] at hunread
  rw [Read.moveToFront, h.addr]
  split
  · rw [hpl, Nat.zero_add, Nat.zero_add]
    have hmoved : (slice rl'.rbuf.buf rl'.packet rl'.rbuf.left).length = rl'.rbuf.left :=
      length_slice (by omega)
    have hroom : readAlign rl.rbuf.addr + (slice rl'.rbuf.buf rl'.packet rl'.rbuf.left).length ≤
        rl'.rbuf.buf.length := by omega
    have hself := slice_overwrite_self hroom
    rw [hmoved] at hself
    refine ⟨h.kept.trans ⟨rfl, rfl, rfl⟩, ⟨?_, rfl⟩, rfl, (length_overwrite hroom).trans h.length,
      h.left, le_rfl, fun _ => rfl, rfl, ?_⟩
    · dsimp only
      rw [length_overwrite hroom]
      omega
    · rw [hunread, Layer.contents, Layer.packetBytes, Layer.unread, slice_zero, hself]
      rfl
  · rename_i hfront
    exact ⟨h.kept, h.wf, h.addr, h.length, h.left, halign,
      fun hc => not_not.1 fun hne => hfront ⟨hne, hc⟩, hpl, h.contents⟩

/-- `tls_default_read_n` at the start of a packet. -/
theorem readN_new_spec (cfg : Config) (h : rl.rbuf.Idle len) (max : Nat) {clearold : Bool}
    (hn : 0 < n) (hlen : 8 + n ≤ len) (hold : n ≤ rl.rbuf.left ∨ clearold = true) (io : Io)
    (results : List BioRead) : NewSpec len rl io results n clearold
      (tlsDefaultReadN cfg rl n max false clearold io results) := by
  have hfresh := (fresh_startPacket h (by omega) io).moveToFront clearold
  rw [tlsDefaultReadN, if_neg (by omega)]
  generalize moveToFront (startPacket rl false) clearold = rl₁ at hfresh ⊢
  have hpos : n ≤ rl₁.rbuf.left ∨ rl₁.packet = readAlign rl₁.rbuf.addr := by
    rw [hfresh.left, hfresh.addr]
    exact hold.imp_right hfresh.front
  have hspec := readMore_spec cfg hfresh.wf max hpos io results
  cases hout : readMore cfg rl₁ n max io results with
  | ok u rl' io' results' =>
    rw [hout] at hspec
    obtain ⟨hsame, hwf, hpl, hleft, hcontents⟩ := hspec
    rw [hfresh.left] at hleft
    rw [hfresh.packetLength, Nat.zero_add] at hpl
    exact ⟨hfresh.kept.trans hsame.toKept, hwf, hsame.addr.trans hfresh.addr,
      hsame.length.trans hfresh.length, hsame.packet ▸ hfresh.align,
      fun hc => hsame.packet.trans (hfresh.front hc), hpl, hleft,
      hcontents.trans hfresh.contents⟩
  | failed rl' io' results' ret raised =>
    rw [hout] at hspec
    obtain ⟨hleft, hspec⟩ := hspec
    rw [hfresh.left] at hleft
    have hfront := hfresh.front (hold.resolve_left (not_le.2 hleft))
    have hpacket := hfresh.wf.packet
    have halign := readAlign_lt rl.rbuf.addr
    rw [hfront, hfresh.packetLength, Nat.add_zero] at hpacket
    rw [hfresh.length, hfresh.left, if_neg (by omega)] at hspec
    obtain ⟨hret, hraised, henough, hcase⟩ := hspec
    refine ⟨hleft, hret, hraised, henough, ?_⟩
    rcases hcase with ⟨rfl, _, hcontents⟩ | ⟨rl₂, rfl, hsame, hwf, hpl, hoffset, hlt, hcontents⟩
    · exact ⟨hfresh.kept.trans ⟨rfl, rfl, rfl⟩, nofun, hcontents.trans hfresh.contents⟩
    rw [hfresh.packetLength] at hpl
    have haddr := hsame.addr.trans hfresh.addr
    have hlength := hsame.length.trans hfresh.length
    refine ⟨(hfresh.kept.trans hsame.toKept).trans ⟨rfl, rfl, rfl⟩, ?_, ?_⟩
    · rintro rb ⟨⟩
      refine ⟨⟨hlength, hlength ▸ hwf.fits, .inr ?_⟩, haddr, hlt⟩
      rw [haddr, hoffset, hpacket]
    · rw [← hfresh.contents, ← hcontents, Layer.contents, Layer.packetBytes, hpl]
      rfl

/-- A packet that is extended stays where it is. -/
theorem readN_extend (cfg : Config) (rl : Layer ReadBuffer) (max : Nat) (hn : 0 < n) (io : Io)
    (results : List BioRead) :
    tlsDefaultReadN cfg rl n max true false io results = readMore cfg rl n max io results := by
  have hmove : moveToFront (startPacket rl true) false = rl := by
    rw [moveToFront, if_neg (fun h => nomatch h.2), startPacket, if_pos rfl]
  rw [tlsDefaultReadN, if_neg (Nat.ne_of_gt hn), hmove]

end QuicTls.Record.Read
