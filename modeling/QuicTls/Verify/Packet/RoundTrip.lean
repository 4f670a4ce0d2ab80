import Mathlib.Tactic.IntervalCases
import QuicTls.Verify.Packet.Write

/-!
# Writing and reading a tree

A tree of byte strings and length-prefixed sub-packets is written with the functions of `WPacket`
and read back with those of `Packet` (`wpacket_roundTrip`).
-/

namespace QuicTls

open List

/-- The sizes of a length field: `WPACKET_start_sub_packet_u8` and so on. -/
inductive LenBytes where
  | u8
  | u16
  | u24
  | u32
  deriving DecidableEq, Repr

def LenBytes.toNat : LenBytes → Nat
  | u8 => 1
  | u16 => 2
  | u24 => 3
  | u32 => 4

theorem LenBytes.toNat_pos (lenbytes : LenBytes) : 0 < lenbytes.toNat := by
  cases lenbytes <;> decide

/-- What is written to a packet: byte strings, put as a number or copied, and sub-packets. -/
inductive Content where
  | nil
  | bytes (put : Bool) (bs : Bytes) (rest : Content)
  | sub (lenbytes : LenBytes) (flags : WPacketFlags) (content rest : Content)

namespace Content

/-- The bytes of the tree; an empty sub-packet that is to be abandoned leaves nothing. -/
def serialise : Content → Bytes
  | nil => []
  | bytes _ bs rest => bs ++ rest.serialise
  | sub lenbytes flags content rest =>
    (if content.serialise = [] ∧ flags.abandonOnZeroLength = true then []
      else BigEndian.encode lenbytes.toNat content.serialise.length ++ content.serialise)
      ++ rest.serialise

/-- The contents of each sub-packet fit its length field, and no sub-packet is empty that must not
be. -/
def Fits : Content → Prop
  | nil => True
  | bytes _ _ rest => rest.Fits
  | sub lenbytes flags content rest =>
    content.Fits ∧ content.serialise.length < 256 ^ lenbytes.toNat
      ∧ (flags.nonZeroLength = true → content.serialise ≠ []) ∧ rest.Fits

/-- After `w` bytes the total stays within `max`, also while a sub-packet is open that is abandoned
later. -/
def Room (max : Nat) : Nat → Content → Prop
  | w, nil => w ≤ max
  | w, bytes _ bs rest => w + bs.length ≤ max ∧ Room max (w + bs.length) rest
  | w, sub lenbytes flags content rest =>
    w + lenbytes.toNat ≤ max ∧ Room max (w + lenbytes.toNat) content
      ∧ Room max (w + (WPacket.closed lenbytes.toNat flags content.serialise).length) rest

/-- Go on after a success. -/
def andThen (r : WPacket × Bool) (k : WPacket → WPacket × Bool) : WPacket × Bool :=
  if r.2 then k r.1 else r

/-- The calls that write the tree. -/
def write (mem : Bool) : Content → WPacket → WPacket × Bool
  | nil, p => (p, true)
  | bytes put bs rest, p =>
    andThen
      (if put ∧ bs ≠ [] ∧ bs.length ≤ 8 then p.putBytes mem (BigEndian.decode bs) bs.length
        else p.memcpy mem bs)
      (rest.write mem)
  | sub lenbytes flags content rest, p =>
    andThen (p.startSubPacketLen mem lenbytes.toNat) fun p =>
      andThen (p.setFlags flags) fun p =>
        andThen (content.write mem p) fun p =>
          andThen (p.close mem) (rest.write mem)

end Content

/-- The number of bytes of the length field of a packet, if it has one. -/
def lengthSize : Option LenBytes → Nat
  | none => 0
  | some lenbytes => lenbytes.toNat

/-- The buffer that a packet starts with. -/
inductive PacketStart where
  | static (buf : Bytes)
  | mem (buf : BufMem UInt8)

namespace PacketStart

/-- `WPACKET_init_static_len` and `WPACKET_init_len` -/
def init (mem : Bool) (lenbytes : Nat) : PacketStart → WPacket × Bool
  | static buf => WPacket.initStaticLen mem buf lenbytes
  | .mem buf => WPacket.initLen mem buf lenbytes

def maxsize (lenbytes : Nat) : PacketStart → Nat
  | static buf => min (WPacket.maxmaxsize lenbytes) buf.length
  | mem _ => WPacket.maxmaxsize lenbytes

/-- The calls that write a whole packet. -/
def write (mem : Bool) (start : PacketStart) (lenbytes : Option LenBytes) (flags : WPacketFlags)
    (content : Content) : WPacket × Bool :=
  Content.andThen (start.init mem (lengthSize lenbytes)) fun p =>
    Content.andThen (p.setFlags flags) fun p =>
      Content.andThen (content.write mem p) fun p => p.finish mem

end PacketStart

namespace Content

open WPacket

variable {p : WPacket} {mem : Bool} {out x body : Bytes} {flags : WPacketFlags}
  {max cap w lenbytes : Nat} {subs : List WPacketSub} {c : Content}

theorem andThen_does {ok ok' fits fits' : Prop} {post post' : WPacket → Prop} {r : WPacket × Bool}
    {k : WPacket → WPacket × Bool} (h : Does mem ok fits post r)
    (hk : ∀ q, post q → Does mem ok' fits' post' (k q)) :
    Does mem (ok ∧ ok') (fits ∧ fits') post' (andThen r k) := by
  rw [andThen]
  constructor
  · intro hok
    split at hok
    · rename_i hr
      rw [if_pos hr]
      obtain ⟨hfirst, hpost⟩ := h.sound hr
      obtain ⟨hnext, hpost'⟩ := (hk _ hpost).sound hok
      exact ⟨⟨hfirst, hnext⟩, hpost'⟩
    · exact absurd hok ‹_›
  · intro hmem hok hfits
    have hr := h.complete hmem hok.1 hfits.1
    rw [if_pos hr]
    exact (hk _ (h.sound hr).2).complete hmem hok.2 hfits.2

theorem Room.le (h : Room max w c) : w ≤ max := by
  cases c with
  | nil => exact h
  | bytes put bs rest | sub lenbytes flags content rest =>
    have := h.1
    omega

theorem Room.mono {max' : Nat} (h : Room max w c) (hle : max ≤ max') : Room max' w c := by
  induction c generalizing w with
  | nil => exact Nat.le_trans h hle
  | bytes put bs rest ih => exact ⟨Nat.le_trans h.1 hle, ih h.2⟩
  | sub lenbytes flags content rest ihc ihr =>
    exact ⟨Nat.le_trans h.1 hle, ihc h.2.1, ihr h.2.2⟩

theorem Room.total (h : Room max w c) : w + c.serialise.length ≤ max := by
  induction c generalizing w with
  | nil => exact h
  | bytes put bs rest ih =>
    have := ih h.2
    rw [serialise, length_append]
    omega
  | sub lenbytes flags content rest _ ih =>
    have := ih h.2.2
    show w + (WPacket.closed _ _ _ ++ _).length ≤ max
    rw [length_append]
    omega

theorem serialise_sub (lenbytes : LenBytes) (flags : WPacketFlags) (content rest : Content) :
    (sub lenbytes flags content rest).serialise
      = WPacket.closed lenbytes.toNat flags content.serialise ++ rest.serialise := rfl

/-- A sub-packet is started. -/
theorem start_does (h : Has p max cap subs out) (hsubs : subs ≠ []) (hlen : 0 < lenbytes) :
    Does mem (out.length + lenbytes ≤ max) (out.length + lenbytes ≤ cap)
      (fun q => ∃ x, x.length = lenbytes ∧
        Has q max cap (subAt out lenbytes ⟨false, false⟩ :: subs) (out ++ x))
      (p.startSubPacketLen mem lenbytes) := by
  rw [startSubPacketLen, if_neg (h.subs ▸ hsubs),
    if_neg fun hend => Bool.false_ne_true (h.normal.symm.trans hend.2)]
  cases mem with
  | false => exact ⟨nofun, nofun⟩
  | true =>
    rw [if_neg hlen.ne', if_neg hlen.ne']
    have hp : Has { p with subs := ⟨p.written, lenbytes, (p.written + lenbytes) % 2 ^ 64,
        ⟨false, false⟩⟩ :: p.subs } max cap _ out := { h with subs := rfl }
    apply hp.allocate (cons_ne_nil _ _) hlen
    intro q x hx hq
    rw [h.written, h.subs] at hq
    have hle := hq.le_maxsize
    rw [length_append, hx] at hle
    rw [Nat.mod_eq_of_lt (hle.trans_lt hq.maxsize_lt)] at hq
    exact ⟨x, hx, hq⟩

theorem setFlags_does {sub : WPacketSub} (h : Has p max cap (sub :: subs) out) :
    Does mem True True (Has · max cap ({ sub with flags := flags } :: subs) out)
      (p.setFlags flags) := by
  rw [setFlags.eq_def, h.subs]
  exact ⟨fun _ => ⟨trivial, { h with subs := rfl }⟩, fun _ _ _ => rfl⟩

theorem close_does (h : Has p max cap (subAt out lenbytes flags :: subs) (out ++ x ++ body))
    (hx : x.length = lenbytes) (hne : subs ≠ []) :
    Does mem (Closable lenbytes flags body) True
      (Has · max cap subs (out ++ closed lenbytes flags body)) (p.close mem) := by
  subst hx
  obtain ⟨s, subs, rfl⟩ := exists_cons_of_ne_nil hne
  rw [close.eq_def, h.subs]
  exact h.internClose true

theorem write_bytes (put : Bool) (bs : Bytes) (p : WPacket) :
    (if put = true ∧ bs ≠ [] ∧ bs.length ≤ 8 then p.putBytes mem (BigEndian.decode bs) bs.length
      else p.memcpy mem bs) = p.memcpy mem bs := by
  split
  · rename_i h
    exact WPacket.putBytes_decode p h.2.1 h.2.2
  · rfl

/-- The calls succeed exactly when the tree fits, and write its bytes. -/
theorem write_does (c : Content) (h : Has p max cap subs out) (hsubs : subs ≠ [])
    (hw : out.length = w) :
    Does mem (c.Fits ∧ Room max w c) (Room cap w c) (Has · max cap subs (out ++ c.serialise))
      (c.write mem p) := by
  induction c generalizing p out w subs with
  | nil =>
    rw [serialise, append_nil]
    exact ⟨fun _ => ⟨⟨trivial, hw ▸ h.maxsize ▸ h.le_maxsize⟩, h⟩, fun _ _ _ => rfl⟩
  | bytes put bs rest ih =>
    subst hw
    have hboth : Does mem
        (out.length + bs.length ≤ max ∧ rest.Fits ∧ Room max (out.length + bs.length) rest)
        (out.length + bs.length ≤ cap ∧ Room cap (out.length + bs.length) rest)
        (Has · max cap subs (out ++ (bytes put bs rest).serialise))
        ((bytes put bs rest).write mem p) := by
      rw [write, write_bytes, serialise, ← append_assoc]
      exact andThen_does (h.memcpy hsubs) fun q hq => ih hq hsubs length_append
    exact hboth.imp and_left_comm id
  | sub lenbytes flags content rest ihc ihr =>
    subst hw
    have hall : Does mem
        (out.length + lenbytes.toNat ≤ max ∧ True
          ∧ (content.Fits ∧ Room max (out.length + lenbytes.toNat) content)
          ∧ Closable lenbytes.toNat flags content.serialise ∧ rest.Fits
          ∧ Room max (out.length + (closed lenbytes.toNat flags content.serialise).length) rest)
        (out.length + lenbytes.toNat ≤ cap ∧ True
          ∧ Room cap (out.length + lenbytes.toNat) content ∧ True
          ∧ Room cap (out.length + (closed lenbytes.toNat flags content.serialise).length) rest)
        (Has · max cap subs (out ++ (sub lenbytes flags content rest).serialise))
        ((sub lenbytes flags content rest).write mem p) := by
      rw [serialise_sub, ← append_assoc]
      refine andThen_does (start_does h hsubs lenbytes.toNat_pos) ?_
      rintro q ⟨x, hx, hq⟩
      refine andThen_does (setFlags_does hq) fun q hq => ?_
      refine andThen_does (ihc hq (cons_ne_nil _ _) ?_) fun q hq => ?_
      · rw [length_append, hx]
      · exact andThen_does (close_does hq hx hsubs) fun q hq => ihr hq hsubs length_append
    refine hall.imp ⟨?_, ?_⟩ fun h => ⟨h.1, trivial, h.2.1, trivial, h.2.2⟩
    · rintro ⟨hroom, -, ⟨hfits, hroomc⟩, ⟨hlen, hne⟩, hfitsr, hroomr⟩
      exact ⟨⟨hfits, hlen lenbytes.toNat_pos, hne, hfitsr⟩, hroom, hroomc, hroomr⟩
    · rintro ⟨⟨hfits, hlen, hne, hfitsr⟩, hroom, hroomc, hroomr⟩
      exact ⟨hroom, trivial, ⟨hfits, hroomc⟩, ⟨fun _ => hlen, hne⟩, hfitsr, hroomr⟩

end Content

/-! ### Reading -/

/-- What a reader knows about a tree: the lengths of the byte strings and the sizes of the length
fields. -/
inductive Shape where
  | nil
  | bytes (len : Nat) (rest : Shape)
  | sub (lenbytes : LenBytes) (content rest : Shape)

/-- A tree that was read. -/
inductive Tree where
  | nil
  | bytes (bs : Bytes) (rest : Tree)
  | sub (lenbytes : LenBytes) (content rest : Tree)
  deriving DecidableEq

def Tree.shape : Tree → Shape
  | nil => .nil
  | bytes bs rest => .bytes bs.length rest.shape
  | sub lenbytes content rest => .sub lenbytes content.shape rest.shape

/-- The tree without the sub-packets that are abandoned. -/
def Content.tree : Content → Tree
  | nil => .nil
  | bytes _ bs rest => .bytes bs rest.tree
  | sub lenbytes flags content rest =>
    if content.serialise = [] ∧ flags.abandonOnZeroLength = true then rest.tree
    else .sub lenbytes content.tree rest.tree

/-- `PACKET_get_length_prefixed_1` and so on; there is no such function for four bytes. -/
def LenBytes.getPrefixed (pkt : Packet) : LenBytes → Option (Packet × Packet)
  | u8 => pkt.getLengthPrefixed1
  | u16 => pkt.getLengthPrefixed2
  | u24 => pkt.getLengthPrefixed3
  | u32 => do
    let (length, pkt) ← pkt.getNet4
    pkt.getSubPacket length

/-- Read a tree; a sub-packet must be read to its end. -/
def Shape.read : Shape → Packet → Option (Tree × Packet)
  | nil, pkt => some (.nil, pkt)
  | bytes len rest, pkt => do
    let (bs, pkt) ← pkt.getBytes len
    let (t, pkt) ← rest.read pkt
    some (.bytes bs t, pkt)
  | sub lenbytes content rest, pkt => do
    let (subpkt, pkt) ← lenbytes.getPrefixed pkt
    let (t, left) ← content.read subpkt
    if left = [] then do
      let (t', pkt) ← rest.read pkt
      some (.sub lenbytes t t', pkt)
    else none

theorem Packet.getBytes_append (bs rest : Bytes) :
    Packet.getBytes (bs ++ rest) bs.length = some (bs, rest) := by
  unfold Packet.getBytes
  rw [if_neg (by rw [length_append]; omega), take_left, drop_left]

theorem Packet.getNet_append {n v : Nat} (h : v < 256 ^ n) (rest : Bytes) :
    Packet.getNet (BigEndian.encode n v ++ rest) n = some (v, rest) := by
  have hlen : (BigEndian.encode n v).length = n := BigEndian.length_encode n v
  unfold Packet.getNet
  rw [if_neg (by rw [length_append]; omega), take_left' hlen, drop_left' hlen,
    BigEndian.decode_encode h]

/-- A body is read back behind its length. -/
theorem LenBytes.getPrefixed_append (lenbytes : LenBytes) {body : Bytes}
    (h : body.length < 256 ^ lenbytes.toNat) (rest : Bytes) :
    lenbytes.getPrefixed (BigEndian.encode lenbytes.toNat body.length ++ body ++ rest)
      = some (body, rest) := by
  have hprefixed : Packet.getLengthPrefixed
      (BigEndian.encode lenbytes.toNat body.length ++ body ++ rest) lenbytes.toNat
      = some (body, rest) := by
    unfold Packet.getLengthPrefixed
    rw [append_assoc, Packet.getNet_append h]
    exact Packet.getBytes_append body rest
  cases lenbytes with
  | u8 | u16 | u24 => exact hprefixed
  | u32 =>
    have hlen : ¬ sizeMax / 2 < body.length := by
      unfold sizeMax
      simp only [LenBytes.toNat] at h
      omega
    unfold LenBytes.getPrefixed Packet.getNet4
    dsimp only
    rw [append_assoc]
    simp only [LenBytes.toNat] at h ⊢
    rw [Packet.getNet_append h]
    show Packet.getSubPacket (body ++ rest) body.length = _
    unfold Packet.getSubPacket
    rw [if_neg (by rw [length_append]; omega), if_neg hlen, take_left, drop_left]

/-- Reading undoes writing. -/
theorem Content.read_serialise (c : Content) (h : c.Fits) (rest : Bytes) :
    c.tree.shape.read (c.serialise ++ rest) = some (c.tree, rest) := by
  induction c generalizing rest with
  | nil => rfl
  | bytes put bs c ih =>
    rw [tree, Tree.shape, serialise, Shape.read, append_assoc, Packet.getBytes_append]
    dsimp only [Option.bind_eq_bind, Option.bind_some]
    rw [ih h]
    rfl
  | sub lenbytes flags content c ihc ihr =>
    obtain ⟨hfits, hlen, -, hrest⟩ := h
    rw [tree, serialise]
    split
    · rw [nil_append]
      exact ihr hrest rest
    have hcontent := ihc hfits []
    rw [append_nil] at hcontent
    rw [Tree.shape, Shape.read, append_assoc _ c.serialise, lenbytes.getPrefixed_append hlen]
    dsimp only [Option.bind_eq_bind, Option.bind_some]
    rw [hcontent]
    dsimp only [Option.bind_some]
    rw [ihr hrest]
    rfl

/-! ### Whole packets -/

/-- The buffer is not empty and its size is a `size_t`. -/
def PacketStart.WellFormed : PacketStart → Prop
  | static buf => buf ≠ [] ∧ buf.length < 2 ^ 64
  | mem buf => buf.data.length < 2 ^ 64

instance (start : PacketStart) : Decidable start.WellFormed :=
  match start with
  | .static _ => inferInstanceAs (Decidable (_ ∧ _))
  | .mem _ => inferInstanceAs (Decidable (_ < _))

/-- The whole packet, with its own length field if it has one. -/
def Content.packet (lenbytes : Option LenBytes) (flags : WPacketFlags) (content : Content) :
    Content :=
  match lenbytes with
  | none => content
  | some lenbytes => .sub lenbytes flags content .nil

open WPacket

theorem maxmaxsize_lt (lenbytes : Nat) (h : lenbytes ≤ 4) : maxmaxsize lenbytes < 2 ^ 64 := by
  interval_cases lenbytes <;> decide

theorem lengthSize_le (lenbytes : Option LenBytes) : lengthSize lenbytes ≤ 4 := by
  cases lenbytes with
  | none => decide
  | some l => cases l <;> decide

namespace PacketStart

variable {start : PacketStart} {lenbytes : Nat}

/-- The packet before its length field is allocated. -/
def bare (start : PacketStart) (lenbytes : Nat) : WPacket :=
  ⟨match start with
    | static buf => .static buf
    | .mem buf => .mem buf, 0, 0, start.maxsize lenbytes,
    [subAt [] lenbytes ⟨false, false⟩], false, []⟩

/-- Starting a packet reserves the bytes of its length. -/
theorem init_eq (hstart : start.WellFormed) (lenbytes : Nat) :
    start.init true lenbytes = if lenbytes = 0 then (start.bare lenbytes, true)
      else match (start.bare lenbytes).allocate true lenbytes with
        | none => ({ start.bare lenbytes with subs := [] }, false)
        | some (p, _) => (p, true) := by
  have hsub : subAt [] lenbytes ⟨false, false⟩ = ⟨0, lenbytes, lenbytes, ⟨false, false⟩⟩ := by
    rw [subAt, length_nil, Nat.zero_add]
  cases start with
  | static buf =>
    have hmax : (if WPacket.maxmaxsize lenbytes < buf.length then WPacket.maxmaxsize lenbytes
        else buf.length) = min (WPacket.maxmaxsize lenbytes) buf.length := by
      split <;> omega
    unfold init WPacket.initStaticLen WPacket.internInitLen bare
    dsimp only
    rw [if_neg hstart.1, hmax, hsub]
    rfl
  | mem buf =>
    unfold init WPacket.initLen WPacket.internInitLen bare
    dsimp only
    rw [hsub]
    rfl

theorem has_bare (hstart : start.WellFormed) (hlen : lenbytes ≤ 4) :
    Has (start.bare lenbytes) (start.maxsize lenbytes) (start.bare lenbytes).buffer.capacity
      [subAt [] lenbytes ⟨false, false⟩] [] := by
  have hmax := maxmaxsize_lt lenbytes hlen
  cases start with
  | static buf =>
    refine ⟨⟨rfl, rfl, rfl, rfl, Nat.zero_le _, ?_, nil_prefix, hstart.2, ?_⟩, rfl, rfl, rfl⟩
    · show min (maxmaxsize lenbytes) buf.length < 2 ^ 64
      omega
    · intro data heq
      cases heq
      exact Nat.min_le_right ..
  | mem buf =>
    exact ⟨⟨rfl, rfl, rfl, rfl, Nat.zero_le _, hmax, nil_prefix, hstart, nofun⟩, rfl, rfl, rfl⟩

/-- The packet after the initialisation. -/
theorem init_does (hstart : start.WellFormed) (hlen : lenbytes ≤ 4) :
    Does true (lenbytes ≤ start.maxsize lenbytes)
      (lenbytes ≤ (start.bare lenbytes).buffer.capacity)
      (fun q => ∃ x, x.length = lenbytes ∧ Has q (start.maxsize lenbytes)
        (start.bare lenbytes).buffer.capacity [subAt [] lenbytes ⟨false, false⟩] x)
      (start.init true lenbytes) := by
  have hbare := has_bare hstart hlen
  rw [init_eq hstart]
  split
  · rename_i hzero
    exact ⟨fun _ => ⟨hzero.trans_le (Nat.zero_le _), [], hzero.symm, hbare⟩, fun _ _ _ => rfl⟩
  · rename_i hpos
    have hzero : ([] : Bytes).length + lenbytes = lenbytes := Nat.zero_add _
    exact (hbare.allocate (cons_ne_nil _ _) (Nat.pos_of_ne_zero hpos)
      fun q x hx hq => ⟨x, hx, hq⟩).imp (by rw [hzero]) hzero.trans_le

theorem finish_does {p : WPacket} {mem : Bool} {max cap : Nat} {flags : WPacketFlags}
    {x body : Bytes} (h : Has p max cap [subAt [] lenbytes flags] (x ++ body))
    (hx : x.length = lenbytes) :
    Does mem (Closable lenbytes flags body) True (Has · max cap [] (closed lenbytes flags body))
      (p.finish mem) := by
  subst hx
  rw [finish.eq_def, h.subs]
  exact @Has.internClose _ _ [] _ _ _ _ _ _ h false

variable {size : Option LenBytes} {flags : WPacketFlags} {content : Content}

theorem serialise_packet (size : Option LenBytes) (flags : WPacketFlags) (content : Content) :
    (Content.packet size flags content).serialise
      = WPacket.closed (lengthSize size) flags content.serialise := by
  cases size with
  | none =>
    unfold WPacket.closed
    split
    · exact (‹_ ∧ _›).1
    · rfl
  | some l =>
    show WPacket.closed _ _ _ ++ [] = _
    rw [append_nil]
    rfl

theorem fits_packet : (Content.packet size flags content).Fits ∧
      (flags.nonZeroLength = true → content.serialise ≠ []) ↔
    content.Fits ∧ Closable (lengthSize size) flags content.serialise := by
  cases size with
  | none => exact ⟨fun h => ⟨h.1, nofun, h.2⟩, fun h => ⟨h.1, h.2.2⟩⟩
  | some l =>
    exact ⟨fun h => ⟨h.1.1, fun _ => h.1.2.1, h.2⟩,
      fun h => ⟨⟨h.1, h.2.1 l.toNat_pos, h.2.2, trivial⟩, h.2.2⟩⟩

theorem room_packet {max : Nat} : Content.Room max 0 (Content.packet size flags content) ↔
    Content.Room max (lengthSize size) content := by
  cases size with
  | none => exact Iff.rfl
  | some l =>
    show 0 + l.toNat ≤ max ∧ Content.Room max (0 + l.toNat) content
      ∧ 0 + (closed l.toNat flags content.serialise).length ≤ max ↔ _
    rw [Nat.zero_add, Nat.zero_add]
    refine ⟨fun h => h.2.1, fun h => ⟨h.le, h, ?_⟩⟩
    have htotal := h.total
    rw [closed]
    split
    · exact Nat.zero_le _
    · rwa [length_append, BigEndian.length_encode]

/-- A run succeeds exactly when the packet fits, and has then written its bytes. -/
theorem write_does (hstart : start.WellFormed) :
    Does true ((Content.packet size flags content).Fits
        ∧ (flags.nonZeroLength = true → content.serialise ≠ [])
        ∧ Content.Room (start.maxsize (lengthSize size)) 0 (Content.packet size flags content))
      (Content.Room (start.bare (lengthSize size)).buffer.capacity 0
        (Content.packet size flags content))
      (WPacket.Holds · (Content.packet size flags content).serialise)
      (start.write true size flags content) := by
  have hall : Does true
      (lengthSize size ≤ start.maxsize (lengthSize size) ∧ True
        ∧ (content.Fits ∧ Content.Room (start.maxsize (lengthSize size)) (lengthSize size) content)
        ∧ Closable (lengthSize size) flags content.serialise)
      (lengthSize size ≤ (start.bare (lengthSize size)).buffer.capacity ∧ True
        ∧ Content.Room (start.bare (lengthSize size)).buffer.capacity (lengthSize size) content
        ∧ True)
      (Has · (start.maxsize (lengthSize size)) (start.bare (lengthSize size)).buffer.capacity []
        (Content.packet size flags content).serialise)
      (start.write true size flags content) := by
    rw [serialise_packet]
    refine Content.andThen_does (init_does hstart (lengthSize_le size)) ?_
    rintro q ⟨x, hx, hq⟩
    refine Content.andThen_does (Content.setFlags_does hq) fun q hq => ?_
    exact Content.andThen_does (Content.write_does content hq (cons_ne_nil _ _) hx)
      fun q hq => finish_does hq hx
  rw [room_packet, room_packet, ← and_assoc, fits_packet]
  refine ⟨fun hr => ?_, fun hmem hok hfits => ?_⟩
  · obtain ⟨⟨-, -, ⟨hfits, hroom⟩, hclosable⟩, hpost⟩ := hall.sound hr
    exact ⟨⟨⟨hfits, hclosable⟩, hroom⟩, hpost.toHolds⟩
  · exact hall.complete hmem ⟨hok.2.le, trivial, ⟨hok.1.1, hok.2⟩, hok.1.2⟩
      ⟨hfits.le, trivial, hfits, trivial⟩

end PacketStart

/-- A packet is written exactly when the contents of each sub-packet fit its length field, no
sub-packet is empty that must not be, and the running total, which counts the length bytes of open
sub-packets, stays within `maxsize`; it can then be read back. A growable buffer must not reach the
limit of `BUF_MEM_grow` either. -/
theorem wpacket_roundTrip {start : PacketStart} (hstart : start.WellFormed)
    (size : Option LenBytes) (flags : WPacketFlags) (content : Content) :
    let r := start.write true size flags content
    let packet := Content.packet size flags content
    (r.2 = true → (packet.Fits ∧ (flags.nonZeroLength = true → content.serialise ≠ [])
        ∧ Content.Room (start.maxsize (lengthSize size)) 0 packet)
      ∧ r.1.written = packet.serialise.length
      ∧ r.1.buffer.data.take r.1.written = packet.serialise
      ∧ packet.tree.shape.read (r.1.buffer.data.take r.1.written) = some (packet.tree, [])) ∧
    ((packet.Fits ∧ (flags.nonZeroLength = true → content.serialise ≠ [])
        ∧ Content.Room (start.maxsize (lengthSize size)) 0 packet) →
      (∀ buf, start = .mem buf → Content.Room (BufMem.limitBeforeExpansion / 2) 0 packet) →
      r.2 = true) := by
  intro r packet
  constructor
  · intro hw
    obtain ⟨⟨hfits, hne, hroom⟩, hholds⟩ := (PacketStart.write_does hstart).sound hw
    obtain ⟨rest, hrest⟩ := hholds.data
    have hbytes : r.1.buffer.data.take r.1.written = packet.serialise := by
      rw [hholds.written, ← hrest, take_left]
    have hread := packet.read_serialise hfits []
    rw [append_nil] at hread
    exact ⟨⟨hfits, hne, hroom⟩, hholds.written, hbytes, hbytes ▸ hread⟩
  · rintro ⟨hfits, hne, hroom⟩ hlimit
    apply (PacketStart.write_does hstart).complete rfl ⟨hfits, hne, hroom⟩
    cases start with
    | static buf => exact hroom.mono (Nat.min_le_right ..)
    | mem buf => exact hlimit buf rfl

/-- A sub-packet within one that is abandoned, between two byte strings. -/
def Content.nested : Content :=
  .bytes true [1, 2] (.sub .u16 ⟨false, true⟩ (.sub .u8 ⟨false, true⟩ .nil .nil)
    (.sub .u24 ⟨true, false⟩ (.bytes false [3, 4, 5] .nil) .nil))

theorem wpacket_roundTrip_nested :
    let start := PacketStart.static (List.replicate 16 0)
    let r := start.write true (some .u8) ⟨false, false⟩ .nested
    r.1.buffer.data.take r.1.written = [8, 1, 2, 0, 0, 3, 3, 4, 5]
      ∧ (Content.packet (some .u8) ⟨false, false⟩ .nested).tree.shape.read
          (r.1.buffer.data.take r.1.written)
        = some ((Content.packet (some .u8) ⟨false, false⟩ .nested).tree, []) := by
  have hstart : (PacketStart.static (List.replicate 16 0)).WellFormed := by decide
  have h := (wpacket_roundTrip hstart (some .u8) ⟨false, false⟩ .nested).1 (by decide)
  exact ⟨by decide, h.2.2.2⟩

/-- The total of the tree is three bytes, and there is room for three; but the empty sub-packet
needs one more until it is abandoned. -/
theorem wpacket_abandon_needs_room :
    let start := PacketStart.static [0, 0, 0]
    let content := Content.bytes false [1, 2, 3] (.sub .u8 ⟨false, true⟩ .nil .nil)
    start.WellFormed ∧ (Content.packet none ⟨false, false⟩ content).Fits
      ∧ (Content.packet none ⟨false, false⟩ content).serialise.length ≤ start.maxsize 0
      ∧ (start.write true none ⟨false, false⟩ content).2 = false := by
  refine ⟨by decide, ⟨trivial, by decide, nofun, trivial⟩, by decide, by decide⟩

end QuicTls
