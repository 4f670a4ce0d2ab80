import Mathlib.Data.List.Pairwise
import QuicTls.Theory.Run
import QuicTls.Verify.Packet.Write

/-!
# A packet over a fixed buffer stays inside it

`WPacketOp.step` is one call. The bound on a fixed buffer is `maxsize` and nothing else, so it holds
as long as the calls keep `maxsize` within the buffer and every open sub-packet has the room for its
length: `Fitting` says which calls do (`wpacket_inside_buffer`).
-/

namespace QuicTls

open List

/-- A call on a packet. -/
inductive WPacketOp where
  | allocateBytes (len : Nat)
  | reserveBytes (len : Nat)
  | putBytes (val size : Nat)
  | memcpy (src : Bytes)
  | memset (ch : UInt8) (len : Nat)
  | startSubPacketLen (lenbytes : Nat)
  | close
  | finish
  | setFlags (flags : WPacketFlags)
  | setMaxSize (maxsize : Nat)
  | fillLengths

/-- The call, and whether its allocations succeed. -/
def WPacketOp.step (p : WPacket) (op : Bool × WPacketOp) : WPacket × Bool :=
  match op.2 with
  | .allocateBytes len => p.allocateBytes op.1 len
  | .reserveBytes len => p.reserveBytes op.1 len
  | .putBytes val size => p.putBytes op.1 val size
  | .memcpy src => p.memcpy op.1 src
  | .memset ch len => p.memset op.1 ch len
  | .startSubPacketLen lenbytes => p.startSubPacketLen op.1 lenbytes
  | .close => p.close op.1
  | .finish => p.finish op.1
  | .setFlags flags => p.setFlags flags
  | .setMaxSize maxsize => p.setMaxSize maxsize
  | .fillLengths => p.fillLengths op.1

/-- In a buffer of `len` bytes there is room for the length of a new sub-packet, and a new limit
stays in the buffer. A packet that is written from its end only lowers the limit. -/
def Fitting (len : Nat) (p : WPacket) (op : Bool × WPacketOp) : Prop :=
  match op.2 with
  | .startSubPacketLen lenbytes => 0 < lenbytes → lenbytes ≤ p.maxsize - p.written
  | .setMaxSize maxsize => maxsize ≤ len ∧ (p.endfirst = true → maxsize ≤ p.maxsize)
  | _ => True

instance (len : Nat) (p : WPacket) (op : Bool × WPacketOp) : Decidable (Fitting len p op) := by
  unfold Fitting
  split <;> infer_instance

/-- Whether there is a buffer, unless it can grow. -/
def PacketBuffer.fixed : PacketBuffer → Option Bool
  | .null => some false
  | .static _ => some true
  | .mem _ => none

namespace Region

/-- No byte is in both regions. -/
def Apart (r s : Region) : Prop := r.off + r.len ≤ s.off ∨ s.off + s.len ≤ r.off

instance (r s : Region) : Decidable (r.Apart s) := inferInstanceAs (Decidable (_ ∨ _))

instance : Std.Symm Apart := ⟨fun _ _ => Or.symm⟩

/-- The regions that are allocated after `r`, when `held` are before it. -/
def hold (held : List Region) (r : Region) : List Region :=
  match r.kind with
  | .allocated => held ++ [r]
  | .released => held.filter fun s => (s.off, s.len) ≠ (r.off, r.len)
  | .reserved | .patched => held

/-- The regions that were allocated and not given back. -/
def held (rs : List Region) : List Region := rs.foldl hold []

theorem held_concat (rs : List Region) (r : Region) : held (rs ++ [r]) = hold (held rs) r := by
  rw [held, foldl_append]
  rfl

end Region

namespace WPacket

variable {len : Nat} {p p' : WPacket} {mem : Bool} {n w : Nat} {off : Option Nat}
  {sub : WPacketSub} {subs : List WPacketSub} {src : Bytes}

/-- The open sub-packets, of which the innermost starts at most at `w`: the room for the length of
each one is where it started. -/
def Nested : Nat → List WPacketSub → Prop
  | _, [] => True
  | w, sub :: subs => sub.pwritten ≤ w ∧ sub.lenbytes ≤ sub.pwritten
    ∧ (0 < sub.lenbytes → sub.packetLen + sub.lenbytes = sub.pwritten)
    ∧ Nested (sub.pwritten - sub.lenbytes) subs

theorem Nested.mono {w' : Nat} (h : Nested w subs) (hw : w ≤ w') : Nested w' subs := by
  cases subs with
  | nil => trivial
  | cons sub subs => exact ⟨Nat.le_trans h.1 hw, h.2⟩

/-- The room for the length of an open sub-packet has been written. -/
theorem Nested.field_le (h : Nested w subs) (hsub : sub ∈ subs) (hpos : 0 < sub.lenbytes) :
    sub.packetLen + sub.lenbytes ≤ w := by
  induction subs generalizing w with
  | nil => cases hsub
  | cons s subs ih =>
    obtain ⟨hle, -, hfield, hrest⟩ := h
    cases hsub with
    | head =>
      rw [hfield hpos]
      exact hle
    | tail _ hsub =>
      have := ih hrest hsub
      omega

/-- The allocated regions `held` have no byte in common, neither with each other nor with the free
part of the buffer, and the room for the length of every open sub-packet is one of them. -/
structure Laid (endfirst : Bool) (maxsize written : Nat) (subs : List WPacketSub)
    (held : List Region) : Prop where
  nonempty : ∀ r ∈ held, 0 < r.len
  apart : held.Pairwise Region.Apart
  free : ∀ r ∈ held, if endfirst then maxsize - written ≤ r.off else r.off + r.len ≤ written
  fields : ∀ sub ∈ subs, 0 < sub.lenbytes → ∃ r ∈ held, r.off = sub.packetLen ∧ r.len = sub.lenbytes

/-- A packet over a fixed buffer, within its limit. -/
structure Static (p : WPacket) : Prop where
  static : p.buffer.fixed = some true
  written_le : p.written ≤ p.maxsize
  maxsize_lt : p.maxsize < 2 ^ 64

/-- Everything of the packet is inside a fixed buffer of `len` bytes. -/
structure Inside (len : Nat) (p : WPacket) : Prop extends Static p where
  len_lt : len < 2 ^ 64
  curr : p.curr = p.written
  maxsize_le : p.maxsize ≤ len
  nested : Nested p.written p.subs
  -- a packet that is written from its end has no lengths of a fixed size
  endfirst : p.endfirst = true → ∀ sub ∈ p.subs, sub.lenbytes = 0
  within : ∀ r ∈ p.regions, r.off + r.len ≤ len
  laid : Laid p.endfirst p.maxsize p.written p.subs (Region.held p.regions)

theorem Static.nonNull (h : Static p) : p.buffer.nonNull = true := by
  have hfixed := h.static
  cases hb : p.buffer with
  | static data => rfl
  | null | mem => simp [hb, PacketBuffer.fixed] at hfixed

theorem fixed_write (b : PacketBuffer) (o : Nat) (src : Bytes) :
    (b.write o src).fixed = b.fixed := by
  cases b <;> rfl

/-- A region inside the buffer that is not allocated is handed out or filled in. -/
theorem Inside.record {kind : RegionKind} {o : Nat} (h : Inside len p)
    (hkind : kind = .reserved ∨ kind = .patched) (ho : o + n ≤ len) :
    Inside len (p.record kind (some o) n) := by
  have hheld : Region.held (p.record kind (some o) n).regions = Region.held p.regions := by
    show Region.held (p.regions ++ [⟨kind, o, n⟩]) = _
    rw [Region.held_concat]
    obtain rfl | rfl := hkind <;> rfl
  refine { h with within := ?_, laid := ?_ }
  · exact forall_mem_append.2 ⟨h.within, forall_mem_singleton.2 ho⟩
  · rw [hheld]
    exact h.laid

theorem Inside.store (h : Inside len p) (off : Option Nat) (src : Bytes) :
    Inside len (p.store off src) := by
  cases off with
  | none => exact h
  | some o => exact { h with static := (fixed_write ..).trans h.static }

/-! ### Space -/

/-- Where the next `n` bytes go. -/
def next (p : WPacket) (n : Nat) : Nat :=
  if p.endfirst then p.maxsize - p.written - n else p.written

/-- Without a buffer that can grow there is room up to `maxsize`, and reserving changes nothing. -/
theorem reserve_of_fixed (hb : p.buffer.fixed ≠ none) (hw : p.written ≤ p.maxsize)
    (hmax : p.maxsize < 2 ^ 64) :
    p.reserve mem n =
      if p.subs = [] ∨ n = 0 ∨ p.maxsize - p.written < n then none
      else some (p, p.getCurr.map fun off => if p.endfirst then sizeSub off n else off) := by
  have hgrow : p.grow mem n = some p := by
    rw [grow.eq_def]
    cases hp : p.buffer with
    | null | static => rfl
    | mem buf => exact absurd (by rw [hp]; rfl) hb
  rw [WPacket.reserve, hgrow, sizeSub_of_le hw hmax]
  by_cases hne : p.subs = [] ∨ n = 0 <;> by_cases hroom : p.maxsize - p.written < n <;>
    simp [hroom]

theorem Inside.reserve_eq (h : Inside len p) (subs : List WPacketSub) :
    WPacket.reserve { p with subs := subs } mem n =
      if subs = [] ∨ n = 0 ∨ p.maxsize - p.written < n then none
      else some ({ p with subs := subs }, some (p.next n)) := by
  have hmax := h.maxsize_lt
  rw [reserve_of_fixed (p := { p with subs := subs }) (by simp [h.static]) h.written_le hmax]
  dsimp only
  split
  · rfl
  · have hback : sizeSub (p.maxsize - p.written) n = p.maxsize - p.written - n :=
      sizeSub_of_le (by omega) (by omega)
    simp only [getCurr, h.nonNull, h.curr, sizeSub_of_le h.written_le hmax, next]
    split <;> simp [hback]

theorem Inside.reserve (h : Inside len p) (hr : p.reserve mem n = some (p', off)) :
    p' = p ∧ off = some (p.next n) ∧ 0 < n ∧ n ≤ p.maxsize - p.written := by
  rw [show p.reserve mem n = _ from h.reserve_eq p.subs] at hr
  split at hr
  · cases hr
  · obtain ⟨rfl, rfl⟩ := Prod.mk.inj (Option.some.inj hr)
    exact ⟨rfl, rfl, by omega, by omega⟩

theorem Inside.next_add_le (h : Inside len p) (hn : n ≤ p.maxsize - p.written) :
    p.next n + n ≤ len := by
  have := h.written_le
  have := h.maxsize_le
  unfold next
  split <;> omega

theorem Inside.reserveBytes (h : Inside len p) : Inside len (p.reserveBytes mem n).1 := by
  unfold WPacket.reserveBytes
  split
  · exact h
  · rename_i p' off hr
    obtain ⟨rfl, rfl, -, hle⟩ := h.reserve hr
    exact h.record (.inl rfl) (h.next_add_le hle)

/-- The room for the length of a sub-packet that is not yet there. -/
def Pending (p : WPacket) (sub : WPacketSub) (n : Nat) : Prop :=
  sub.lenbytes = n ∧ sub.packetLen = p.written ∧ sub.pwritten = p.written + n ∧ p.endfirst = false

/-- The next `n` bytes are taken. Those of a sub-packet that starts are for its length. -/
theorem Inside.take (h : Inside len p) (hpos : 0 < n) (hn : n ≤ p.maxsize - p.written)
    (hsubs : subs = p.subs ∨ ∃ sub, subs = sub :: p.subs ∧ Pending p sub n) :
    Inside len { p.record .allocated (some (p.next n)) n with
      written := p.written + n, curr := p.curr + n, subs := subs } := by
  have hw := h.written_le
  have hheld : Region.held (p.regions ++ [⟨.allocated, p.next n, n⟩])
      = Region.held p.regions ++ [⟨.allocated, p.next n, n⟩] := by
    rw [Region.held_concat]
    rfl
  have hin : ∀ r ∈ Region.held p.regions, r.Apart ⟨.allocated, p.next n, n⟩ := by
    intro r hr
    have hfree := h.laid.free r hr
    unfold Region.Apart next
    split at hfree <;> simp_all
  have hold : ∀ sub ∈ p.subs, 0 < sub.lenbytes →
      ∃ r ∈ Region.held p.regions ++ [⟨.allocated, p.next n, n⟩],
        r.off = sub.packetLen ∧ r.len = sub.lenbytes := by
    intro sub hsub hlen
    obtain ⟨r, hr, heq⟩ := h.laid.fields sub hsub hlen
    exact ⟨r, mem_append_left _ hr, heq⟩
  refine ⟨⟨h.static, ?_, h.maxsize_lt⟩, h.len_lt, ?_, h.maxsize_le, ?_, ?_, ?_, ?_⟩
  · show p.written + n ≤ p.maxsize
    omega
  · show p.curr + n = p.written + n
    rw [h.curr]
  · obtain rfl | ⟨sub, rfl, hlen, hfield, hstart, -⟩ := hsubs
    · exact h.nested.mono (Nat.le_add_right ..)
    · refine ⟨Nat.le_of_eq hstart, by omega, by omega, ?_⟩
      rw [hstart, hlen, Nat.add_sub_cancel]
      exact h.nested
  · obtain rfl | ⟨sub, rfl, -, -, -, hnormal⟩ := hsubs
    · exact h.endfirst
    · intro he
      exact absurd (he.symm.trans hnormal) nofun
  · exact forall_mem_append.2 ⟨h.within, forall_mem_singleton.2 (h.next_add_le hn)⟩
  show Laid p.endfirst p.maxsize (p.written + n) subs (Region.held (p.regions ++ [_]))
  rw [hheld]
  refine ⟨forall_mem_append.2 ⟨h.laid.nonempty, forall_mem_singleton.2 hpos⟩,
    pairwise_append.2 ⟨h.laid.apart, pairwise_singleton .., fun r hr =>
      forall_mem_singleton.2 (hin r hr)⟩,
    forall_mem_append.2 ⟨fun r hr => ?_, forall_mem_singleton.2 ?_⟩, ?_⟩
  · have hfree := h.laid.free r hr
    split at hfree
    · rw [if_pos ‹_›]
      omega
    · rw [if_neg ‹_›]
      omega
  · unfold next
    split <;> simp only [*] <;> omega
  · obtain rfl | ⟨sub, rfl, hlen, hfield, -, hnormal⟩ := hsubs
    · exact hold
    · refine forall_mem_cons.2 ⟨fun _ => ?_, hold⟩
      refine ⟨_, mem_append_right _ (mem_singleton_self _), ?_, hlen.symm⟩
      simp [next, hnormal, hfield]

/-- A sub-packet without a length starts. -/
theorem Inside.push (h : Inside len p) (hlen : sub.lenbytes = 0)
    (hstart : sub.pwritten = p.written) : Inside len { p with subs := sub :: p.subs } := by
  have hno : ¬0 < sub.lenbytes := Nat.not_lt.2 (Nat.le_of_eq hlen)
  refine { h with nested := ?_, endfirst := ?_, laid := ?_ }
  · refine ⟨Nat.le_of_eq hstart, by omega, fun hpos => absurd hpos hno, ?_⟩
    rw [hstart, hlen]
    exact h.nested
  · exact fun he => forall_mem_cons.2 ⟨hlen, h.endfirst he⟩
  · exact { h.laid with
      fields := forall_mem_cons.2 ⟨fun hpos => absurd hpos hno, h.laid.fields⟩ }

theorem Inside.allocate (h : Inside len p) (ha : p.allocate mem n = some (p', off)) :
    Inside len p' ∧ off = some (p.next n) ∧ p.written ≤ p'.written ∧ p'.subs = p.subs
      ∧ p'.endfirst = p.endfirst := by
  obtain ⟨⟨q, o⟩, hr, heq⟩ := Option.map_eq_some_iff.1 ha
  obtain ⟨rfl, rfl, hpos, hle⟩ := h.reserve hr
  obtain ⟨rfl, rfl⟩ := Prod.mk.inj heq
  exact ⟨h.take hpos hle (.inl rfl), rfl, Nat.le_add_right .., rfl, rfl⟩

/-! ### Writing -/

/-- The call keeps the packet inside the buffer, adds to it only and leaves the sub-packets. -/
structure Adds (len : Nat) (p p' : WPacket) : Prop where
  inside : Inside len p'
  written : p.written ≤ p'.written
  subs : p'.subs = p.subs
  endfirst : p'.endfirst = p.endfirst

theorem Adds.refl (h : Inside len p) : Adds len p p := ⟨h, Nat.le_refl _, rfl, rfl⟩

theorem Adds.trans {p'' : WPacket} (h : Adds len p p') (h' : Adds len p' p'') : Adds len p p'' :=
  ⟨h'.inside, Nat.le_trans h.written h'.written, h'.subs.trans h.subs, h'.endfirst.trans h.endfirst⟩

theorem Adds.store (h : Adds len p p') (off : Option Nat) (src : Bytes) :
    Adds len p (p'.store off src) := by
  refine ⟨h.inside.store off src, ?_, ?_, ?_⟩ <;> cases off
  exacts [h.written, h.written, h.subs, h.subs, h.endfirst, h.endfirst]

theorem Inside.allocate_adds (h : Inside len p) (ha : p.allocate mem n = some (p', off)) :
    Adds len p p' :=
  have ⟨hin, _, hw, hs, he⟩ := h.allocate ha
  ⟨hin, hw, hs, he⟩

theorem Inside.allocateBytes (h : Inside len p) : Inside len (p.allocateBytes mem n).1 := by
  unfold WPacket.allocateBytes
  split
  · exact h
  · rename_i ha
    exact (h.allocate_adds ha).inside

theorem Inside.memcpy (h : Inside len p) : Inside len (p.memcpy mem src).1 := by
  unfold WPacket.memcpy
  split
  · exact h
  split
  · exact h
  · rename_i ha
    exact ((h.allocate_adds ha).store ..).inside

theorem Adds.putValue (h : Adds len p p') (off : Option Nat) (v n : Nat) :
    Adds len p (p'.putValue off v n).1 := by
  unfold WPacket.putValue
  split
  · exact h
  · exact h.store (some _) _

section
variable (h : Inside len p)
include h

theorem Inside.putBytes {v size : Nat} : Adds len p (p.putBytes mem v size).1 := by
  unfold WPacket.putBytes
  split
  · exact .refl h
  split
  · exact .refl h
  · rename_i ha
    exact (h.allocate_adds ha).putValue ..

theorem Inside.putDerLength : Adds len p (p.putDerLength mem n).1 := by
  unfold WPacket.putDerLength
  dsimp only
  split
  · exact h.putBytes
  split
  · exact h.putBytes.trans h.putBytes.inside.putBytes
  · exact h.putBytes

theorem Inside.patchLength (hle : sub.packetLen + sub.lenbytes ≤ len) :
    Adds len p (p.patchLength sub n).1 := by
  unfold WPacket.patchLength
  split
  · have hrec : Adds len p (p.record .patched (some sub.packetLen) sub.lenbytes) :=
      ⟨h.record (.inr rfl) hle, Nat.le_refl _, rfl, rfl⟩
    exact hrec.putValue ..
  · exact .refl h

/-! ### Sub-packets -/

theorem Inside.startSubPacketLen
    (hfit : 0 < n → n ≤ p.maxsize - p.written) : Inside len (p.startSubPacketLen mem n).1 := by
  have hmax := h.maxsize_le
  have hlen := h.len_lt
  have hw := h.written_le
  unfold WPacket.startSubPacketLen
  split
  · exact h
  rename_i hne
  split
  · exact h
  rename_i hnormal
  split
  · exact h
  dsimp only
  split_ifs with hn
  · refine h.push hn ?_
    rw [hn, Nat.add_zero, Nat.mod_eq_of_lt (by omega)]
  have hroom := hfit (by omega)
  unfold WPacket.allocateBytes WPacket.allocate
  rw [h.reserve_eq, if_neg (by simp; omega)]
  refine h.take (by omega) hroom (.inr ⟨_, rfl, rfl, rfl, ?_, ?_⟩)
  · exact Nat.mod_eq_of_lt (by omega)
  · exact Bool.eq_false_iff.2 fun he => hnormal ⟨by omega, he⟩

/-- The room for the length of the innermost sub-packet, which is empty, is given back. -/
theorem Inside.release (hs : p.subs = sub :: subs)
    (hempty : p.written = sub.pwritten) (hc : p.curr - sub.lenbytes = sub.packetLen) :
    Inside len { p.record .released (some sub.packetLen) sub.lenbytes with
      written := p.written - sub.lenbytes, curr := p.curr - sub.lenbytes, subs := subs } := by
  have hin : sub ∈ p.subs := by
    rw [hs]
    exact mem_cons_self
  have hsub : ∀ s ∈ subs, s ∈ p.subs := by
    intro s hmem
    rw [hs]
    exact mem_cons_of_mem _ hmem
  have hnested := h.nested
  rw [hs] at hnested
  obtain ⟨-, hlb, -, hrest⟩ := hnested
  have hw := h.written_le
  have hmax := h.maxsize_le
  rw [h.curr] at hc
  have hheld : Region.held (p.regions ++ [⟨.released, sub.packetLen, sub.lenbytes⟩])
      = (Region.held p.regions).filter
        fun s => (s.off, s.len) ≠ (sub.packetLen, sub.lenbytes) := by
    rw [Region.held_concat]
    rfl
  refine ⟨⟨h.static, Nat.le_trans (Nat.sub_le ..) hw, h.maxsize_lt⟩, h.len_lt, ?_, hmax, ?_, ?_,
    ?_, ?_⟩
  · show p.curr - _ = p.written - _
    rw [h.curr]
  · show Nested (p.written - sub.lenbytes) subs
    rw [hempty]
    exact hrest
  · intro he s hmem
    exact h.endfirst he s (hsub s hmem)
  · refine forall_mem_append.2 ⟨h.within, forall_mem_singleton.2 ?_⟩
    show sub.packetLen + sub.lenbytes ≤ len
    omega
  show Laid p.endfirst p.maxsize (p.written - sub.lenbytes) subs (Region.held (p.regions ++ [_]))
  rw [hheld]
  refine ⟨fun r hr => h.laid.nonempty r (mem_filter.1 hr).1, h.laid.apart.filter _, ?_, ?_⟩
  · intro r hr
    obtain ⟨hr, hne⟩ := mem_filter.1 hr
    have hfree := h.laid.free r hr
    rcases Nat.eq_zero_or_pos sub.lenbytes with hzero | hpos
    · rwa [hzero]
    have hnormal : ¬p.endfirst = true := fun he => by
      have := h.endfirst he sub hin
      omega
    rw [if_neg hnormal] at hfree ⊢
    -- the region is apart from the room for the length, which is the last thing written
    obtain ⟨f, hf, hoff, hlen⟩ := h.laid.fields sub hin hpos
    have hrf : r ≠ f := by
      rintro rfl
      simp [hoff, hlen] at hne
    have hapart := h.laid.apart.forall hr hf hrf
    have hrpos := h.laid.nonempty r hr
    unfold Region.Apart at hapart
    omega
  · intro s hmem hpos
    obtain ⟨r, hr, hoff, hlen⟩ := h.laid.fields s (hsub s hmem) hpos
    have hle := hrest.field_le hmem hpos
    refine ⟨r, mem_filter.2 ⟨hr, ?_⟩, hoff, hlen⟩
    simp only [Prod.mk.injEq, decide_not, Bool.not_eq_eq_eq_not, Bool.not_true,
      decide_eq_false_iff_not, hlen]
    omega

/-- The innermost sub-packet is closed. -/
theorem Inside.pop : Inside len { p with subs := p.subs.tail } := by
  have htail : ∀ s ∈ p.subs.tail, s ∈ p.subs := fun s => mem_of_mem_tail
  refine { h with
    nested := ?_
    endfirst := fun he s hs => h.endfirst he s (htail s hs)
    laid := { h.laid with fields := fun s hs => h.laid.fields s (htail s hs) } }
  have hnested := h.nested
  cases hs : p.subs with
  | nil => trivial
  | cons sub subs =>
    rw [hs] at hnested
    exact hnested.2.2.2.mono (Nat.le_trans (Nat.sub_le ..) hnested.1)

/-- What happens about the length of a sub-packet: it is written, or its room is given back. -/
theorem Inside.closeLength {parent doclose : Bool}
    (hfield : 0 < sub.lenbytes → sub.packetLen + sub.lenbytes ≤ len) :
    Adds len p (p.closeLength mem sub parent doclose n).1 ∨
      doclose = true ∧ n = 0 ∧ sizeSub p.curr sub.lenbytes = sub.packetLen ∧
      p.closeLength mem sub parent doclose n =
        ({ p.record .released (some sub.packetLen) sub.lenbytes with
          written := sizeSub p.written sub.lenbytes
          curr := sizeSub p.curr sub.lenbytes }, true) := by
  unfold WPacket.closeLength
  split_ifs with _ hzero hdo hcurr hpos
  · exact .inl (.refl h)
  · exact .inl (.refl h)
  · refine .inr ⟨by simpa using hdo, hzero.1, hcurr, ?_⟩
    unfold getCurr
    rw [if_pos h.nonNull]
    rfl
  · exact .inl (.refl h)
  · exact .inl (h.patchLength (hfield hpos))
  · exact .inl h.putDerLength
  · exact .inl (.refl h)

theorem Inside.field_le (hsub : sub ∈ p.subs) (hpos : 0 < sub.lenbytes) :
    sub.packetLen + sub.lenbytes ≤ len :=
  Nat.le_trans (h.nested.field_le hsub hpos) (Nat.le_trans h.written_le h.maxsize_le)

/-- Closing a sub-packet stays inside the buffer. -/
theorem Inside.internClose {parent : Bool} (hs : p.subs = sub :: subs) :
    Inside len (p.internClose mem sub parent true).1 := by
  have hlt : p.written < 2 ^ 64 := Nat.lt_of_le_of_lt h.written_le h.maxsize_lt
  have hnested := h.nested
  rw [hs] at hnested
  obtain ⟨hpw, hlb, -, -⟩ := hnested
  have hfield := h.field_le (show sub ∈ p.subs by rw [hs]; exact mem_cons_self)
  have hclose := @Inside.closeLength len p mem (p.written - sub.pwritten) sub h parent true hfield
  rw [WPacket.internClose, sizeSub_of_le hpw hlt]
  rcases hclose with hadds | ⟨-, hzero, hcurr, heq⟩
  · split
    · exact hadds.inside.pop
    · exact hadds.inside
  have hclt : p.curr < 2 ^ 64 := by
    rw [h.curr]
    exact hlt
  have hle : sub.lenbytes ≤ p.curr := by
    rw [h.curr]
    omega
  rw [sizeSub_of_le hle hclt] at hcurr heq
  rw [heq, sizeSub_of_le (by omega) hlt]
  have hrel := h.release hs (by omega) hcurr
  have htail : subs = p.subs.tail := by
    rw [hs]
    rfl
  rw [htail] at hrel
  exact hrel

/-- Filling in the lengths of open sub-packets, from any of them on. -/
theorem Inside.fillSubs (hsubs : ∀ sub ∈ subs, sub ∈ p.subs) :
    Inside len (fillSubs mem subs p).1 := by
  induction subs generalizing p with
  | nil => exact h
  | cons sub subs ih =>
    have hclose : Adds len p (p.internClose mem sub (!subs.isEmpty) false).1 := by
      have hfield := h.field_le (hsubs sub mem_cons_self)
      have hclose := @Inside.closeLength len p mem (sizeSub p.written sub.pwritten) sub h
        (!subs.isEmpty) false hfield
      rw [WPacket.internClose]
      generalize p.closeLength mem sub (!subs.isEmpty) false _ = r at hclose ⊢
      rcases hclose with hadds | ⟨hfalse, -⟩
      · rw [if_neg (fun hc => Bool.false_ne_true hc.2)]
        exact hadds
      · cases hfalse
    rw [WPacket.fillSubs]
    generalize p.internClose mem sub (!subs.isEmpty) false = r at hclose ⊢
    split
    · refine ih hclose.inside fun s hs => ?_
      rw [hclose.subs]
      exact hsubs s (mem_cons_of_mem _ hs)
    · exact hclose.inside

theorem Inside.setFlags {flags : WPacketFlags} : Inside len (p.setFlags flags).1 := by
  unfold WPacket.setFlags
  split
  · exact h
  rename_i sub subs hs
  have hnested := h.nested
  have hend := h.endfirst
  have hfields := h.laid.fields
  simp only [hs, forall_mem_cons] at hnested hend hfields
  exact { h with
    nested := hnested
    endfirst := fun he => forall_mem_cons.2 (hend he)
    laid := { h.laid with fields := forall_mem_cons.2 hfields } }

theorem Inside.setMaxSize (hle : n ≤ len)
    (hend : p.endfirst = true → n ≤ p.maxsize) : Inside len (p.setMaxSize n).1 := by
  rw [WPacket.setMaxSize]
  split
  · exact h
  dsimp only
  generalize maxmaxsize _ = limit
  split
  · exact h
  rename_i hn
  refine { h with
    written_le := (by omega : p.written ≤ n)
    maxsize_lt := hle.trans_lt h.len_lt
    maxsize_le := hle
    laid := { h.laid with free := fun r hr => ?_ } }
  · have hfree := h.laid.free r hr
    dsimp only
    split_ifs with he
    · have := hend he
      rw [if_pos he] at hfree
      omega
    · rwa [if_neg he] at hfree

/-- A call that fits keeps the packet inside the buffer. -/
theorem Inside.step {op : Bool × WPacketOp} (hfit : Fitting len p op) :
    Inside len (WPacketOp.step p op).1 := by
  obtain ⟨mem, op⟩ := op
  cases op with
  | allocateBytes => exact h.allocateBytes
  | reserveBytes => exact h.reserveBytes
  | putBytes => exact h.putBytes.inside
  | memcpy | memset => exact h.memcpy
  | startSubPacketLen => exact h.startSubPacketLen hfit
  | close | finish =>
    simp only [WPacketOp.step, WPacket.close, WPacket.finish]
    split
    · rename_i hs
      exact h.internClose hs
    all_goals exact h
  | setFlags => exact h.setFlags
  | setMaxSize => exact h.setMaxSize hfit.1 hfit.2
  | fillLengths =>
    show Inside len (p.fillLengths mem).1
    unfold WPacket.fillLengths
    split
    · exact h
    · exact h.fillSubs fun _ => id

end

/-- A new packet in a static buffer. -/
theorem inside_internInitLen {buf : Bytes} {endfirst : Bool} {lenbytes maxsize : Nat}
    (hbuf : buf.length < 2 ^ 64) (hmax : maxsize ≤ buf.length)
    (hend : endfirst = true → lenbytes = 0)
    (hinit : internInitLen mem (.static buf) maxsize endfirst lenbytes = (p, true)) :
    Inside buf.length p := by
  have hempty : Inside buf.length ⟨.static buf, 0, 0, maxsize, [], endfirst, []⟩ :=
    ⟨⟨rfl, Nat.zero_le _, hmax.trans_lt hbuf⟩, hbuf, rfl, hmax, trivial, nofun, nofun,
      ⟨nofun, .nil, nofun, nofun⟩⟩
  unfold internInitLen at hinit
  dsimp only at hinit
  split_ifs at hinit with _ hlb
  · cases hinit
  · cases hinit
    exact hempty.push hlb hlb
  unfold WPacket.allocate at hinit
  rw [hempty.reserve_eq] at hinit
  by_cases hroom : maxsize - 0 < lenbytes
  · rw [if_pos (.inr (.inr hroom))] at hinit
    cases hinit
  have hok : ¬([⟨0, lenbytes, lenbytes, ⟨false, false⟩⟩] = ([] : List WPacketSub)
      ∨ lenbytes = 0 ∨ maxsize - 0 < lenbytes) := by
    rintro (hnil | hzero | hlt)
    exacts [cons_ne_nil _ _ hnil, hlb hzero, hroom hlt]
  rw [if_neg hok] at hinit
  cases hinit
  have hnormal : endfirst = false := Bool.eq_false_iff.2 fun he => hlb (hend he)
  refine hempty.take (by omega) (Nat.le_of_not_lt hroom) (.inr ⟨_, rfl, rfl, rfl, ?_, hnormal⟩)
  exact (Nat.zero_add _).symm

end WPacket

open WPacket Run

/-- A packet over a fixed buffer stays inside it, whatever is done with it, as long as each call
fits: every region that is handed out or filled in is in the buffer, the regions that are allocated
and not given back have no byte in common, and `maxsize - written` does not wrap. -/
theorem wpacket_inside_buffer {buf : Bytes} {mem : Bool} {lenbytes : Nat} {p : WPacket}
    {ops : List (Bool × WPacketOp)} (hbuf : buf.length < 2 ^ 64)
    (hinit : initStaticLen mem buf lenbytes = (p, true) ∨ initDer mem buf = (p, true))
    (hops : Along WPacketOp.step (Fitting buf.length) p ops) :
    (∀ r ∈ (run WPacketOp.step p ops).1.regions, r.off + r.len ≤ buf.length) ∧
    (Region.held (run WPacketOp.step p ops).1.regions).Pairwise Region.Apart ∧
    (run WPacketOp.step p ops).1.written ≤ (run WPacketOp.step p ops).1.maxsize := by
  have h0 : Inside buf.length p := by
    rcases hinit with hinit | hinit
    · unfold initStaticLen at hinit
      dsimp only at hinit
      split at hinit
      · cases hinit
      · refine inside_internInitLen hbuf ?_ (fun he => Bool.noConfusion he) hinit
        split <;> omega
    · unfold initDer at hinit
      split at hinit
      · cases hinit
      · exact inside_internInitLen hbuf (Nat.le_refl _) (fun _ => rfl) hinit
  have h := run_along (fun p _ => Inside buf.length p) (Fitting buf.length)
    (fun p _ op hfit h => h.step hfit) hops h0
  exact ⟨h.within, h.laid.apart, h.written_le⟩

/-- A packet of eight bytes with a two-byte length, an abandoned sub-packet and a kept one. -/
theorem wpacket_inside_buffer_abandoned :
    let ops : List (Bool × WPacketOp) :=
      [(true, .memcpy [1]), (true, .startSubPacketLen 2), (true, .setFlags ⟨false, true⟩),
        (true, .close), (true, .startSubPacketLen 1), (true, .setMaxSize 7), (true, .putBytes 5 2),
        (true, .fillLengths), (true, .close), (true, .finish)]
    let p := (initStaticLen true (List.replicate 8 0) 2).1
    (run WPacketOp.step p ops).1.written = 6 ∧
    (∀ r ∈ (run WPacketOp.step p ops).1.regions, r.off + r.len ≤ 8) ∧
    (Region.held (run WPacketOp.step p ops).1.regions).Pairwise Region.Apart ∧
    (run WPacketOp.step p ops).1.written ≤ (run WPacketOp.step p ops).1.maxsize :=
  ⟨by decide, @wpacket_inside_buffer (List.replicate 8 0) true 2 _ _ (by decide) (.inl rfl)
    (by decide)⟩

/-- Without room for its length a sub-packet stays open, and closing it fills in a length after the
end of the buffer. A limit above the buffer's length hands out regions after its end, and a limit
that is raised while a packet is written from its end hands out the same byte twice. -/
theorem wpacket_outside_buffer :
    (⟨.patched, 1, 1⟩ : Region) ∈ (run WPacketOp.step (initStaticLen true [0] 0).1
      [(true, .memcpy [1]), (true, .startSubPacketLen 1), (true, .close)]).1.regions ∧
    (⟨.allocated, 0, 2⟩ : Region) ∈ (run WPacketOp.step (initStaticLen true [0] 0).1
      [(true, .setMaxSize 2), (true, .allocateBytes 2)]).1.regions ∧
    ¬(Region.held (run WPacketOp.step (initDer true [0, 0, 0]).1
      [(true, .setMaxSize 2), (true, .memcpy [1]), (true, .setMaxSize 3), (true, .memcpy [2])]
        ).1.regions).Pairwise Region.Apart := by
  decide

end QuicTls
