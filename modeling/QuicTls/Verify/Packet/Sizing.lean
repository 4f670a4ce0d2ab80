import QuicTls.Verify.Packet.Bounds

/-!
# Packets that only count

A packet without a buffer counts what a packet over a fixed buffer writes (`null_packet_counts`):
`Sim` relates two packets that agree in everything but the buffer and the limit. The second one is a
packet that only counts, or one over a buffer of another length.
-/

namespace QuicTls

namespace WPacket

open Run WPacketOp

variable {N : Nat} {p p' q q' : WPacket} {mem : Bool} {n : Nat} {off : Option Nat}
  {sub : WPacketSub} {src : Bytes} {f g : WPacket → WPacket × Bool} {parent der : Bool}
  {op : Bool × WPacketOp} {ops : List (Bool × WPacketOp)} {buf : Bytes}

/-- The packet over another buffer. -/
def onto (p : WPacket) (buffer : PacketBuffer) (limit : Nat) (regions : List Region) : WPacket :=
  { p with buffer := buffer, maxsize := limit, regions := regions }

/-- `q` counts what `p` writes into a fixed buffer, as long as the total is at most `N`. -/
structure Sim (N : Nat) (p q : WPacket) : Prop extends Static p where
  other : ∃ b limit rs, b.fixed ≠ none ∧ min p.maxsize N ≤ limit ∧ p.written ≤ limit ∧
    limit < 2 ^ 64 ∧ q = p.onto b limit rs

theorem Sim.fields (h : Sim N p q) :
    q.written = p.written ∧ q.subs = p.subs ∧ q.endfirst = p.endfirst := by
  obtain ⟨-, _, _, _, -, -, -, -, rfl⟩ := h
  exact ⟨rfl, rfl, rfl⟩

theorem Sim.written (h : Sim N p q) : q.written = p.written := h.fields.1

theorem Sim.subs (h : Sim N p q) : q.subs = p.subs := h.fields.2.1

/-- The sub-packets are not counted. -/
theorem Sim.withSubs (h : Sim N p q) (f : List WPacketSub → List WPacketSub) :
    Sim N { p with subs := f p.subs } { q with subs := f q.subs } := by
  obtain ⟨⟨hs, hle, hlt⟩, b, l, rs, hb, hmin, hl, hlt', rfl⟩ := h
  exact ⟨⟨hs, hle, hlt⟩, b, l, rs, hb, hmin, hl, hlt', rfl⟩

/-! ### What is stored does not count -/

/-- The packets differ in their buffers and in the regions that were handed out. -/
def SameCounts (p p' : WPacket) : Prop :=
  ∃ b rs, b.fixed = p.buffer.fixed ∧ p' = p.onto b p.maxsize rs

theorem SameCounts.refl (p : WPacket) : SameCounts p p := ⟨p.buffer, p.regions, rfl, rfl⟩

theorem SameCounts.trans {p'' : WPacket} (h : SameCounts p p') (h' : SameCounts p' p'') :
    SameCounts p p'' := by
  obtain ⟨b, rs, hb, rfl⟩ := h
  obtain ⟨b', rs', hb', rfl⟩ := h'
  exact ⟨b', rs', hb'.trans hb, rfl⟩

theorem Static.congr (h : Static p) (hp : SameCounts p p') : Static p' := by
  obtain ⟨b, rs, hb, rfl⟩ := hp
  exact ⟨hb.trans h.static, h.written_le, h.maxsize_lt⟩

theorem Sim.congr (h : Sim N p q) (hp : SameCounts p p') (hq : SameCounts q q') : Sim N p' q' := by
  obtain ⟨hs, b, l, rs, hb, hmin, hle, hlt, rfl⟩ := h
  refine ⟨hs.congr hp, ?_⟩
  obtain ⟨_, _, -, rfl⟩ := hp
  obtain ⟨b', rs', hb', rfl⟩ := hq
  exact ⟨b', l, rs', hb' ▸ hb, hmin, hle, hlt, rfl⟩

theorem sameCounts_store (p : WPacket) (off : Option Nat) (src : Bytes) :
    SameCounts p (p.store off src) := by
  cases off with
  | none => exact .refl p
  | some off => exact ⟨p.buffer.write off src, p.regions, fixed_write .., rfl⟩

theorem sameCounts_record (p : WPacket) (kind : RegionKind) (off : Option Nat) (n : Nat) :
    SameCounts p (p.record kind off n) := ⟨p.buffer, _, rfl, rfl⟩

theorem sameCounts_putValue (p : WPacket) (off : Option Nat) (v n : Nat) :
    SameCounts p (p.putValue off v n).1 := by
  cases off with
  | none => exact .refl p
  | some off => exact sameCounts_store p (some off) _

/-- A value that fits is stored, or there is no place for it. -/
theorem putValue_of_lt {v : Nat} (h : v < 256 ^ n) (p : WPacket) (off : Option Nat) :
    (p.putValue off v n).2 = true := by
  cases off with
  | none => rfl
  | some off => exact decide_eq_true h

/-- There is room for what the packet over a buffer reserves. -/
theorem Static.room (h : Static p) (hr : p.reserve mem n = some (p', off)) :
    p' = p ∧ 0 < n ∧ p.subs ≠ [] ∧ p.written + n ≤ p.maxsize ∧ ∃ o, off = some o := by
  have hwritten := h.written_le
  rw [reserve_of_fixed (by simp [h.static]) hwritten h.maxsize_lt] at hr
  split at hr
  · cases hr
  · rename_i hroom
    cases hr
    rw [not_or] at hroom
    exact ⟨rfl, by omega, hroom.1, by omega, by simp [getCurr, h.nonNull]⟩

/-- What the packet over a buffer reserves, the other one reserves. -/
theorem Sim.reserve (h : Sim N p q) (hr : p.reserve mem n = some (p', off))
    (hN : p.written + n ≤ N) :
    p.written + n ≤ q.maxsize ∧ ∃ off', q.reserve mem n = some (q, off') := by
  obtain ⟨-, hpos, hsubs, hroom, -⟩ := h.room hr
  obtain ⟨hs, b, l, rs, hb, hmin, hle, hlt, rfl⟩ := h
  have hfit : p.written + n ≤ l := by omega
  refine ⟨hfit, ?_⟩
  have hno : ¬(p.subs = [] ∨ n = 0 ∨ l - p.written < n) := not_or.2 ⟨hsubs, by omega⟩
  exact ⟨_, (reserve_of_fixed (p := p.onto b l rs) hb hle hlt).trans (if_neg hno)⟩

/-- The packet moves on. -/
def advanced (p : WPacket) (n : Nat) : WPacket :=
  { p with written := p.written + n, curr := p.curr + n }

theorem Static.allocate (h : Static p) (ha : p.allocate mem n = some (p', off)) :
    SameCounts (p.advanced n) p' ∧ Static p' ∧ ∃ o, off = some o := by
  obtain ⟨⟨p₁, off₁⟩, hr, heq⟩ := Option.map_eq_some_iff.1 ha
  obtain ⟨rfl, -, -, hroom, hoff⟩ := h.room hr
  cases heq
  exact ⟨⟨_, _, rfl, rfl⟩, ⟨h.static, hroom, h.maxsize_lt⟩, hoff⟩

theorem Sim.allocate (h : Sim N p q) (ha : p.allocate mem n = some (p', off))
    (hN : p'.written ≤ N) : ∃ q' off', q.allocate mem n = some (q', off') ∧ Sim N p' q' := by
  obtain ⟨⟨p₁, off₁⟩, hr, heq⟩ := Option.map_eq_some_iff.1 ha
  obtain ⟨rfl, -, -, hroom, -⟩ := h.room hr
  cases heq
  obtain ⟨hfit, off', hr'⟩ := h.reserve hr hN
  refine ⟨_, off', by rw [WPacket.allocate, hr']; rfl, ?_⟩
  obtain ⟨hs, b, l, rs, hb, hmin, -, hlt, rfl⟩ := h
  exact ⟨⟨hs.static, hroom, hs.maxsize_lt⟩, b, l, _, hb, hmin, hfit, hlt, rfl⟩

/-! ### Calls that count -/

/-- A call that does not lower the total, and that succeeds for the second packet as well when its
total stays below `N`. -/
def Counts (f : WPacket → WPacket × Bool) : Prop :=
  ∀ p, Static p → (f p).2 = true →
    Static (f p).1 ∧ (f p).1.subs = p.subs ∧ p.written ≤ (f p).1.written ∧
    ∀ N q, Sim N p q → (f p).1.written ≤ N → (f q).2 = true ∧ Sim N (f p).1 (f q).1

theorem counts_ok : Counts fun p => (p, true) := fun _ hp _ =>
  ⟨hp, rfl, Nat.le_refl _, fun _ _ h _ => ⟨rfl, h⟩⟩

theorem counts_fail : Counts fun p => (p, false) := nofun

theorem Counts.ite {c : Prop} [Decidable c] (hf : Counts f) (hg : Counts g) :
    Counts fun p => if c then f p else g p := by
  by_cases hc : c
  · simp only [if_pos hc]
    exact hf
  · simp only [if_neg hc]
    exact hg

theorem Counts.andThen (hf : Counts f) (hg : Counts g) :
    Counts fun p => if (f p).2 then g (f p).1 else f p := by
  intro p hp hok
  dsimp only at hok ⊢
  cases hfp : (f p).2 with
  | false =>
    rw [hfp] at hok
    exact absurd (hfp.symm.trans hok) Bool.false_ne_true
  | true =>
    rw [hfp, if_pos rfl] at hok
    obtain ⟨hs, hsubs, hle, hsim⟩ := hf p hp hfp
    obtain ⟨hs', hsubs', hle', hsim'⟩ := hg (f p).1 hs hok
    refine ⟨hs', hsubs'.trans hsubs, hle.trans hle', fun N q h hN => ?_⟩
    obtain ⟨hfq, h₁⟩ := hsim N q h (hle'.trans hN)
    rw [if_pos hfq]
    exact hsim' N (f q).1 h₁ hN

/-- Bytes are allocated, and then something is stored that the first packet can store. -/
theorem counts_allocate {k : WPacket → Option Nat → WPacket × Bool}
    (hk : ∀ p off, SameCounts p (k p off).1)
    (hok : ∀ p p' o off, (k p (some o)).2 = true → (k p' off).2 = true) :
    Counts fun p =>
      match p.allocate mem n with
      | none => (p, false)
      | some (p, off) => k p off := by
  intro p hp hput
  dsimp only at hput ⊢
  cases ha : p.allocate mem n with
  | none =>
    rw [ha] at hput
    cases hput
  | some r =>
    obtain ⟨p', off⟩ := r
    rw [ha] at hput
    obtain ⟨hsame, hstatic, o, rfl⟩ := hp.allocate ha
    obtain ⟨b, rs, -, hstore⟩ := hsame.trans (hk p' (some o))
    refine ⟨hstatic.congr (hk p' (some o)), by rw [hstore]; rfl, ?_, fun N q h hN => ?_⟩
    · exact hstore ▸ Nat.le_add_right ..
    · obtain ⟨_, _, -, rfl⟩ := hsame
      obtain ⟨q', off', ha', hs⟩ := h.allocate ha (by rw [hstore] at hN; exact hN)
      rw [ha']
      exact ⟨hok _ _ _ _ hput, hs.congr (hk ..) (hk ..)⟩

theorem counts_allocateBytes : Counts fun p => p.allocateBytes mem n :=
  counts_allocate (k := fun p _ => (p, true)) (fun p _ => .refl p) fun _ _ _ _ _ => rfl

theorem Static.written_allocateBytes (h : Static p) (hok : (p.allocateBytes mem n).2 = true) :
    (p.allocateBytes mem n).1.written = p.written + n := by
  rw [WPacket.allocateBytes] at hok ⊢
  cases ha : p.allocate mem n with
  | none =>
    rw [ha] at hok
    cases hok
  | some r =>
    obtain ⟨_, _, -, heq⟩ := (h.allocate ha).1
    exact congrArg WPacket.written heq

theorem counts_memcpy : Counts fun p => p.memcpy mem src :=
  counts_ok.ite (counts_allocate (fun p off => sameCounts_store p off src) fun _ _ _ _ _ => rfl)

theorem counts_putBytes {v : Nat} : Counts fun p => p.putBytes mem v n :=
  counts_fail.ite (counts_allocate (fun p off => sameCounts_putValue p off v n)
    fun _ p' _ off hput => putValue_of_lt (of_decide_eq_true hput) p' off)

theorem counts_putDerLength : Counts fun p => p.putDerLength mem n := by
  by_cases hlong : 0x7f < n
  · simp only [WPacket.putDerLength, if_pos hlong, Bool.not_eq_true', ← Bool.not_eq_true, ite_not]
    exact counts_putBytes.andThen counts_putBytes
  · simp only [WPacket.putDerLength, if_neg hlong, ite_self]
    exact counts_putBytes

/-! ### Sub-packets -/

theorem counts_patchLength : Counts fun p => p.patchLength sub n := by
  intro p hp hok
  have hsame : ∀ p : WPacket, SameCounts p (p.patchLength sub n).1 := by
    intro p
    rw [WPacket.patchLength]
    split
    · exact (sameCounts_record ..).trans (sameCounts_putValue ..)
    · exact .refl p
  obtain ⟨b, rs, -, heq⟩ := hsame p
  refine ⟨hp.congr (hsame p), by rw [heq]; rfl, by rw [heq]; rfl, fun N q h _ => ?_⟩
  refine ⟨?_, h.congr (hsame p) (hsame q)⟩
  dsimp only at hok ⊢
  rw [WPacket.patchLength, if_pos hp.nonNull] at hok
  rw [WPacket.patchLength]
  split
  · exact putValue_of_lt (of_decide_eq_true hok) _ _
  · rfl

/-- What a call does may depend on the total and on the direction. -/
theorem Counts.of_written {k : Nat → Bool → WPacket → WPacket × Bool}
    (h : ∀ w endfirst, Counts (k w endfirst)) : Counts fun p => k p.written p.endfirst p := by
  intro p hp hok
  obtain ⟨hs, hsubs, hle, hsim⟩ := h p.written p.endfirst p hp hok
  refine ⟨hs, hsubs, hle, fun N q hq hN => ?_⟩
  dsimp only
  rw [hq.written, hq.fields.2.2]
  exact hsim N q hq hN

/-- The length of a sub-packet that is not abandoned. -/
def putLength (sub : WPacketSub) (parent : Bool) (mem : Bool) (w : Nat) (endfirst : Bool)
    (p : WPacket) : WPacket × Bool :=
  if 0 < sub.lenbytes then p.patchLength sub (sizeSub w sub.pwritten)
  else if endfirst ∧ parent then p.putDerLength mem (sizeSub w sub.pwritten)
  else (p, true)

theorem counts_putLength (w : Nat) (endfirst : Bool) :
    Counts (putLength sub parent mem w endfirst) :=
  counts_patchLength.ite (counts_putDerLength.ite counts_ok)

/-- `WPACKET_fill_lengths` does not abandon anything. -/
theorem counts_internClose : Counts fun p => p.internClose mem sub parent false := by
  simp only [WPacket.internClose, WPacket.closeLength, Bool.false_eq_true, and_false, if_false,
    Bool.not_false, if_true]
  exact Counts.of_written (k := fun w endfirst p =>
    if sizeSub w sub.pwritten = 0 ∧ sub.flags.nonZeroLength then (p, false)
    else if sizeSub w sub.pwritten = 0 ∧ sub.flags.abandonOnZeroLength then (p, false)
    else putLength sub parent mem w endfirst p)
    fun w endfirst => counts_fail.ite (counts_fail.ite (counts_putLength w endfirst))

theorem counts_fillSubs (subs : List WPacketSub) : Counts (fillSubs mem subs) := by
  induction subs with
  | nil => exact counts_ok
  | cons sub subs ih =>
    exact Counts.andThen (f := fun p => p.internClose mem sub (!subs.isEmpty) false)
      counts_internClose ih

/-- The length fields of the open sub-packets were allocated. -/
def LengthsInside (p : WPacket) : Prop :=
  ∀ sub ∈ p.subs, sub.lenbytes ≤ sub.pwritten ∧ sub.pwritten < 2 ^ 64

/-- The length field of an abandoned sub-packet is given back. -/
def givenBack (p : WPacket) (sub : WPacketSub) : WPacket :=
  if sizeSub p.curr sub.lenbytes = sub.packetLen then
    { p.record .released (p.getCurr.map fun _ => sub.packetLen) sub.lenbytes with
      written := sizeSub p.written sub.lenbytes
      curr := sizeSub p.curr sub.lenbytes }
  else p

theorem subs_givenBack (p : WPacket) (sub : WPacketSub) : (p.givenBack sub).subs = p.subs := by
  rw [givenBack]
  split <;> rfl

/-- A sub-packet whose flags allow it is closed. -/
theorem closeLength_of_flags (p : WPacket) (h : ¬(n = 0 ∧ sub.flags.nonZeroLength = true)) :
    p.closeLength mem sub parent true n =
      if n = 0 ∧ sub.flags.abandonOnZeroLength then (p.givenBack sub, true)
      else if 0 < sub.lenbytes then p.patchLength sub n
      else if p.endfirst ∧ parent then p.putDerLength mem n
      else (p, true) := by
  rw [closeLength.eq_def, if_neg h]
  by_cases habandon : n = 0 ∧ sub.flags.abandonOnZeroLength = true
  · rw [if_pos habandon, if_pos habandon, givenBack]
    simp only [Bool.not_true, Bool.false_eq_true, if_false]
    split <;> rfl
  · rw [if_neg habandon, if_neg habandon]

theorem Sim.givenBack (h : Sim N p q) (hle : sub.lenbytes ≤ p.written) :
    Sim N (p.givenBack sub) (q.givenBack sub) := by
  obtain ⟨⟨hstatic, hwritten, hlt⟩, b, l, rs, hb, hmin, hlimit, hl, rfl⟩ := h
  have hsub : sizeSub p.written sub.lenbytes = p.written - sub.lenbytes :=
    sizeSub_of_le hle (by omega)
  simp only [WPacket.givenBack, onto, hsub]
  split
  · exact ⟨⟨hstatic, (Nat.sub_le ..).trans hwritten, hlt⟩, b, l, _, hb, hmin,
      (Nat.sub_le ..).trans hlimit, hl, rfl⟩
  · exact ⟨⟨hstatic, hwritten, hlt⟩, b, l, rs, hb, hmin, hlimit, hl, rfl⟩

/-- Writing the length in front keeps the simulation. -/
theorem Sim.closeLength (h : Sim N p q) (hlen : sub.lenbytes ≤ sub.pwritten ∧ sub.pwritten < 2 ^ 64)
    (hn : sizeSub p.written sub.pwritten = n) (hok : (p.closeLength mem sub parent true n).2 = true)
    (hN : (p.closeLength mem sub parent true n).1.written ≤ N) :
    (p.closeLength mem sub parent true n).1.subs = p.subs ∧
    (q.closeLength mem sub parent true n).2 = true ∧
      Sim N (p.closeLength mem sub parent true n).1 (q.closeLength mem sub parent true n).1 := by
  have hnonzero : ¬(n = 0 ∧ sub.flags.nonZeroLength = true) := by
    intro hfail
    rw [WPacket.closeLength.eq_def, if_pos hfail] at hok
    cases hok
  rw [closeLength_of_flags p hnonzero] at hok hN ⊢
  rw [closeLength_of_flags q hnonzero]
  by_cases habandon : n = 0 ∧ sub.flags.abandonOnZeroLength = true
  · -- nothing was written into the sub-packet
    have heq : p.written = sub.pwritten := by
      have hle := h.written_le
      have hlt := h.maxsize_lt
      rw [habandon.1, sizeSub] at hn
      omega
    simp only [if_pos habandon]
    exact ⟨subs_givenBack p sub, trivial, h.givenBack (heq ▸ hlen.1)⟩
  · rw [if_neg habandon] at hok hN
    rw [if_neg habandon, if_neg habandon]
    have hcounts := @counts_putLength mem sub parent p.written p.endfirst p h.toStatic
    simp only [putLength, hn] at hcounts
    obtain ⟨-, hsubs, -, hsim⟩ := hcounts hok
    rw [h.fields.2.2]
    exact ⟨hsubs, hsim N q h hN⟩

/-- The innermost sub-packet is taken off. -/
def popped (p : WPacket) : WPacket := { p with subs := p.subs.tail }

theorem written_popped (p : WPacket) : p.popped.written = p.written := rfl

theorem lengthsInside_popped (h : p.LengthsInside) : p.popped.LengthsInside := fun sub hsub =>
  h sub (List.mem_of_mem_tail hsub)

theorem internClose_true (p : WPacket) : p.internClose mem sub parent true =
    if (p.closeLength mem sub parent true (sizeSub p.written sub.pwritten)).2 then
      ((p.closeLength mem sub parent true (sizeSub p.written sub.pwritten)).1.popped, true)
    else p.closeLength mem sub parent true (sizeSub p.written sub.pwritten) := by
  rw [WPacket.internClose]
  cases (p.closeLength mem sub parent true (sizeSub p.written sub.pwritten)).2 <;> rfl

theorem Sim.internClose (h : Sim N p q) (hlens : p.LengthsInside) (hsub : sub ∈ p.subs)
    (hok : (p.internClose mem sub parent true).2 = true)
    (hN : (p.internClose mem sub parent true).1.written ≤ N) :
    (q.internClose mem sub parent true).2 = true ∧
      Sim N (p.internClose mem sub parent true).1 (q.internClose mem sub parent true).1 ∧
      (p.internClose mem sub parent true).1.LengthsInside := by
  rw [internClose_true p] at hok hN ⊢
  rw [internClose_true q, h.written]
  split_ifs at hok with hclosed
  · rw [if_pos hclosed, written_popped] at hN
    rw [if_pos hclosed]
    obtain ⟨hsubs, hclosed', hsim⟩ := h.closeLength (hlens sub hsub) rfl hclosed hN
    rw [if_pos hclosed']
    refine ⟨rfl, hsim.withSubs List.tail, lengthsInside_popped ?_⟩
    rwa [LengthsInside, hsubs]
  · exact absurd hok hclosed

/-! ### Runs -/

/-- What the second packet has to have room for in a call of the first one. -/
def need (p : WPacket) (op : Bool × WPacketOp) : Nat :=
  match op.2 with
  | .reserveBytes len => p.written + len
  | _ => (step p op).1.written

/-- What a sequence of calls has to have room for. -/
def peak : WPacket → List (Bool × WPacketOp) → Nat
  | p, [] => p.written
  | p, op :: ops => max (p.need op) (peak (step p op).1 ops)

/-- A call that the second packet can make when the first one can. -/
def Follows (f : WPacket → WPacket × Bool) : Prop :=
  ∀ ⦃N p q⦄, Sim N p q → p.LengthsInside → (f p).2 = true → (f p).1.written ≤ N →
    (f q).2 = true ∧ Sim N (f p).1 (f q).1 ∧ (f p).1.LengthsInside

theorem Counts.follows (hf : Counts f) : Follows f := by
  intro N p q h hlens hok hN
  obtain ⟨-, hsubs, -, hsim⟩ := hf p h.toStatic hok
  obtain ⟨hok', hs⟩ := hsim N q h hN
  exact ⟨hok', hs, by rwa [LengthsInside, hsubs]⟩

/-- A sub-packet is opened. -/
def pushed (p : WPacket) (sub : WPacketSub) : WPacket := { p with subs := sub :: p.subs }

/-- The sub-packet that `WPACKET_start_sub_packet_len__` opens. -/
def newSub (p : WPacket) (lenbytes : Nat) : WPacketSub :=
  ⟨if lenbytes = 0 then 0 else p.written, lenbytes, (p.written + lenbytes) % 2 ^ 64, ⟨false, false⟩⟩

theorem startSubPacketLen_eq (p : WPacket) : p.startSubPacketLen mem n =
    if p.subs = [] ∨ 0 < n ∧ p.endfirst ∨ mem = false then (p, false)
    else if n = 0 then (p.pushed (p.newSub n), true)
    else (p.pushed (p.newSub n)).allocateBytes mem n := by
  rw [WPacket.startSubPacketLen]
  by_cases hsubs : p.subs = []
  · simp [hsubs]
  by_cases hend : 0 < n ∧ p.endfirst = true
  · simp [hend]
  cases mem with
  | false => simp
  | true =>
    simp only [hsubs, hend, Bool.not_true, Bool.false_eq_true, Bool.true_eq_false, if_false,
      or_self]
    rfl

/-- A new sub-packet needs the bytes of its length. -/
theorem follows_startSubPacketLen : Follows fun p => p.startSubPacketLen mem n := by
  intro N p q h hlens hok hN
  have hnew : q.newSub n = p.newSub n := by rw [newSub, newSub, h.written]
  have hlt : (p.written + n) % 2 ^ 64 < 2 ^ 64 := Nat.mod_lt _ (by decide)
  have hs : Sim N (p.pushed (p.newSub n)) (q.pushed (p.newSub n)) :=
    h.withSubs (p.newSub n :: ·)
  simp only [startSubPacketLen_eq, h.subs, h.fields.2.2, hnew] at hok hN ⊢
  split at hok
  · cases hok
  rename_i hopen
  rw [if_neg hopen] at hN
  rw [if_neg hopen, if_neg hopen]
  split_ifs at hok with hzero
  · rw [if_pos hzero, if_pos hzero]
    exact ⟨rfl, hs, List.forall_mem_cons.2 ⟨⟨hzero.trans_le (Nat.zero_le _), hlt⟩, hlens⟩⟩
  rw [if_neg hzero] at hN
  rw [if_neg hzero, if_neg hzero]
  obtain ⟨hstatic, hsubs, -, hsim⟩ := @counts_allocateBytes mem n _ hs.toStatic hok
  obtain ⟨hok', hs'⟩ := hsim N _ hs hN
  have hwritten := hs.toStatic.written_allocateBytes hok
  have hfit : p.written + n < 2 ^ 64 :=
    (hwritten.ge.trans hstatic.written_le).trans_lt hstatic.maxsize_lt
  have hle : n ≤ (p.written + n) % 2 ^ 64 := by
    rw [Nat.mod_eq_of_lt hfit]
    exact Nat.le_add_left ..
  refine ⟨hok', hs', ?_⟩
  rw [LengthsInside, hsubs]
  exact List.forall_mem_cons.2 ⟨⟨hle, hlt⟩, hlens⟩

theorem follows_setFlags {flags : WPacketFlags} : Follows fun p => p.setFlags flags := by
  intro N p q h hlens hok _
  simp only [WPacket.setFlags.eq_def, h.subs] at hok ⊢
  cases hs : p.subs with
  | nil =>
    rw [hs] at hok
    cases hok
  | cons sub subs =>
    rw [LengthsInside, hs] at hlens
    exact ⟨rfl, h.withSubs fun _ => { sub with flags := flags } :: subs,
      List.forall_mem_cons.2 (List.forall_mem_cons.1 hlens)⟩

theorem maxmaxsize_le (lenbytes : Nat) : maxmaxsize lenbytes ≤ sizeMax := by
  rw [maxmaxsize]
  split
  · exact Nat.le_refl _
  · have hpow : 256 ^ lenbytes ≤ 256 ^ 7 := Nat.pow_le_pow_right (by decide) (by omega)
    rw [sizeMax]
    omega

theorem follows_setMaxSize : Follows fun p => p.setMaxSize n := by
  intro N p q h hlens hok _
  simp only [WPacket.setMaxSize.eq_def, h.subs, h.written] at hok ⊢
  cases hs : p.subs.getLast? with
  | none =>
    rw [hs] at hok
    cases hok
  | some sub =>
    rw [hs] at hok
    dsimp only at hok ⊢
    have hle := maxmaxsize_le (if sub.lenbytes = 0 then 8 else sub.lenbytes)
    generalize maxmaxsize (if sub.lenbytes = 0 then 8 else sub.lenbytes) = max at hok hle ⊢
    split at hok
    · cases hok
    rename_i hmax
    rw [if_neg hmax, if_neg hmax]
    have hn : n < 2 ^ 64 := by
      rw [sizeMax] at hle
      omega
    have hwritten : p.written ≤ n := by omega
    obtain ⟨hstatic, b, l, rs, hb, -, -, -, rfl⟩ := h
    exact ⟨rfl, ⟨⟨hstatic.static, hwritten, hn⟩, b, n, rs, hb, Nat.min_le_left .., hwritten, hn,
      rfl⟩, hlens⟩

/-- The peak is room enough for every call. -/
theorem along_need (p : WPacket) (ops : List (Bool × WPacketOp)) (hN : p.peak ops ≤ N) :
    Along step (fun p op => p.need op ≤ N) p ops := by
  induction ops generalizing p with
  | nil => trivial
  | cons op ops ih =>
    exact ⟨(le_max_left ..).trans hN, ih _ ((le_max_right ..).trans hN)⟩

theorem Static.sim (h : Static p) (N : Nat) : Sim N p p :=
  ⟨h, p.buffer, p.maxsize, p.regions, by simp [h.static], Nat.min_le_left .., h.written_le,
    h.maxsize_lt, rfl⟩

section

variable (hlens : p.LengthsInside)
include hlens

/-- A call that succeeds on the null packet succeeds on one with enough room. -/
theorem Sim.step_ok (h : Sim N p q) (hok : (WPacketOp.step p op).2 = true) (hN : p.need op ≤ N) :
    (WPacketOp.step q op).2 = true ∧ Sim N (WPacketOp.step p op).1 (WPacketOp.step q op).1 ∧
      (WPacketOp.step p op).1.LengthsInside := by
  obtain ⟨mem, op⟩ := op
  cases op with
  | allocateBytes n => exact (@counts_allocateBytes mem n).follows h hlens hok hN
  | reserveBytes n =>
    simp only [WPacketOp.step, WPacket.reserveBytes] at hok ⊢
    cases hr : p.reserve mem n with
    | none =>
      rw [hr] at hok
      cases hok
    | some r =>
      obtain ⟨rfl, -⟩ := h.room hr
      obtain ⟨-, off', hr'⟩ := h.reserve hr hN
      rw [hr']
      exact ⟨rfl, h.congr (sameCounts_record ..) (sameCounts_record ..), hlens⟩
  | putBytes v n => exact (@counts_putBytes mem n v).follows h hlens hok hN
  | memcpy src => exact (@counts_memcpy mem src).follows h hlens hok hN
  | memset ch n => exact (@counts_memcpy mem (.replicate n ch)).follows h hlens hok hN
  | startSubPacketLen n => exact follows_startSubPacketLen h hlens hok hN
  | close | finish =>
    simp only [WPacketOp.step, need, WPacket.close.eq_def, WPacket.finish.eq_def] at hok hN ⊢
    rw [h.subs]
    split at hok
    · have hs := ‹p.subs = _›
      rw [hs] at hN
      exact h.internClose hlens (hs ▸ List.mem_cons_self) hok hN
    all_goals cases hok
  | setFlags flags => exact follows_setFlags h hlens hok hN
  | setMaxSize n => exact follows_setMaxSize h hlens hok hN
  | fillLengths =>
    simp only [WPacketOp.step, need, WPacket.fillLengths] at hok hN ⊢
    rw [h.subs]
    split at hok
    · cases hok
    · rename_i hs
      rw [if_neg hs] at hN
      rw [if_neg hs, if_neg hs]
      exact (counts_fillSubs p.subs).follows h hlens hok hN

/-- A call that succeeds has the room it needs. -/
theorem Static.need_lt (h : Static p) (hok : (step p op).2 = true) : p.need op < 2 ^ 64 := by
  have hnext := ((h.sim (p.need op)).step_ok hlens hok (Nat.le_refl _)).2.1.toStatic
  have hle := hnext.written_le.trans_lt hnext.maxsize_lt
  obtain ⟨mem, op⟩ := op
  cases op with
  | reserveBytes n =>
    simp only [step, WPacket.reserveBytes] at hok
    cases hr : p.reserve mem n with
    | none =>
      rw [hr] at hok
      cases hok
    | some r => exact (h.room hr).2.2.2.1.trans_lt h.maxsize_lt
  | _ => exact hle

theorem Sim.need_eq (h : Sim N p q) (hok : (step p op).2 = true) (hN : p.need op ≤ N) :
    q.need op = p.need op := by
  have hnext := (h.step_ok hlens hok hN).2.1.written
  obtain ⟨mem, op⟩ := op
  cases op with
  | reserveBytes n => exact congrArg (· + n) h.written
  | _ => exact hnext

/-- Every call succeeds. -/
abbrev Succeeds (p : WPacket) (ops : List (Bool × WPacketOp)) : Prop :=
  Along step (fun p op => (step p op).2 = true) p ops

theorem Static.step_ok (h : Static p) (hok : (WPacketOp.step p op).2 = true) :
    Static (WPacketOp.step p op).1 ∧ (WPacketOp.step p op).1.LengthsInside := by
  have hnext := (h.sim (p.need op)).step_ok hlens hok (Nat.le_refl _)
  exact ⟨hnext.2.1.toStatic, hnext.2.2⟩

theorem Static.peak_lt (h : Static p) (hok : Succeeds p ops) : p.peak ops < 2 ^ 64 := by
  induction ops generalizing p with
  | nil => exact h.written_le.trans_lt h.maxsize_lt
  | cons op ops ih =>
    obtain ⟨hs, hl⟩ := h.step_ok hlens hok.1
    exact max_lt (h.need_lt hlens hok.1) (ih hl hs hok.2)

theorem Sim.run (h : Sim N p q) (hok : Succeeds p ops) (hN : p.peak ops ≤ N) :
    (∀ x ∈ (run step q ops).2, x.2 = true) ∧ Sim N (run step p ops).1 (run step q ops).1 := by
  have hstep : ∀ (p q : WPacket) (op : Bool × WPacketOp), Sim N p q ∧ p.LengthsInside →
      (step p op).2 = true ∧ p.need op ≤ N →
      (step q op).2 = true ∧ Sim N (step p op).1 (step q op).1 ∧ (step p op).1.LengthsInside :=
    fun p q op hpq hP => hpq.1.step_ok hpq.2 hP.1 hP.2
  obtain ⟨houts, hsim, -⟩ := run_simulation (fun p q => Sim N p q ∧ p.LengthsInside) _ (· = true)
    hstep (hok.and (along_need p ops hN)) ⟨h, hlens⟩
  exact ⟨houts, hsim⟩

theorem Sim.peak_eq (h : Sim N p q) (hok : Succeeds p ops) (hN : p.peak ops ≤ N) :
    q.peak ops = p.peak ops := by
  induction ops generalizing p q with
  | nil => exact h.written
  | cons op ops ih =>
    have hneed := (le_max_left ..).trans hN
    obtain ⟨-, hs, hl⟩ := h.step_ok hlens hok.1 hneed
    rw [peak, peak, h.need_eq hlens hok.1 hneed, ih hl hs hok.2 ((le_max_right ..).trans hN)]

end

theorem Sim.getLength (h : Sim N p q) : q.getLength = p.getLength := by
  rw [WPacket.getLength.eq_def, WPacket.getLength.eq_def, h.subs, h.written]

/-- A packet over a fixed buffer, in normal mode or written from its end. -/
def initReal (der mem : Bool) (buf : Bytes) : WPacket × Bool :=
  if der then initDer mem buf else initStaticLen mem buf 0

/-- The packet that only counts, of the same mode. -/
def initCount (der mem : Bool) : WPacket × Bool := if der then initNullDer mem else initNull mem 0

/-- A packet before the first call. -/
def fresh (der : Bool) (buffer : PacketBuffer) (maxsize : Nat) : WPacket :=
  ⟨buffer, 0, 0, maxsize, [⟨0, 0, 0, ⟨false, false⟩⟩], der, []⟩

theorem initReal_eq {mem : Bool} (hlen : buf.length < 2 ^ 64)
    (hinit : (initReal der mem buf).2 = true) :
    mem = true ∧ (initReal der mem buf).1 = fresh der (.static buf) buf.length := by
  have hmax : ¬maxmaxsize 0 < buf.length := by
    rw [maxmaxsize, if_pos (.inr rfl), sizeMax]
    omega
  by_cases hbuf : buf = []
  · cases der <;> simp [initReal, initDer, initStaticLen, hbuf] at hinit
  cases mem with
  | false => cases der <;> simp [initReal, initDer, initStaticLen, internInitLen, hbuf] at hinit
  | true =>
    refine ⟨rfl, ?_⟩
    cases der with
    | false =>
      simp only [initReal, Bool.false_eq_true, if_false, initStaticLen, hbuf, hmax]
      rfl
    | true =>
      simp only [initReal, if_true, initDer, hbuf, if_false]
      rfl

theorem initReal_ok (hbuf : buf ≠ []) : (initReal der true buf).2 = true := by
  cases der <;> simp [initReal, initDer, initStaticLen, internInitLen, hbuf]

theorem initCount_eq (der : Bool) : initCount der true = (fresh der .null sizeMax, true) := by
  cases der <;> rfl

/-- A fresh packet over a buffer is followed by a fresh one whose limit is high enough. -/
theorem sim_fresh {buffer : PacketBuffer} {maxsize : Nat} (hlen : buf.length < 2 ^ 64)
    (hbuffer : buffer.fixed ≠ none) (hmax : min buf.length N ≤ maxsize) (hlt : maxsize < 2 ^ 64) :
    Sim N (fresh der (.static buf) buf.length) (fresh der buffer maxsize) :=
  ⟨⟨rfl, Nat.zero_le _, hlen⟩, buffer, maxsize, [], hbuffer, hmax, Nat.zero_le _, hlt, rfl⟩

theorem lengthsInside_fresh (der : Bool) (buffer : PacketBuffer) (maxsize : Nat) :
    (fresh der buffer maxsize).LengthsInside := by
  intro sub hsub
  rw [List.mem_singleton.1 hsub]
  exact ⟨Nat.le_refl 0, by decide⟩

end WPacket

open WPacket Run

/-- When every call on a packet over a buffer succeeds, so does every call on the packet that only
counts, with the same total and the same length after each of them. A buffer as long as the largest
total that the counting packet reports, or reserves, is long enough for the same calls, and is full
when that is the total at the end. -/
theorem null_packet_counts {der mem : Bool} {buf : Bytes} {ops : List (Bool × WPacketOp)}
    (hlen : buf.length < 2 ^ 64) (hinit : (initReal der mem buf).2 = true)
    (hok : ∀ x ∈ (run WPacketOp.step (initReal der mem buf).1 ops).2, x.2 = true) :
    (initCount der mem).2 = true ∧
    (∀ x ∈ (run WPacketOp.step (initCount der mem).1 ops).2, x.2 = true) ∧
    (∀ pre post, ops = pre ++ post →
      (run WPacketOp.step (initCount der mem).1 pre).1.getTotalWritten =
        (run WPacketOp.step (initReal der mem buf).1 pre).1.getTotalWritten ∧
      (run WPacketOp.step (initCount der mem).1 pre).1.getLength =
        (run WPacketOp.step (initReal der mem buf).1 pre).1.getLength) ∧
    ∀ buf' : Bytes, buf' ≠ [] → buf'.length = (initCount der mem).1.peak ops →
      (initReal der mem buf').2 = true ∧
      (∀ x ∈ (run WPacketOp.step (initReal der mem buf').1 ops).2, x.2 = true) ∧
      (run WPacketOp.step (initReal der mem buf').1 ops).1.getTotalWritten =
        (run WPacketOp.step (initCount der mem).1 ops).1.getTotalWritten ∧
      ((run WPacketOp.step (initCount der mem).1 ops).1.getTotalWritten =
          (initCount der mem).1.peak ops →
        (run WPacketOp.step (initReal der mem buf').1 ops).1.getTotalWritten = buf'.length) := by
  obtain ⟨rfl, hreal⟩ := initReal_eq hlen hinit
  have hsucc := along_output (Q := (· = true)) hok
  rw [hreal] at hsucc ⊢
  rw [initCount_eq]
  have hsim : Sim sizeMax (fresh der (.static buf) buf.length) (fresh der .null sizeMax) :=
    sim_fresh hlen (by simp [PacketBuffer.fixed]) (Nat.min_le_right ..) (by decide)
  have hlens := lengthsInside_fresh der (.static buf) buf.length
  have hpeak : ∀ pre, Succeeds (fresh der (.static buf) buf.length) pre →
      (fresh der (.static buf) buf.length).peak pre ≤ sizeMax := fun pre hpre =>
    Nat.le_sub_one_of_lt (hsim.toStatic.peak_lt hlens hpre)
  obtain ⟨hcount, hlast⟩ := hsim.run hlens hsucc (hpeak ops hsucc)
  refine ⟨rfl, hcount, ?_, ?_⟩
  · rintro pre post rfl
    have hpre := hsucc.left
    obtain ⟨-, hmid⟩ := hsim.run hlens hpre (hpeak pre hpre)
    exact ⟨hmid.written, hmid.getLength⟩
  intro buf' hbuf' hlen'
  rw [hsim.peak_eq hlens hsucc (hpeak ops hsucc)] at hlen' ⊢
  have hlt : buf'.length < 2 ^ 64 := hlen'.trans_lt (hsim.toStatic.peak_lt hlens hsucc)
  have hinit' := @initReal_ok der buf' hbuf'
  obtain ⟨-, hreal'⟩ := initReal_eq hlt hinit'
  rw [hreal']
  have hsim' : Sim buf'.length (fresh der (.static buf) buf.length)
      (fresh der (.static buf') buf'.length) :=
    sim_fresh hlen (by simp [PacketBuffer.fixed]) (Nat.min_le_right ..) hlt
  obtain ⟨hsmall, hend⟩ := hsim'.run hlens hsucc hlen'.ge
  have htotal := hend.written.trans hlast.written.symm
  exact ⟨hinit', hsmall, htotal, fun heq => htotal.trans (heq.trans hlen'.symm)⟩

/-- A sequence and an integer in it, written from the end. -/
theorem null_packet_counts_der :
    let ops : List (Bool × WPacketOp) :=
      [(true, .startSubPacketLen 0), (true, .startSubPacketLen 0), (true, .putBytes 5 1),
        (true, .close), (true, .putBytes 2 1), (true, .close), (true, .putBytes 0x30 1),
        (true, .finish)]
    (run WPacketOp.step (initCount true true).1 ops).1.getTotalWritten = 5 ∧
    (∀ x ∈ (run WPacketOp.step (initCount true true).1 ops).2, x.2 = true) ∧
    (run WPacketOp.step (initReal true true [0, 0, 0, 0, 0]).1 ops).1.getTotalWritten = 5 := by
  intro ops
  obtain ⟨-, hcount, -, hexact⟩ := @null_packet_counts true true (List.replicate 8 0) ops
    (by decide) rfl (by decide)
  exact ⟨by decide, hcount, (hexact [0, 0, 0, 0, 0] nofun (by decide)).2.2.2 (by decide)⟩

/-- An abandoned sub-packet needs room that is given back: the counting packet reports one byte, two
are enough, one is not. -/
theorem null_packet_abandoned_needs_more :
    let ops : List (Bool × WPacketOp) :=
      [(true, .putBytes 7 1), (true, .startSubPacketLen 1), (true, .setFlags ⟨false, true⟩),
        (true, .close), (true, .finish)]
    (∀ x ∈ (run WPacketOp.step (initReal false true [0, 0]).1 ops).2, x.2 = true) ∧
    (run WPacketOp.step (initCount false true).1 ops).1.getTotalWritten = 1 ∧
    ¬∀ x ∈ (run WPacketOp.step (initReal false true [0]).1 ops).2, x.2 = true := by
  decide

end QuicTls
