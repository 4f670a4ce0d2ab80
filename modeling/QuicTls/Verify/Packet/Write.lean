import QuicTls.Crypto.Packet

/-!
# Writing in order

What the functions do to a packet that is written from its start: `Holds` says which bytes are in
its buffer.
-/

namespace QuicTls

open List

theorem sizeSub_of_le {a b : Nat} (h : b ≤ a) (ha : a < 2 ^ 64) : sizeSub a b = a - b := by
  unfold sizeSub
  omega

/-- The bytes of the buffer. -/
def PacketBuffer.data : PacketBuffer → Bytes
  | .null => []
  | .static data => data
  | .mem buf => buf.data

/-- The total up to which a growable buffer never reaches the limit of `BUF_MEM_grow`, since it
grows to at most twice what is needed. -/
def PacketBuffer.capacity : PacketBuffer → Nat
  | .null => sizeMax
  | .static data => data.length
  | .mem _ => BufMem.limitBeforeExpansion / 2

/-- Bytes in the middle of a list are replaced. -/
theorem overwrite_middle {α : Type} {a x b src rest : List α} (h : src.length = x.length) :
    ((a ++ x ++ b ++ rest).take a.length ++ src
        ++ (a ++ x ++ b ++ rest).drop (a.length + src.length)).take (a ++ x ++ b ++ rest).length
      = a ++ src ++ b ++ rest := by
  have hdrop : (a ++ x ++ b ++ rest).drop (a.length + src.length) = b ++ rest := by
    rw [h, ← length_append, append_assoc, drop_left]
  have htake : (a ++ x ++ b ++ rest).take a.length = a := by
    rw [append_assoc, append_assoc, take_left]
  rw [hdrop, htake, append_assoc (a ++ src), take_of_length_le]
  simp only [length_append]
  omega

namespace WPacket

variable {p : WPacket} {mem : Bool} {out x src body : Bytes} {len max cap : Nat}
  {subs : List WPacketSub} {r : WPacket × Bool} {post : WPacket → Prop}

/-- The packet has written the bytes `out`, from the start of its buffer. -/
structure Holds (p : WPacket) (out : Bytes) : Prop where
  normal : p.endfirst = false
  nonNull : p.buffer.nonNull = true
  written : p.written = out.length
  curr : p.curr = out.length
  le_maxsize : out.length ≤ p.maxsize
  maxsize_lt : p.maxsize < 2 ^ 64
  data : out <+: p.buffer.data
  data_lt : p.buffer.data.length < 2 ^ 64
  static : ∀ data, p.buffer = .static data → p.maxsize ≤ data.length

/-- The packet has written the bytes `out`, with this limit and these open sub-packets, and its
buffer can hold `cap` bytes. -/
structure Has (p : WPacket) (max cap : Nat) (subs : List WPacketSub) (out : Bytes) : Prop
    extends Holds p out where
  maxsize : p.maxsize = max
  capacity : p.buffer.capacity = cap
  subs : p.subs = subs

/-- A call has the effect `post` when it succeeds. It succeeds only if `ok` holds; that is enough
when its allocations succeed and there is the capacity for it. -/
structure Does (mem : Bool) (ok fits : Prop) (post : WPacket → Prop) (r : WPacket × Bool) :
    Prop where
  sound : r.2 = true → ok ∧ post r.1
  complete : mem = true → ok → fits → r.2 = true

theorem Does.imp {ok ok' fits fits' : Prop} (h : Does mem ok fits post r) (hok : ok ↔ ok')
    (hfits : fits' → fits) : Does mem ok' fits' post r where
  sound hr := ⟨hok.1 (h.sound hr).1, (h.sound hr).2⟩
  complete hmem hok' hfits' := h.complete hmem (hok.2 hok') (hfits hfits')

/-- Bytes in the middle of the packet are overwritten. -/
theorem Has.store {a b : Bytes} (h : Has p max cap subs (a ++ x ++ b))
    (hsrc : src.length = x.length) :
    Has (p.store (some a.length) src) max cap subs (a ++ src ++ b) := by
  have hlen : (a ++ x ++ b).length = (a ++ src ++ b).length := by
    simp only [length_append, hsrc]
  obtain ⟨rest, hrest⟩ := h.data
  have hdata := @overwrite_middle _ a x b src rest hsrc
  have hsize : (a ++ src ++ b ++ rest).length = p.buffer.data.length := by
    simp only [← hrest, length_append, hsrc]
  rw [hrest] at hdata
  have hbuf : (p.buffer.write a.length src).data = a ++ src ++ b ++ rest
      ∧ (p.buffer.write a.length src).nonNull = true
      ∧ (∀ data, p.buffer.write a.length src = .static data → p.maxsize ≤ data.length)
      ∧ (p.buffer.write a.length src).capacity = cap := by
    have hnull := h.nonNull
    have hstatic := h.static
    have hcap := h.capacity
    cases hb : p.buffer with
    | null =>
      rw [hb] at hnull
      cases hnull
    | static data =>
      rw [hb] at hdata hsize hcap
      have hwrite : (PacketBuffer.static data).write a.length src =
        .static (a ++ src ++ b ++ rest) := congrArg _ hdata
      rw [hwrite]
      refine ⟨rfl, rfl, ?_, hsize.trans hcap⟩
      rintro _ ⟨⟩
      exact hsize ▸ hstatic data hb
    | mem buf =>
      rw [hb] at hdata hcap
      exact ⟨hdata, rfl, nofun, hcap⟩
  obtain ⟨hdata, hnull, hstatic, hcap⟩ := hbuf
  exact { h with
    nonNull := hnull
    written := hlen ▸ h.written
    curr := hlen ▸ h.curr
    le_maxsize := hlen ▸ h.le_maxsize
    data := ⟨rest, hdata.symm⟩
    data_lt := (congrArg List.length hdata).trans hsize ▸ h.data_lt
    static := hstatic
    capacity := hcap }

theorem growLength_spec {w length : Nat} (hw : w ≤ length) (hl : length < 2 ^ 64)
    (hlen : w + len < 2 ^ 64) : w + len ≤ growLength length len ∧ length ≤ growLength length len
      ∧ growLength length len < 2 ^ 64 := by
  unfold growLength sizeMax defaultBufSize
  dsimp only
  split <;> split <;> try split
  all_goals omega

/-- Growing keeps the bytes and makes room. -/
theorem Has.grow (h : Has p max cap subs out) (hroom : out.length + len ≤ max) :
    (∀ p', p.grow mem len = some p' →
      Has p' max cap subs out ∧ out.length + len ≤ p'.buffer.data.length) ∧
    (mem = true → out.length + len ≤ cap → (p.grow mem len).isSome = true) := by
  have hmax := h.maxsize_lt
  have hcap := h.capacity
  rw [h.maxsize] at hmax
  rw [grow.eq_def]
  cases hb : p.buffer with
  | null =>
    have hnull := h.nonNull
    rw [hb] at hnull
    cases hnull
  | static data =>
    refine ⟨?_, fun _ _ => rfl⟩
    rintro _ ⟨⟩
    have hstatic := h.static data hb
    rw [h.maxsize] at hstatic
    rw [hb]
    exact ⟨h, hroom.trans hstatic⟩
  | mem buf =>
    have hdata := h.data
    have hlt := h.data_lt
    rw [hb] at hdata hlt hcap
    have hle : out.length ≤ buf.data.length := hdata.length_le
    dsimp only
    rw [h.written, sizeSub_of_le hle hlt]
    split
    · rename_i hshort
      constructor
      · intro p' hg
        split at hg
        · cases hg
        rename_i hret
        cases hg
        have hgrown := BufMem.data_bufMemGrow hret
        obtain ⟨hneed, hkeep, hsize⟩ := @growLength_spec len _ _ hle hlt (by omega)
        have hlength : (buf.bufMemGrow mem (growLength buf.data.length len)).1.data.length
            = growLength buf.data.length len := by
          rw [hgrown, length_append, length_take, length_replicate]
          omega
        have hprefix : out <+: (buf.bufMemGrow mem (growLength buf.data.length len)).1.data := by
          rw [hgrown, take_of_length_le hkeep]
          exact hdata.trans (prefix_append ..)
        exact ⟨{ h with
          nonNull := rfl, written := rfl, data := hprefix, data_lt := hlength.trans_lt hsize
          static := nofun, capacity := hcap }, hneed.trans hlength.ge⟩
      · rintro rfl hfits
        rw [← hcap] at hfits
        change _ ≤ BufMem.limitBeforeExpansion / 2 at hfits
        have hbounds : 0 < growLength buf.data.length len
            ∧ growLength buf.data.length len ≤ BufMem.limitBeforeExpansion := by
          unfold growLength sizeMax defaultBufSize BufMem.limitBeforeExpansion at *
          dsimp only
          split <;> split <;> try split
          all_goals omega
        rw [if_neg (BufMem.bufMemGrow_ne_zero hbounds.1 hbounds.2)]
        rfl
    · refine ⟨?_, fun _ _ => rfl⟩
      rintro _ ⟨⟩
      rw [hb]
      refine ⟨h, ?_⟩
      show _ ≤ buf.data.length
      omega

/-- The bytes that are allocated follow those written before; their values are what was in the
buffer. -/
theorem Has.allocate {k : WPacket → Option Nat → WPacket} {fail : WPacket}
    (h : Has p max cap subs out) (hsubs : subs ≠ []) (hpos : 0 < len)
    (hk : ∀ q x, x.length = len → Has q max cap subs (out ++ x) → post (k q (some out.length))) :
    Does mem (out.length + len ≤ max) (out.length + len ≤ cap) post
      (match p.allocate mem len with
        | none => (fail, false)
        | some (q, off) => (k q off, true)) := by
  have hne : ¬(p.subs = [] ∨ len = 0) := by
    rintro (hnil | hzero)
    · exact hsubs (h.subs.symm.trans hnil)
    · omega
  rw [WPacket.allocate, WPacket.reserve, if_neg hne, h.written,
    sizeSub_of_le h.le_maxsize h.maxsize_lt, h.maxsize]
  by_cases hroom : out.length + len ≤ max
  · obtain ⟨hgrow, hsome⟩ := @Has.grow _ mem _ _ _ _ _ h hroom
    rw [if_neg (by omega)]
    cases hg : p.grow mem len with
    | none =>
      rw [hg] at hsome
      exact ⟨nofun, fun hmem _ hfits => absurd (hsome hmem hfits) nofun⟩
    | some q =>
      refine ⟨fun _ => ⟨hroom, ?_⟩, fun _ _ _ => rfl⟩
      obtain ⟨hq, hdata⟩ := hgrow q hg
      obtain ⟨rest, hrest⟩ := hq.data
      have hx : (rest.take len).length = len := by
        rw [length_take]
        rw [← hrest, length_append] at hdata
        omega
      have hlen : (out ++ rest.take len).length = out.length + len := by rw [length_append, hx]
      have hoff : (q.getCurr.map fun off => if q.endfirst then sizeSub off len else off)
          = some out.length := by
        rw [getCurr, if_pos hq.nonNull, hq.normal, hq.curr]
        rfl
      simp only [Option.map_some, hoff]
      refine hk _ (rest.take len) hx { hq with
        written := ?_, curr := ?_, le_maxsize := ?_, data := ?_ }
      · rw [hlen, ← hq.written]
      · rw [hlen, ← hq.curr]
      · rw [hlen]
        exact hq.maxsize.symm ▸ hroom
      · show _ <+: q.buffer.data
        rw [← hrest]
        exact (prefix_append_right_inj out).mpr (List.take_prefix ..)
  · rw [if_pos (by omega)]
    exact ⟨nofun, fun _ hok => absurd hok hroom⟩

theorem Has.memcpy (h : Has p max cap subs out) (hsubs : subs ≠ []) :
    Does mem (out.length + src.length ≤ max) (out.length + src.length ≤ cap)
      (Has · max cap subs (out ++ src)) (p.memcpy mem src) := by
  rw [WPacket.memcpy]
  split_ifs with hsrc
  · subst hsrc
    rw [append_nil]
    exact ⟨fun _ => ⟨h.maxsize ▸ h.le_maxsize, h⟩, fun _ _ _ => rfl⟩
  apply h.allocate hsubs (length_pos_iff.mpr hsrc)
  intro q x hx hq
  rw [← append_nil (out ++ x)] at hq
  have hstore := hq.store hx.symm
  rwa [append_nil] at hstore

/-- A byte string of at most eight bytes may be put as a number. -/
theorem putBytes_decode (p : WPacket) (hsrc : src ≠ []) (hlen : src.length ≤ 8) :
    p.putBytes mem (BigEndian.decode src) src.length = p.memcpy mem src := by
  unfold WPacket.putBytes WPacket.memcpy
  rw [if_neg (by omega), if_neg hsrc]
  cases p.allocate mem src.length with
  | none => rfl
  | some r =>
    obtain ⟨q, off⟩ := r
    cases off with
    | none => rfl
    | some off =>
      show (q.store (some off) (BigEndian.encode src.length (BigEndian.decode src)), decide _) = _
      rw [BigEndian.encode_decode, decide_eq_true (BigEndian.decode_lt src)]

/-- The sub-packet that is started after the bytes `out`. -/
def subAt (out : Bytes) (lenbytes : Nat) (flags : WPacketFlags) : WPacketSub :=
  ⟨out.length, lenbytes, out.length + lenbytes, flags⟩

variable {sub : WPacketSub} {flags : WPacketFlags}

/-- What a sub-packet becomes when it is closed. -/
def closed (lenbytes : Nat) (flags : WPacketFlags) (body : Bytes) : Bytes :=
  if body = [] ∧ flags.abandonOnZeroLength = true then []
  else BigEndian.encode lenbytes body.length ++ body

/-- A sub-packet can be closed if its length fits, and if it is not empty when it must not be. -/
def Closable (lenbytes : Nat) (flags : WPacketFlags) (body : Bytes) : Prop :=
  (0 < lenbytes → body.length < 256 ^ lenbytes) ∧ (flags.nonZeroLength = true → body ≠ [])

theorem Has.packlen (h : Has p max cap subs (out ++ x ++ body)) :
    sizeSub p.written (subAt out x.length flags).pwritten = body.length := by
  have hle := h.le_maxsize
  have hlt := h.maxsize_lt
  rw [h.written, subAt]
  simp only [length_append] at hle ⊢
  rw [sizeSub_of_le (by omega) (by omega)]
  omega

theorem Has.patchLength (h : Has p max cap subs (out ++ x ++ body))
    (hlen : sub.lenbytes = x.length) (hoff : sub.packetLen = out.length) :
    Does mem (body.length < 256 ^ x.length) True
      (Has · max cap subs (out ++ BigEndian.encode x.length body.length ++ body))
      (p.patchLength sub body.length) := by
  have hrec : Has (p.record .patched (some out.length) x.length) max cap subs (out ++ x ++ body) :=
    { h with }
  rw [WPacket.patchLength, if_pos h.nonNull, hlen, hoff]
  exact ⟨fun hlt => ⟨of_decide_eq_true hlt, hrec.store (BigEndian.length_encode ..)⟩,
    fun _ hlt _ => decide_eq_true hlt⟩

/-- The sub-packet is abandoned: the bytes for its length are given back. -/
theorem Has.abandon (h : Has p max cap subs (out ++ x)) :
    sizeSub p.curr x.length = out.length ∧ ∀ rs, Has { p with
      written := sizeSub p.written x.length
      curr := sizeSub p.curr x.length
      regions := rs } max cap subs out := by
  have hle := h.le_maxsize
  have hlt := h.maxsize_lt
  rw [length_append] at hle
  have hback : sizeSub (out ++ x).length x.length = out.length := by
    rw [length_append, sizeSub_of_le (by omega) (by omega)]
    omega
  rw [h.curr, h.written, hback]
  refine ⟨rfl, fun rs => { h with written := rfl, curr := rfl, le_maxsize := ?_, data := ?_ }⟩
  · show out.length ≤ p.maxsize
    omega
  · exact (prefix_append out x).trans h.data

/-- The length of a sub-packet is written when it is closed. -/
theorem Has.closeLength (h : Has p max cap subs (out ++ x ++ body))
    (hlen : sub.lenbytes = x.length) (hoff : sub.packetLen = out.length) (parent : Bool) :
    Does mem (Closable x.length sub.flags body) True
      (Has · max cap subs (out ++ closed x.length sub.flags body))
      (p.closeLength mem sub parent true body.length) := by
  have hnil : body.length = 0 ↔ body = [] := length_eq_zero_iff
  rw [WPacket.closeLength, hlen, hoff]
  by_cases hzero : body.length = 0 ∧ sub.flags.nonZeroLength = true
  · rw [if_pos hzero]
    exact ⟨nofun, fun _ hc _ => absurd (hnil.mp hzero.1) (hc.2 hzero.2)⟩
  have hne : sub.flags.nonZeroLength = true → body ≠ [] := fun hf hb => hzero ⟨hnil.mpr hb, hf⟩
  rw [if_neg hzero]
  by_cases habandon : body.length = 0 ∧ sub.flags.abandonOnZeroLength = true
  · obtain ⟨hbody, hflag⟩ := habandon
    obtain rfl := hnil.mp hbody
    rw [append_nil] at h
    obtain ⟨hcurr, hback⟩ := h.abandon
    rw [if_pos ⟨hbody, hflag⟩, if_pos hcurr, closed, if_pos ⟨rfl, hflag⟩, append_nil]
    exact ⟨fun _ => ⟨⟨fun _ => Nat.pow_pos (by decide), hne⟩, hback _⟩, fun _ _ _ => rfl⟩
  · have hclosed : closed x.length sub.flags body
        = BigEndian.encode x.length body.length ++ body := by
      rw [closed, if_neg fun hc => habandon ⟨hnil.mpr hc.1, hc.2⟩]
    rw [if_neg habandon, hclosed, ← append_assoc]
    by_cases hpos : 0 < x.length
    · rw [if_pos hpos]
      exact (h.patchLength hlen hoff).imp ⟨fun hlt => ⟨fun _ => hlt, hne⟩, fun hc => hc.1 hpos⟩ id
    · obtain rfl : x = [] := length_eq_zero_iff.mp (by omega)
      rw [h.normal]
      exact ⟨fun _ => ⟨⟨nofun, hne⟩, h⟩, fun _ _ _ => rfl⟩

/-- `wpacket_intern_close` of a sub-packet that is written from its start. -/
theorem Has.internClose (h : Has p max cap (subAt out x.length flags :: subs) (out ++ x ++ body))
    (parent : Bool) :
    Does mem (Closable x.length flags body) True
      (Has · max cap subs (out ++ closed x.length flags body))
      (p.internClose mem (subAt out x.length flags) parent true) := by
  have hclose := @Has.closeLength _ mem _ _ _ _ _ _ (subAt out x.length flags) h rfl rfl parent
  rw [WPacket.internClose, h.packlen]
  generalize p.closeLength mem _ parent true body.length = r at hclose ⊢
  split_ifs with hr
  · obtain ⟨hok, hpost⟩ := hclose.sound hr.1
    exact ⟨fun _ => ⟨hok, { hpost with subs := congrArg List.tail hpost.subs }⟩, fun _ _ _ => rfl⟩
  · exact ⟨fun hok => absurd ⟨hok, rfl⟩ hr, hclose.complete⟩

end WPacket
end QuicTls
