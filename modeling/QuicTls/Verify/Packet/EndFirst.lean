import QuicTls.Theory.Der
import QuicTls.Crypto.DerWriter
import QuicTls.Verify.Packet.Write

/-!
# Writing from the end

What the functions do to a packet that is filled from its end. `EndFirst` says which bytes stand at
the end of the part in use; a call `Prepends` bytes when it puts them in front of these, and calls
compose in the opposite order of what they write.
-/

namespace QuicTls.WPacket

open List

variable {p : WPacket} {mem : Bool} {max len : Nat} {out src body bytes : Bytes}
  {subs : List WPacketSub} {r : WPacket × Bool} {f g : WPacketCall} {id : Nat}

/-- The packet is filled from the end and has written the bytes `out`. -/
structure EndFirst (p : WPacket) (max : Nat) (subs : List WPacketSub) (out : Bytes) :
    Prop where
  endfirst : p.endfirst = true
  maxsize : p.maxsize = max
  subs : p.subs = subs
  curr : p.curr = out.length
  written : p.written = out.length
  room : out.length ≤ max
  max_lt : max < 2 ^ 64
  buffer : p.buffer = .null ∨
    ∃ a b, p.buffer = .static (a ++ out ++ b) ∧ a.length + out.length = max

/-- A call has succeeded and left such a packet. -/
structure Reaches (r : WPacket × Bool) (max : Nat) (subs : List WPacketSub) (out : Bytes) :
    Prop where
  ok : r.2 = true
  endFirst : EndFirst r.1 max subs out

/-- The call puts the bytes in front of what was written, if there is room for them. -/
def Prepends (f : WPacketCall) (bytes : Bytes) : Prop :=
  ∀ ⦃p max subs out⦄, EndFirst p max subs out → subs ≠ [] → out.length + bytes.length ≤ max →
    Reaches (f p) max subs (bytes ++ out)

theorem andThen_of_ok (h : (f p).2 = true) : f.andThen g p = g (f p).1 := if_pos h

theorem andThen_of_fail (h : (f p).2 = false) : f.andThen g p = f p := if_neg (by simp [h])

theorem andThen_assoc (f g k : WPacketCall) :
    (f.andThen g).andThen k = f.andThen (g.andThen k) := by
  funext p
  cases hf : (f p).2 with
  | false =>
    rw [andThen_of_fail hf, andThen_of_fail, andThen_of_fail hf]
    rw [andThen_of_fail hf, hf]
  | true =>
    rw [andThen_of_ok hf, WPacketCall.andThen, andThen_of_ok hf]
    rfl

theorem Reaches.andThen {max' : Nat} {subs' : List WPacketSub} {out' : Bytes}
    (hf : Reaches (f p) max' subs' out')
    (hg : ∀ q, EndFirst q max' subs' out' → Reaches (g q) max subs out) :
    Reaches (f.andThen g p) max subs out := by
  rw [andThen_of_ok hf.ok]
  exact hg _ hf.endFirst

theorem prepends_skip : Prepends WPacketCall.skip [] := fun _ _ _ _ h _ _ => ⟨rfl, h⟩

theorem Prepends.andThen {bytes' : Bytes} (hf : Prepends f bytes) (hg : Prepends g bytes') :
    Prepends (f.andThen g) (bytes' ++ bytes) := by
  intro p max subs out h hsubs hroom
  rw [length_append] at hroom
  apply (hf h hsubs (by omega)).andThen
  intro q hq
  rw [append_assoc]
  exact hg hq hsubs (by rw [length_append]; omega)

/-- The bytes that were allocated are in front of the others; whatever is stored there comes
first. -/
theorem EndFirst.allocate (h : EndFirst p max subs out) (mem : Bool) (hsubs : subs ≠ [])
    (hlen : 0 < len) (hroom : out.length + len ≤ max) :
    ∃ p' off, p.allocate mem len = some (p', off) ∧
      ∀ src : Bytes, src.length = len → EndFirst (p'.store off src) max subs (src ++ out) := by
  have hgrow : p.grow mem len = some p := by
    obtain hb | ⟨a, b, hb, _⟩ := h.buffer <;> simp [grow, hb]
  have hfree : sizeSub p.maxsize p.written = max - out.length := by
    rw [h.maxsize, h.written, sizeSub_of_le h.room h.max_lt]
  have hcurr : sizeSub p.maxsize p.curr = max - out.length := by
    rw [h.maxsize, h.curr, sizeSub_of_le h.room h.max_lt]
  have hoff : sizeSub (max - out.length) len = max - out.length - len :=
    sizeSub_of_le (by omega) (by have := h.max_lt; omega)
  have hreserve : p.reserve mem len =
      some (p, if p.buffer.nonNull then some (max - out.length - len) else none) := by
    rw [reserve, if_neg (by simp [h.subs, hsubs, hlen.ne']), if_neg (by omega), hgrow,
      Option.map_some, getCurr]
    simp only [h.endfirst, if_true]
    split
    · rw [hcurr, Option.map_some, hoff]
    · rfl
  refine ⟨_, _, by rw [WPacket.allocate, hreserve, Option.map_some], fun src hsrc => ?_⟩
  have hbuffer : p.buffer = .null ∨
      ∃ a b, p.buffer.write (max - out.length - len) src = .static (a ++ (src ++ out) ++ b) ∧
        a.length + (src ++ out).length = max := by
    obtain hb | ⟨a, b, hb, hmax⟩ := h.buffer
    · exact .inl hb
    refine .inr ⟨a.take (max - out.length - len), b, ?_, ?_⟩
    · have hlen' : (a.take (max - out.length - len)).length = max - out.length - len := by
        rw [length_take]
        omega
      have hwrite := @overwrite_middle _ (a.take (max - out.length - len))
        (a.drop (max - out.length - len)) out src b (by rw [length_drop]; omega)
      rw [take_append_drop, hlen'] at hwrite
      rw [hb, PacketBuffer.write, hwrite, append_assoc _ src out]
    · rw [length_take, length_append]
      omega
  have hlength : (src ++ out).length = out.length + len := by
    rw [length_append]
    omega
  cases hnull : p.buffer.nonNull with
  | false =>
    have hb : p.buffer = .null := by
      obtain hb | ⟨a, b, hb, _⟩ := h.buffer
      · exact hb
      · rw [hb] at hnull
        cases hnull
    exact ⟨h.endfirst, h.maxsize, h.subs, by rw [hlength, ← h.curr]; rfl,
      by rw [hlength, ← h.written]; rfl, by omega, h.max_lt, .inl hb⟩
  | true =>
    refine ⟨h.endfirst, h.maxsize, h.subs, by rw [hlength, ← h.curr]; rfl,
      by rw [hlength, ← h.written]; rfl, by omega, h.max_lt, ?_⟩
    obtain hb | hb := hbuffer
    · rw [hb] at hnull
      cases hnull
    · exact .inr hb

theorem prepends_memcpy (src : Bytes) : Prepends (Der.memcpy mem src) src := by
  intro p max subs out h hsubs hroom
  rw [Der.memcpy, memcpy]
  split_ifs with hnil
  · rw [hnil]
    exact ⟨rfl, h⟩
  · obtain ⟨p', off, halloc, hstore⟩ := h.allocate mem hsubs (length_pos_iff.2 hnil) hroom
    rw [halloc]
    exact ⟨rfl, hstore src rfl⟩

theorem prepends_putBytes {v n : Nat} (hn : 0 < n) (hn8 : n ≤ 8) (hv : v < 256 ^ n) :
    Prepends (fun p => p.putBytes mem v n) (BigEndian.encode n v) := by
  intro p max subs out h hsubs hroom
  rw [BigEndian.length_encode] at hroom
  obtain ⟨p', off, halloc, hstore⟩ := h.allocate mem hsubs hn hroom
  have hput := hstore (BigEndian.encode n v) (BigEndian.length_encode n v)
  show Reaches (p.putBytes mem v n) max subs _
  rw [putBytes, if_neg (by omega), halloc]
  cases off with
  | none => exact ⟨rfl, hput⟩
  | some off => exact ⟨decide_eq_true hv, hput⟩

theorem prepends_putBytesU8 {v : Nat} (hv : v < 256) :
    Prepends (Der.putBytesU8 mem v) [UInt8.ofNat v] :=
  prepends_putBytes Nat.one_pos (by decide) hv

theorem numLenBytes_eq (n : Nat) : numLenBytes n = Nat.log 256 n + 1 := by
  rw [numLenBytes]
  split_ifs with hzero
  · rw [hzero, Nat.log_zero_right]
  have hle : 256 ^ (n.log2 / 8) ≤ n := by
    calc 256 ^ (n.log2 / 8) = 2 ^ (8 * (n.log2 / 8)) := by rw [Nat.pow_mul]
      _ ≤ 2 ^ n.log2 := Nat.pow_le_pow_right (by decide) (by omega)
      _ ≤ n := Nat.log2_self_le hzero
  have hlt : n < 256 ^ (n.log2 / 8 + 1) := by
    calc n < 2 ^ (n.log2 + 1) := Nat.lt_log2_self
      _ ≤ 2 ^ (8 * (n.log2 / 8 + 1)) := Nat.pow_le_pow_right (by decide) (by omega)
      _ = 256 ^ (n.log2 / 8 + 1) := by rw [Nat.pow_mul]
  rw [Nat.log_eq_of_pow_le_of_lt_pow hle hlt]

/-- The length is written in its shortest form. -/
theorem prepends_putDerLength {n : Nat} (hn : n < 2 ^ 64) :
    Prepends (fun p => p.putDerLength mem n) (derLength n) := by
  have hlog : Nat.log 256 n < 8 := Nat.log_lt_of_lt_pow' (by decide) (by omega)
  have hpow : n < 256 ^ (Nat.log 256 n + 1) := Nat.lt_pow_succ_log_self (by decide) n
  have hput : Prepends (fun p => p.putBytes mem n (numLenBytes n))
      (BigEndian.encode (Nat.log 256 n + 1) n) := by
    rw [numLenBytes_eq]
    exact prepends_putBytes (by omega) (by omega) hpow
  rw [derLength]
  split
  · have hlog0 : Nat.log 256 n = 0 := Nat.log_of_lt (by omega)
    rw [hlog0] at hput
    intro p max subs out h hsubs hroom
    have hr := hput h hsubs hroom
    show Reaches (p.putDerLength mem n) max subs _
    rw [putDerLength]
    rw [if_neg (by simp [hr.ok]), if_neg (by omega)]
    exact hr
  · have hor : (Nat.log 256 n + 1) ||| 0x80 = 0x80 + (Nat.log 256 n + 1) := by
      rw [Nat.or_comm]
      exact (Nat.two_pow_add_eq_or_of_lt (i := 7) (by omega) 1).symm
    have hoctet : Prepends (Der.putBytesU8 mem (0x80 + (Nat.log 256 n + 1))) _ :=
      prepends_putBytesU8 (by omega)
    intro p max subs out h hsubs hroom
    have hboth := hput.andThen hoctet h hsubs hroom
    have hok := (hput h hsubs (by simp at hroom ⊢; omega)).ok
    rw [andThen_of_ok hok] at hboth
    show Reaches (p.putDerLength mem n) max subs _
    rw [putDerLength]
    rw [if_neg (by simp [hok]), if_pos (by omega), numLenBytes_eq, hor]
    rw [numLenBytes_eq] at hboth
    exact hboth

/-- A sub-packet without a length field that starts after `out`. -/
def derSub (out : Bytes) : WPacketSub := ⟨0, 0, out.length, ⟨false, false⟩⟩

theorem EndFirst.startSubPacket (h : EndFirst p max subs out) (hsubs : subs ≠ []) :
    Reaches (Der.startSubPacket true p) max (derSub out :: subs) out := by
  have hwritten : (p.written + 0) % 2 ^ 64 = out.length := by
    rw [h.written]
    exact Nat.mod_eq_of_lt (Nat.lt_of_le_of_lt h.room h.max_lt)
  rw [Der.startSubPacket, startSubPacketLen, if_neg (by rw [h.subs]; exact hsubs), if_neg (by simp)]
  rw [hwritten, h.subs]
  exact ⟨rfl, h.endfirst, h.maxsize, rfl, h.curr, h.written, h.room, h.max_lt, h.buffer⟩

/-- Closing a sub-packet puts its length in front of it. -/
theorem EndFirst.close (h : EndFirst p max (derSub out :: subs) (body ++ out)) (hsubs : subs ≠ [])
    (hroom : (body ++ out).length + (derLength body.length).length ≤ max) :
    Reaches (Der.close mem p) max subs (derLength body.length ++ (body ++ out)) := by
  have hlt := Nat.lt_of_le_of_lt h.room h.max_lt
  have hpacklen : sizeSub p.written (derSub out).pwritten = body.length := by
    rw [h.written, derSub, sizeSub_of_le (by simp) hlt, length_append, Nat.add_sub_cancel]
  have hsize : body.length < 2 ^ 64 := by
    rw [length_append] at hlt
    omega
  have hput : Reaches (p.putDerLength mem body.length) max (derSub out :: subs) _ :=
    prepends_putDerLength hsize h (by simp) hroom
  obtain ⟨sub, rest, rfl⟩ := exists_cons_of_ne_nil hsubs
  have hlength : p.closeLength mem (derSub out) true true body.length =
      p.putDerLength mem body.length := by
    rw [closeLength, if_neg (by simp [derSub]), if_neg (by simp [derSub]),
      if_neg (by simp [derSub]), if_pos ⟨h.endfirst, rfl⟩]
  rw [Der.close, WPacket.close, h.subs]
  dsimp only
  rw [internClose, hpacklen, hlength]
  rw [if_pos ⟨hput.ok, rfl⟩]
  have hend := hput.endFirst
  refine ⟨rfl, hend.endfirst, hend.maxsize, ?_, hend.curr, hend.written, hend.room, hend.max_lt,
    hend.buffer⟩
  rw [hend.subs]
  rfl

/-- The call ends a sub-packet and makes an element with this identifier of what is in it. -/
def Closes (c : WPacketCall) (id : UInt8) : Prop :=
  ∀ ⦃p max subs out body⦄, EndFirst p max (derSub out :: subs) (body ++ out) → subs ≠ [] →
    out.length + (tlv id body).length ≤ max → Reaches (c p) max subs (tlv id body ++ out)

theorem length_tlv (id : UInt8) (body : Bytes) :
    (tlv id body).length = 1 + (derLength body.length).length + body.length := by
  rw [tlv, length_cons, length_append]
  omega

/-- The identifier of an element comes after its length. -/
theorem EndFirst.putId (hid : id < 256)
    (h : EndFirst p max subs (derLength body.length ++ (body ++ out))) (hsubs : subs ≠ [])
    (hroom : out.length + (tlv (UInt8.ofNat id) body).length ≤ max) :
    Reaches (Der.putBytesU8 mem id p) max subs (tlv (UInt8.ofNat id) body ++ out) := by
  have hput := @prepends_putBytesU8 mem id hid p max subs _ h hsubs
  rw [length_tlv] at hroom
  rw [length_append, length_append, length_singleton] at hput
  rw [tlv, cons_append, append_assoc]
  exact hput (by omega)

theorem closes_putBytesU8 (hid : id < 256) :
    Closes ((Der.close mem).andThen (Der.putBytesU8 mem id)) (UInt8.ofNat id) := by
  intro p max subs out body h hsubs hroom
  have hlen := length_tlv (UInt8.ofNat id) body
  apply (h.close hsubs (by rw [length_append]; omega)).andThen
  intro q hq
  exact hq.putId hid hsubs hroom

/-- The length of the sub-packet counts as something written. -/
theorem closes_closeSizes {same : WPacketCall} (hid : id < 256) :
    Closes (Der.closeSizes mem same (Der.putBytesU8 mem id)) (UInt8.ofNat id) := by
  intro p max subs out body h hsubs hroom
  have hpos := length_derLength_pos body.length
  have hlen := length_tlv (UInt8.ofNat id) body
  rw [Der.closeSizes]
  apply (h.close hsubs (by rw [length_append]; omega)).andThen
  intro q hq
  have hne : p.getTotalWritten ≠ q.getTotalWritten := by
    rw [getTotalWritten, getTotalWritten, h.written, hq.written]
    simp only [length_append]
    omega
  rw [if_neg hne]
  exact hq.putId hid hsubs hroom

theorem Closes.prepends {c : WPacketCall} {id : UInt8} (hc : Closes c id) (hf : Prepends f body) :
    Prepends ((Der.startSubPacket true).andThen (f.andThen c)) (tlv id body) := by
  intro p max subs out h hsubs hroom
  have hlen := length_tlv id body
  apply (h.startSubPacket hsubs).andThen
  intro q hq
  apply (hf hq (by simp) (by omega)).andThen
  intro q' hq'
  exact hc hq' hsubs hroom

theorem reaches_initDer (buf : Bytes) (hne : buf ≠ []) (hlen : buf.length < 2 ^ 64) :
    Reaches (initDer true buf) buf.length [derSub []] [] := by
  rw [initDer, if_neg hne]
  refine ⟨rfl, rfl, rfl, rfl, rfl, rfl, Nat.zero_le _, hlen, .inr ⟨buf, [], ?_, rfl⟩⟩
  rw [append_nil, append_nil]
  rfl

end QuicTls.WPacket
