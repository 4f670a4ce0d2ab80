import QuicTls.Theory.BigEndian
import QuicTls.Crypto.Buffer

/-!
# Packets (crypto/packet.c, include/internal/packet.h)

`WPacket` writes, `Packet` reads. The `size_t` values are natural numbers; where the code subtracts
without a check, `sizeSub` wraps around as it does. A pointer into the buffer is an offset, `none`
for the null pointer of a packet that only counts. The functions return the packet also when they
fail, since some of them have changed it by then.

`mem` says whether the allocations of a call succeed. The packet keeps a record of the regions of
the buffer that were handed out, filled in or given back. The QUIC variable-length flag is left out:
nothing reads it.
-/

namespace QuicTls

def sizeMax : Nat := 2 ^ 64 - 1

/-- The difference of two `size_t` values. -/
def sizeSub (a b : Nat) : Nat := (a + 2 ^ 64 - b) % 2 ^ 64

/-- The buffer of a packet: none, `staticbuf` or `buf`. -/
inductive PacketBuffer where
  | null
  | static (data : Bytes)
  | mem (buf : BufMem UInt8)

/-- `WPACKET_FLAGS_NON_ZERO_LENGTH` and `WPACKET_FLAGS_ABANDON_ON_ZERO_LENGTH` -/
structure WPacketFlags where
  nonZeroLength : Bool
  abandonOnZeroLength : Bool
  deriving DecidableEq, Repr

structure WPacketSub where
  packetLen : Nat
  lenbytes : Nat
  pwritten : Nat
  flags : WPacketFlags
  deriving DecidableEq, Repr

inductive RegionKind where
  | allocated
  | reserved
  /-- a length that is filled in -/
  | patched
  /-- the room for the length of an abandoned sub-packet, which is given back -/
  | released
  deriving DecidableEq, Repr

/-- A part of the buffer, and what it is. -/
structure Region where
  kind : RegionKind
  off : Nat
  len : Nat
  deriving DecidableEq, Repr

/-- `WPACKET`; the sub-packets from the innermost to the outermost. -/
structure WPacket where
  buffer : PacketBuffer
  curr : Nat
  written : Nat
  maxsize : Nat
  subs : List WPacketSub
  endfirst : Bool
  regions : List Region

namespace PacketBuffer

/-- `memcpy(buf + off, src, len)`, as far as it stays in the buffer. -/
def write (off : Nat) (src : Bytes) : PacketBuffer → PacketBuffer
  | null => null
  | static data => static ((data.take off ++ src ++ data.drop (off + src.length)).take data.length)
  | mem buf => mem (buf.write off src)

/-- `GETBUF(p) != NULL` -/
def nonNull : PacketBuffer → Bool
  | null => false
  | static _ | mem _ => true

end PacketBuffer

namespace WPacket

variable (p : WPacket) (mem : Bool)

/-! ### Space -/

def getCurr : Option Nat :=
  if p.buffer.nonNull then some (if p.endfirst then sizeSub p.maxsize p.curr else p.curr) else none

def defaultBufSize : Nat := 256

/-- The length to which a growable buffer grows. -/
def growLength (length len : Nat) : Nat :=
  let reflen := if length < len then len else length
  if sizeMax / 2 < reflen then sizeMax
  else if reflen * 2 < defaultBufSize then defaultBufSize
  else reflen * 2

/-- The part of `WPACKET_reserve_bytes` that makes a growable buffer large enough. -/
def grow (len : Nat) : Option WPacket :=
  match p.buffer with
  | .mem buf =>
    if sizeSub buf.data.length p.written < len then
      let r := buf.bufMemGrow mem (growLength buf.data.length len)
      if r.2 = 0 then none else some { p with buffer := .mem r.1 }
    else some p
  | .null | .static _ => some p

/-- `WPACKET_reserve_bytes`: where the bytes go, if there is room. -/
def reserve (len : Nat) : Option (WPacket × Option Nat) :=
  if p.subs = [] ∨ len = 0 then none
  else if sizeSub p.maxsize p.written < len then none
  else
    (p.grow mem len).map fun p =>
      (p, p.getCurr.map fun off => if p.endfirst then sizeSub off len else off)

/-- A region of the buffer is handed out, filled in or given back. -/
def record (kind : RegionKind) (off : Option Nat) (len : Nat) : WPacket :=
  { p with regions := p.regions ++ (off.map (⟨kind, ·, len⟩)).toList }

def reserveBytes (len : Nat) : WPacket × Bool :=
  match p.reserve mem len with
  | none => (p, false)
  | some (p, off) => (p.record .reserved off len, true)

/-- `WPACKET_allocate_bytes`: where the bytes are. -/
def allocate (len : Nat) : Option (WPacket × Option Nat) :=
  (p.reserve mem len).map fun (p, off) =>
    ({ p.record .allocated off len with written := p.written + len, curr := p.curr + len }, off)

def allocateBytes (len : Nat) : WPacket × Bool :=
  match p.allocate mem len with
  | none => (p, false)
  | some (p, _) => (p, true)

def maxmaxsize (lenbytes : Nat) : Nat :=
  if 8 ≤ lenbytes ∨ lenbytes = 0 then sizeMax else 256 ^ lenbytes - 1 + lenbytes

/-! ### Writing -/

/-- Store bytes at a pointer, unless it is null. -/
def store (off : Option Nat) (src : Bytes) : WPacket :=
  match off with
  | none => p
  | some off => { p with buffer := p.buffer.write off src }

def memcpy (src : Bytes) : WPacket × Bool :=
  if src = [] then (p, true)
  else
    match p.allocate mem src.length with
    | none => (p, false)
    | some (p, off) => (p.store off src, true)

def memset (ch : UInt8) (len : Nat) : WPacket × Bool := p.memcpy mem (List.replicate len ch)

/-- `put_value`: the value is stored also when it does not fit. -/
def putValue (off : Option Nat) (value len : Nat) : WPacket × Bool :=
  match off with
  | none => (p, true)
  | some off => (p.store (some off) (BigEndian.encode len value), value < 256 ^ len)

def putBytes (val size : Nat) : WPacket × Bool :=
  if 8 < size then (p, false)
  else
    match p.allocate mem size with
    | none => (p, false)
    | some (p, off) => p.putValue off val size

/-! ### Sub-packets -/

def setFlags (flags : WPacketFlags) : WPacket × Bool :=
  match p.subs with
  | [] => (p, false)
  | sub :: subs => ({ p with subs := { sub with flags := flags } :: subs }, true)

/-- `WPACKET_start_sub_packet_len__`; the sub-packet stays when there is no room for its length. -/
def startSubPacketLen (lenbytes : Nat) : WPacket × Bool :=
  if p.subs = [] then (p, false)
  else if 0 < lenbytes ∧ p.endfirst then (p, false)
  else if !mem then (p, false)
  else
    let sub : WPacketSub :=
      ⟨if lenbytes = 0 then 0 else p.written, lenbytes, (p.written + lenbytes) % 2 ^ 64,
        ⟨false, false⟩⟩
    let p := { p with subs := sub :: p.subs }
    if lenbytes = 0 then (p, true) else p.allocateBytes mem lenbytes

/-- The number of bytes of a DER length. -/
def numLenBytes (packlen : Nat) : Nat := if packlen = 0 then 1 else packlen.log2 / 8 + 1

/-- The length of a sub-packet that is written from its end. -/
def putDerLength (packlen : Nat) : WPacket × Bool :=
  let numlenbytes := numLenBytes packlen
  let r := p.putBytes mem packlen numlenbytes
  if !r.2 then r
  else if 0x7f < packlen then r.1.putBytes mem (numlenbytes ||| 0x80) 1
  else r

/-- The length field of a sub-packet is filled in. -/
def patchLength (sub : WPacketSub) (packlen : Nat) : WPacket × Bool :=
  if p.buffer.nonNull then
    (p.record .patched (some sub.packetLen) sub.lenbytes).putValue (some sub.packetLen) packlen
      sub.lenbytes
  else (p, true)

/-- What `wpacket_intern_close` does about the length of `sub`, which has a parent or not. -/
def closeLength (sub : WPacketSub) (parent doclose : Bool) (packlen : Nat) : WPacket × Bool :=
  if packlen = 0 ∧ sub.flags.nonZeroLength then (p, false)
  else if packlen = 0 ∧ sub.flags.abandonOnZeroLength then
    if !doclose then (p, false)
    -- the bytes for the length are given back
    else if sizeSub p.curr sub.lenbytes = sub.packetLen then
      ({ p.record .released (p.getCurr.map fun _ => sub.packetLen) sub.lenbytes with
        written := sizeSub p.written sub.lenbytes
        curr := sizeSub p.curr sub.lenbytes }, true)
    else (p, true)
  else if 0 < sub.lenbytes then p.patchLength sub packlen
  else if p.endfirst ∧ parent then p.putDerLength mem packlen
  else (p, true)

/-- `wpacket_intern_close` -/
def internClose (sub : WPacketSub) (parent doclose : Bool) : WPacket × Bool :=
  let r := p.closeLength mem sub parent doclose (sizeSub p.written sub.pwritten)
  if r.2 ∧ doclose then ({ r.1 with subs := r.1.subs.tail }, true) else r

/-- The loop of `WPACKET_fill_lengths`. -/
def fillSubs : List WPacketSub → WPacket → WPacket × Bool
  | [], p => (p, true)
  | sub :: subs, p =>
    let r := p.internClose mem sub (!subs.isEmpty) false
    if r.2 then fillSubs subs r.1 else r

def fillLengths : WPacket × Bool := if p.subs = [] then (p, false) else fillSubs mem p.subs p

def close : WPacket × Bool :=
  match p.subs with
  | sub :: _ :: _ => p.internClose mem sub true true
  | [] | [_] => (p, false)

def finish : WPacket × Bool :=
  match p.subs with
  | [sub] => p.internClose mem sub false true
  | [] | _ :: _ :: _ => (p, false)

def setMaxSize (maxsize : Nat) : WPacket × Bool :=
  match p.subs.getLast? with
  | none => (p, false)
  | some sub =>
    let lenbytes := if sub.lenbytes = 0 then 8 else sub.lenbytes
    if maxmaxsize lenbytes < maxsize ∨ maxsize < p.written then (p, false)
    else ({ p with maxsize := maxsize }, true)

/-! ### Starting -/

/-- `wpacket_intern_init_len`; the limit and the direction are set before. -/
def internInitLen (buffer : PacketBuffer) (maxsize : Nat) (endfirst : Bool) (lenbytes : Nat) :
    WPacket × Bool :=
  let p : WPacket := ⟨buffer, 0, 0, maxsize, [], endfirst, []⟩
  if !mem then (p, false)
  else
    let sub : WPacketSub := ⟨0, lenbytes, lenbytes, ⟨false, false⟩⟩
    let r := { p with subs := [sub] }
    if lenbytes = 0 then (r, true)
    else
      match r.allocate mem lenbytes with
      | none => ({ r with subs := [] }, false)
      | some (r, _) => (r, true)

def initStaticLen (buf : Bytes) (lenbytes : Nat) : WPacket × Bool :=
  let maxsize := if maxmaxsize lenbytes < buf.length then maxmaxsize lenbytes else buf.length
  if buf = [] then (⟨.static buf, 0, 0, 0, [], false, []⟩, false)
  else internInitLen mem (.static buf) maxsize false lenbytes

def initDer (buf : Bytes) : WPacket × Bool :=
  if buf = [] then (⟨.static buf, 0, 0, 0, [], true, []⟩, false)
  else internInitLen mem (.static buf) buf.length true 0

/-- `WPACKET_init_null`; the limit has room for a length, the packet has none. -/
def initNull (lenbytes : Nat) : WPacket × Bool :=
  internInitLen mem .null (maxmaxsize lenbytes) false 0

def initNullDer : WPacket × Bool := internInitLen mem .null sizeMax true 0

def initLen (buf : BufMem UInt8) (lenbytes : Nat) : WPacket × Bool :=
  internInitLen mem (.mem buf) (maxmaxsize lenbytes) false lenbytes

/-! ### Lengths -/

def getTotalWritten : Nat := p.written

def getLength : Option Nat :=
  match p.subs with
  | [] => none
  | sub :: _ => some (sizeSub p.written sub.pwritten)

end WPacket

/-! ### Reading -/

/-- `PACKET`: the bytes that remain. -/
abbrev Packet := Bytes

namespace Packet

variable (pkt : Packet)

def getBytes (len : Nat) : Option (Bytes × Packet) :=
  if pkt.length < len then none else some (pkt.take len, pkt.drop len)

/-- A number of `n` bytes in network order. -/
def getNet (n : Nat) : Option (Nat × Packet) :=
  if pkt.length < n then none else some (BigEndian.decode (pkt.take n), pkt.drop n)

/-- `PACKET_get_sub_packet`; `PACKET_buf_init` refuses a length above `SIZE_MAX / 2`. -/
def getSubPacket (len : Nat) : Option (Packet × Packet) :=
  if pkt.length < len then none
  else if sizeMax / 2 < len then none
  else some (pkt.take len, pkt.drop len)

/-- The sub-packet that a length of `n` bytes announces, and the rest. -/
def getLengthPrefixed (n : Nat) : Option (Packet × Packet) := do
  let (length, tmp) ← pkt.getNet n
  tmp.getBytes length

def getLengthPrefixed1 : Option (Packet × Packet) := pkt.getLengthPrefixed 1

def getLengthPrefixed2 : Option (Packet × Packet) := pkt.getLengthPrefixed 2

def getLengthPrefixed3 : Option (Packet × Packet) := pkt.getLengthPrefixed 3

def getNet4 : Option (Nat × Packet) := pkt.getNet 4

end Packet
end QuicTls
