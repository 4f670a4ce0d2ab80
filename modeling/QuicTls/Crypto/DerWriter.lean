import QuicTls.Crypto.Packet
import QuicTls.Crypto.Bn.Bytes

/-!
# The DER writer (crypto/der_writer.c)

The functions write into a packet that is filled from its end: the contents of an element first,
then its length and its identifier. A function is a chain of calls joined by `&&`, each of which
gets the packet that the one before has left. A negative tag means that there is none.
-/

namespace QuicTls

/-- A call on a packet, with what it returns. -/
abbrev WPacketCall := WPacket → WPacket × Bool

namespace WPacketCall

variable (f g : WPacketCall)

/-- The constant 1. -/
def skip : WPacketCall := fun p => (p, true)

/-- The constant 0. -/
def fail : WPacketCall := fun p => (p, false)

/-- `f && g` -/
def andThen : WPacketCall := fun p => if (f p).2 then g (f p).1 else f p

/-- `!f` -/
def not : WPacketCall := fun p => ((f p).1, !(f p).2)

end WPacketCall

namespace Der

open WPacketCall Bn

variable {w : Nat} (mem : Bool)

def derPBoolean : Nat := 1
def derPInteger : Nat := 2
def derPOctetString : Nat := 4
def derPNull : Nat := 5
def derPSequence : Nat := 16
def derFConstructed : Nat := 0x20
def derCContext : Nat := 0x80

def startSubPacket : WPacketCall := fun p => p.startSubPacketLen mem 0

def putBytesU8 (val : Nat) : WPacketCall := fun p => p.putBytes mem val 1

def memcpy (src : Bytes) : WPacketCall := fun p => p.memcpy mem src

def close : WPacketCall := fun p => p.close mem

def setFlags (flags : WPacketFlags) : WPacketCall := fun p => p.setFlags flags

/-- `WPACKET_close` between two calls of `WPACKET_get_total_written`, and what follows if the close
has written nothing, or something. -/
def closeSizes (same other : WPacketCall) : WPacketCall := fun p =>
  let size1 := p.getTotalWritten
  (close mem).andThen (fun p => if size1 = p.getTotalWritten then same p else other p) p

variable (tag : Int)

def intStartContext : WPacketCall :=
  if tag < 0 then skip else if 30 < tag then fail else startSubPacket mem

/-- `int_end_context`; nothing is written for a sub-packet that was abandoned -/
def intEndContext : WPacketCall :=
  if tag < 0 then skip
  else if 30 < tag then fail
  else closeSizes mem skip (putBytesU8 mem (tag.toNat ||| (derFConstructed ||| derCContext)))

def osslDerWPrecompiled (precompiled : Bytes) : WPacketCall :=
  (intStartContext mem tag).andThen <| (memcpy mem precompiled).andThen <| intEndContext mem tag

def osslDerWBoolean (tag b : Int) : WPacketCall :=
  (intStartContext mem tag).andThen <| (startSubPacket mem).andThen <|
    (if b = 0 then skip else putBytesU8 mem 0xff).andThen <| (close mem).not.andThen <|
      (putBytesU8 mem derPBoolean).not.andThen <| intEndContext mem tag

def osslDerWOctetString (data : Bytes) : WPacketCall :=
  (intStartContext mem tag).andThen <| (startSubPacket mem).andThen <| (memcpy mem data).andThen <|
    (close mem).andThen <| (putBytesU8 mem derPOctetString).andThen <| intEndContext mem tag

/-- The loop of `ossl_DER_w_octet_string_uint32`: the bytes from the least significant on go to the
end of the room that is left in `tmp`. -/
def fillBytes : Nat → Nat → Bytes → Bytes
  | 0, _, tmp => tmp
  | k + 1, value, tmp =>
    if 0 < value then fillBytes k (value >>> 8) (UInt8.ofNat (value &&& 0xff) :: tmp)
    else List.replicate (k + 1) 0 ++ tmp

def osslDerWOctetStringUint32 (value : UInt32) : WPacketCall :=
  osslDerWOctetString mem tag (fillBytes 4 value.toNat [])

/-- The bytes of an integer, with a zero in front if its top bit is set; `put_bytes` also says what
the top byte is. -/
def putInteger (putBytes : WPacket → (WPacket × Bool) × Nat) : WPacketCall := fun p =>
  let (r, topByte) := putBytes p
  if r.2 then (if topByte &&& 0x80 = 0 then skip else putBytesU8 mem 0) r.1 else r

def intDerWInteger (putBytes : WPacket → (WPacket × Bool) × Nat) : WPacketCall :=
  (intStartContext mem tag).andThen <| (startSubPacket mem).andThen <|
    (putInteger mem putBytes).andThen <| (close mem).andThen <|
      (putBytesU8 mem derPInteger).andThen <| intEndContext mem tag

/-- The loop of `int_put_bytes_uint32`: the number of bytes and the top byte. -/
def countBytes : Nat → Nat → Nat → Nat → Nat × Nat
  | 0, _, n, topByte => (n, topByte)
  | k + 1, tmp, n, topByte =>
    if tmp ≠ 0 then countBytes k (tmp >>> 8) (n + 1) (tmp &&& 0xff) else (n, topByte)

def intPutBytesUint32 (value : UInt32) (p : WPacket) : (WPacket × Bool) × Nat :=
  let (n, topByte) := countBytes 4 value.toNat 0 0
  (p.putBytes mem value.toNat (if n = 0 then 1 else n), topByte)

def osslDerWUint32 (v : UInt32) : WPacketCall :=
  intDerWInteger mem tag (intPutBytesUint32 mem v)

/-- `int_put_bytes_bn`; `spare` are the words that are allocated above those in use -/
def intPutBytesBn (v : Bignum w) (spare : Words w) (p : WPacket) : (WPacket × Bool) × Nat :=
  let n := bnNumBytes v
  let word := v.d.getD ((n - 1) / bnBytes w) 0#w
  let topByte := (word >>> (8 * ((n - 1) % bnBytes w))).toNat &&& 0xff
  match p.allocate mem n with
  | none => ((p, false), topByte)
  | some (p, off) => ((p.store off ((bnBn2bin v spare).getD []), true), topByte)

/-- `ossl_DER_w_bn`; there may be no number -/
def osslDerWBn (v : Option (Bignum w)) (spare : Words w) : WPacketCall :=
  match v with
  | none => fail
  | some v =>
    if v.neg then fail
    else if v.top = 0 then osslDerWUint32 mem tag 0
    else intDerWInteger mem tag (intPutBytesBn mem v spare)

def osslDerWNull : WPacketCall :=
  (intStartContext mem tag).andThen <| (startSubPacket mem).andThen <| (close mem).andThen <|
    (putBytesU8 mem derPNull).andThen <| intEndContext mem tag

def osslDerWBeginSequence : WPacketCall :=
  (intStartContext mem tag).andThen <| startSubPacket mem

/-- `ossl_DER_w_end_sequence`; a sequence that was abandoned passes the flag on to its context -/
def osslDerWEndSequence : WPacketCall :=
  (closeSizes mem (setFlags ⟨false, true⟩)
    (putBytesU8 mem (derFConstructed ||| derPSequence))).andThen <| intEndContext mem tag

end Der
end QuicTls
