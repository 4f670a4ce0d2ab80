import QuicTls.Crypto.Packet
import Mathlib.Data.Nat.Size

/-!
# Signatures of DSA and ECDSA (crypto/asn1_dsa.c)

A signature is a sequence of two integers. A packet that is written to has room, and its
sub-packets have no length of their own, so that a write appends bytes.
-/

namespace QuicTls.Asn1Dsa

def osslEncodeDerLength (contLen : Nat) : Option Bytes :=
  if contLen > 0xffff then none
  else if contLen > 0xff then some (0x82 :: BigEndian.encode 2 contLen)
  else some ((if contLen > 0x7f then [0x81] else []) ++ [UInt8.ofNat contLen])

def osslEncodeDerInteger (n : Int) : Option Bytes :=
  if n < 0 then none
  else
    let contLen := n.natAbs.size / 8 + 1
    (osslEncodeDerLength contLen).map fun length =>
      0x02 :: (length ++ BigEndian.encode contLen n.natAbs)

def osslEncodeDerDsaSig (r s : Int) : Option Bytes :=
  (osslEncodeDerInteger r).bind fun r => (osslEncodeDerInteger s).bind fun s =>
    (osslEncodeDerLength (r ++ s).length).map fun length => 0x30 :: (length ++ (r ++ s))

/-- The bytes of the announced length, and the rest. -/
def osslDecodeDerLength : Packet → Option (Packet × Packet)
  | [] => none
  | byte :: pkt =>
    if byte < 0x80 then Packet.getSubPacket pkt byte.toNat
    else if byte = 0x81 then Packet.getLengthPrefixed1 pkt
    else if byte = 0x82 then Packet.getLengthPrefixed2 pkt
    else none

/-- The peek at the first bytes of an integer. -/
def positive : Packet → Bool
  | [] => false
  | tmp :: tmppkt =>
    if tmp &&& 0x80 ≠ 0 then false
    else if tmp = 0 then
      match tmppkt with
      | [] => true
      | tmp :: _ => tmp &&& 0x80 ≠ 0
    else true

def osslDecodeDerInteger : Packet → Option (Nat × Packet)
  | [] => none
  | tag :: pkt =>
    if tag ≠ 0x02 then none
    else (osslDecodeDerLength pkt).bind fun (contpkt, pkt) =>
      if positive contpkt then some (BigEndian.decode contpkt, pkt) else none

/-- The two numbers and how many bytes were consumed. -/
def osslDecodeDerDsaSig (ppin : Bytes) : Option (Nat × Nat × Nat) :=
  if sizeMax / 2 < ppin.length then none
  else match ppin with
    | [] => none
    | tag :: pkt =>
      if tag ≠ 0x30 then none
      else (osslDecodeDerLength pkt).bind fun (contpkt, pkt) =>
        (osslDecodeDerInteger contpkt).bind fun (r, contpkt) =>
          (osslDecodeDerInteger contpkt).bind fun (s, contpkt) =>
            if contpkt ≠ [] then none else some (r, s, ppin.length - pkt.length)

end QuicTls.Asn1Dsa
