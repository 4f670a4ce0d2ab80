import QuicTls.Theory.BigEndian

/-!
# The anti-replay check of the DTLS record layer (ssl/record/methods/dtls_meth.c)

`DtlsRecordLayer.receive` is what `dtls_get_more_records` does with a record once it has read its
header and its body. What becomes of the contents of a record is left open: the event says whether
`dtls_process_record` authenticates it and whether `post_process_record` accepts it. The queue of
records of the next epoch is left out: it is only handed on to the next record layer.
-/

namespace QuicTls

/-- Eight bytes in network order, `SEQ_NUM_SIZE`. -/
abbrev SeqNum := Vector UInt8 8

def SeqNum.n2l8 (v : SeqNum) : BitVec 64 := BitVec.ofNat 64 (BigEndian.decode v.toList)

def satsub64be (v1 v2 : SeqNum) : Int :=
  let l1 := v1.n2l8
  let l2 := v2.n2l8
  let ret := (l1 - l2).toInt
  if l2 < l1 ∧ ret < 0 then 128
  else if l1 < l2 ∧ 0 < ret then -128
  else if 128 < ret then 128
  else if ret < -128 then -128
  else ret

structure DtlsBitmap where
  map : BitVec 64
  maxSeqNum : SeqNum
  deriving DecidableEq

namespace DtlsBitmap

/-- The bitmap of a new record layer. -/
def zero : DtlsBitmap := ⟨0, Vector.replicate 8 0⟩

variable (bitmap : DtlsBitmap) (seq : SeqNum)

def replayCheck : Bool :=
  let cmp := satsub64be seq bitmap.maxSeqNum
  if 0 < cmp then true
  else
    let shift := (-cmp).toNat
    if 64 ≤ shift then false
    else if bitmap.map &&& (1#64 <<< shift) ≠ 0 then false
    else true

/-- `dtls_record_bitmap_update` -/
def update : DtlsBitmap :=
  let cmp := satsub64be seq bitmap.maxSeqNum
  if 0 < cmp then
    let shift := cmp.toNat
    ⟨if shift < 64 then (bitmap.map <<< shift) ||| 1#64 else 1#64, seq⟩
  else
    let shift := (-cmp).toNat
    if shift < 64 then { bitmap with map := bitmap.map ||| (1#64 <<< shift) } else bitmap

end DtlsBitmap

/-- A record that was read, and what its contents turn out to be. -/
structure DtlsRecord where
  epoch : Nat
  sequence : SeqNum
  length : Nat
  /-- `dtls_process_record` succeeds. -/
  authentic : Bool
  /-- `dtls_process_record` raises an alert when it fails. -/
  alert : Bool
  /-- `post_process_record` succeeds. -/
  accepted : Bool

/-- What becomes of a record. -/
inductive DtlsOutcome where
  | wrongEpoch
  | replayed
  | empty
  | nextEpoch
  | discarded
  | fatal
  | success
  deriving DecidableEq, Repr

/-- The part of the record layer that the check uses. -/
structure DtlsRecordLayer where
  epoch : Nat
  bitmap : DtlsBitmap
  nextBitmap : DtlsBitmap

namespace DtlsRecordLayer

variable (rl : DtlsRecordLayer) (rr : DtlsRecord)

/-- `dtls_get_bitmap`, with `is_next_epoch`. -/
def getBitmap : Option (DtlsBitmap × Bool) :=
  if rr.epoch = rl.epoch then some (rl.bitmap, false)
  else if rr.epoch = rl.epoch + 1 then some (rl.nextBitmap, true)
  else none

/-- `dtls_process_record`, of which only the update of the bitmap matters here. -/
def processRecord : DtlsRecordLayer × Bool :=
  if rr.authentic then ({ rl with bitmap := rl.bitmap.update rr.sequence }, true) else (rl, false)

/-- `dtls_get_more_records`, from the choice of the bitmap on. -/
def receive : DtlsRecordLayer × DtlsOutcome :=
  match rl.getBitmap rr with
  | none => (rl, .wrongEpoch)
  | some (bitmap, isNextEpoch) =>
    if !bitmap.replayCheck rr.sequence then (rl, .replayed)
    else if rr.length = 0 then (rl, .empty)
    else if isNextEpoch then (rl, .nextEpoch)
    else
      let r := rl.processRecord rr
      if !r.2 then (r.1, if rr.alert then .fatal else .discarded)
      else if !rr.accepted then (r.1, .fatal)
      else (r.1, .success)

end DtlsRecordLayer
end QuicTls
