import QuicTls.Crypto.ConstantTime
import QuicTls.Ssl.Types

/-!
# Removing CBC padding (ssl/record/methods/tls_pad.c)

The functions get the decrypted record in `recdata` and its length in `*reclen`. They remove the
padding and the MAC without branching on the contents. The compiled variant of
`ssl3_cbc_copy_mac` is the one with `CBC_MAC_ROTATE_IN_PLACE`.
-/

namespace QuicTls

/-- What a call gets from outside: the bytes of `RAND_bytes_ex` unless it fails, whether
`OPENSSL_malloc` succeeds, and what `rotated_mac_buf` holds before it is written to. -/
structure PadEnv where
  rand : Option (Nat → BitVec 8)
  malloc : Bool
  stack : Nat → BitVec 8

/-- What a call returns, and what it leaves in `*reclen`, `*mac` and `*alloced`. -/
structure PadResult where
  ret : Bool
  reclen : SizeT
  /-- the `mac_size` bytes at `*mac`, when it was set -/
  mac : Option (List (BitVec 8))
  alloced : Option Bool
  deriving DecidableEq, Repr

/-- The variables of the loop that collects the MAC. -/
structure MacScan where
  inMac : SizeT
  rotateOffset : SizeT
  j : SizeT
  rotatedMac : List (BitVec 8)

/-- One round of that loop. -/
def scanStep (recdata : List (BitVec 8)) (macStart macEnd macSize : SizeT) (st : MacScan)
    (i : Nat) : MacScan :=
  let macStarted := constantTimeEq (BitVec.ofNat 64 i) macStart
  let macEnded := constantTimeLt (BitVec.ofNat 64 i) macEnd
  let b := recdata.getD i 0
  let inMac := (st.inMac ||| macStarted) &&& macEnded
  let j := st.j + 1
  { inMac := inMac
    rotateOffset := st.rotateOffset ||| (st.j &&& macStarted)
    rotatedMac := st.rotatedMac.modify st.j.toNat fun r =>
      (r.setWidth 64 ||| (b.setWidth 64 &&& inMac)).setWidth 8
    j := j &&& constantTimeLt j macSize }

/-- The loop over the bytes among which the MAC is. -/
def scanMac (env : PadEnv) (origreclen : SizeT) (recdata : List (BitVec 8))
    (macStart macEnd macSize : SizeT) : MacScan :=
  let scanStart := if macSize + 255 + 1 < origreclen then origreclen - (macSize + 255 + 1) else 0
  let rotatedMac := (List.range evpMaxMdSize).map fun i =>
    if i < macSize.toNat then 0 else env.stack i
  (List.range' scanStart.toNat (origreclen.toNat - scanStart.toNat)).foldl
    (scanStep recdata macStart macEnd macSize) ⟨0, 0, 0, rotatedMac⟩

/-- One round of the loop that rotates the MAC: the next offset and the bytes of `out`. -/
def rotateStep (rotatedMac : List (BitVec 8)) (macSize good : SizeT) (randmac : Nat → BitVec 8)
    (st : SizeT × List (BitVec 8)) (i : Nat) : SizeT × List (BitVec 8) :=
  let (rotateOffset, out) := st
  -- in case the cache line is 32 bytes, load from both lines
  let aux1 := rotatedMac.getD (rotateOffset &&& ~~~32).toNat 0
  let aux2 := rotatedMac.getD (rotateOffset ||| 32).toNat 0
  let mask := constantTimeEq8 ((rotateOffset &&& ~~~32).setWidth 32) (rotateOffset.setWidth 32)
  let aux3 := constantTimeSelect8 mask aux1 aux2
  let rotateOffset := rotateOffset + 1
  (rotateOffset &&& constantTimeLt rotateOffset macSize,
    out ++ [constantTimeSelect8 ((good &&& 0xff).setWidth 8) aux3 (randmac i)])

variable (env : PadEnv) (reclen origreclen : SizeT) (recdata : List (BitVec 8)) (hasMac : Bool)
  (blockSize macSize : SizeT)

/-- `ssl3_cbc_copy_mac`; `hasMac` when `mac` and `alloced` are not `NULL`. -/
def ssl3CbcCopyMac (good : SizeT) : PadResult :=
  let macEnd := reclen
  let macStart := macEnd - macSize
  if ¬(macSize ≤ origreclen ∧ macSize ≤ BitVec.ofNat 64 evpMaxMdSize) then
    ⟨false, reclen, none, none⟩
  else if macSize = 0 then ⟨good != 0, reclen, none, none⟩
  else
    let reclen := reclen - macSize
    if blockSize = 1 then
      -- there is no padding, so the position of the MAC is fixed
      if hasMac then
        ⟨true, reclen, some ((recdata.drop reclen.toNat).take macSize.toNat), some false⟩
      else ⟨true, reclen, none, none⟩
    else
      match env.rand with
      | none => ⟨false, reclen, none, none⟩
      | some randmac =>
        if !hasMac then ⟨false, reclen, none, none⟩
        else if !env.malloc then ⟨false, reclen, none, none⟩
        else
          let st := scanMac env origreclen recdata macStart macEnd macSize
          let r := (List.range macSize.toNat).foldl (rotateStep st.rotatedMac macSize good randmac)
            (st.rotateOffset, [])
          ⟨true, reclen, some r.2, some true⟩

def ssl3CbcRemovePaddingAndMac : PadResult :=
  let overhead := 1 + macSize
  if reclen < overhead then ⟨false, reclen, none, none⟩
  else
    let paddingLength : SizeT := (recdata.getD (reclen - 1).toNat 0).setWidth 64
    let good := constantTimeGe reclen (paddingLength + overhead)
    -- SSLv3 requires that the padding is minimal
    let good := good &&& constantTimeGe blockSize (paddingLength + 1)
    let reclen := reclen - (good &&& (paddingLength + 1))
    ssl3CbcCopyMac env reclen origreclen recdata hasMac blockSize macSize good

/-- One round of the loop that checks the padding bytes. -/
def checkStep (recdata : List (BitVec 8)) (reclen paddingLength good : SizeT) (i : Nat) : SizeT :=
  let mask := constantTimeGe8 paddingLength (BitVec.ofNat 64 i)
  let b := recdata.getD (reclen - 1 - BitVec.ofNat 64 i).toNat 0
  good &&& ~~~(mask.setWidth 64 &&& (paddingLength ^^^ b.setWidth 64))

def tls1CbcRemovePaddingAndMac (aead : Bool) : PadResult :=
  let overhead := (if blockSize = 1 then 0 else 1) + macSize
  if reclen < overhead then ⟨false, reclen, none, none⟩
  else if blockSize = 1 then
    ssl3CbcCopyMac env reclen origreclen recdata hasMac blockSize macSize (-1)
  else
    let paddingLength : SizeT := (recdata.getD (reclen - 1).toNat 0).setWidth 64
    if aead then ⟨true, reclen - (paddingLength + 1 + macSize), none, none⟩
    else
      let good := constantTimeGe reclen (overhead + paddingLength)
      -- the maximum amount of padding, including the length byte
      let toCheck : SizeT := if reclen < 256 then reclen else 256
      let good := (List.range toCheck.toNat).foldl (checkStep recdata reclen paddingLength) good
      let good := constantTimeEq 0xff (good &&& 0xff)
      let reclen := reclen - (good &&& (paddingLength + 1))
      ssl3CbcCopyMac env reclen origreclen recdata hasMac blockSize macSize good

end QuicTls
