import QuicTls.Theory.BigEndian
import QuicTls.Theory.MerkleDamgard
import QuicTls.Theory.Overwrite
import QuicTls.Crypto.ConstantTime
import QuicTls.Ssl.Types

/-!
# The MAC of a CBC record (ssl/record/methods/ssl3_cbc.c)

`ssl3_cbc_digest_record` computes the MAC of a decrypted record without leaking how long its
contents are. It drives the compression function of the hash itself; the outer hash goes through the
`EVP_Digest` functions. The compression functions are a parameter: `Compression` has the `_Init`,
`_Transform` and `_final_raw` functions of a hash.
-/

namespace QuicTls

/-- The hashes that `ssl3_cbc_digest_record` supports. -/
inductive CbcMd where
  | md5
  | sha1
  | sha224
  | sha256
  | sha384
  | sha512
  deriving DecidableEq, Repr

/-- The variables that depend on the hash. -/
structure CbcMdParams where
  mdSize : Nat
  mdBlockSize : Nat := 64
  mdLengthSize : Nat := 8
  sslv3PadLength : Nat := 40
  lengthIsBigEndian : Bool := true
  /-- the number of bytes that `md_final_raw` writes -/
  rawSize : Nat := mdSize
  lengthSize_lt : mdLengthSize < mdBlockSize := by decide
  mdSize_le : mdSize ≤ rawSize := by decide

def CbcMd.params : CbcMd → CbcMdParams
  | md5 => { mdSize := 16, sslv3PadLength := 48, lengthIsBigEndian := false }
  | sha1 => { mdSize := 20 }
  | sha224 => { mdSize := 224 / 8, rawSize := 32 }
  | sha256 => { mdSize := 32 }
  | sha384 => { mdSize := 384 / 8, mdBlockSize := 128, mdLengthSize := 16, rawSize := 64 }
  | sha512 => { mdSize := 64, mdBlockSize := 128, mdLengthSize := 16 }

/-- The functions of a hash. -/
structure Compression (σ : Type) (rawSize : Nat) where
  init : σ
  transform : σ → List (BitVec 8) → σ
  finalRaw : σ → List (BitVec 8)
  length_finalRaw : ∀ s, (finalRaw s).length = rawSize

/-- Which of the `EVP_MD_CTX_new`, `EVP_DigestInit_ex`, `EVP_DigestUpdate` and `EVP_DigestFinal`
calls succeed. -/
structure CbcEvp where
  ctxNew : Bool
  digestInit : Bool
  digestUpdate : Bool
  digestFinal : Bool

/-- What a call returns and what it writes to `md_out` and `*md_out_size`. -/
structure CbcDigest where
  ret : Bool
  mdOut : Option (List (BitVec 8))
  mdOutSize : Option Nat
  deriving DecidableEq, Repr

namespace CbcMdParams

variable (md : CbcMdParams)

/-- The length field of the hash: the length of a message of `n` bytes in bits. -/
def lengthField (n : Nat) : List (BitVec 8) :=
  let bytes := (BigEndian.encode md.mdLengthSize (8 * n)).map UInt8.toBitVec
  if md.lengthIsBigEndian then bytes else bytes.reverse

theorem length_lengthField (n : Nat) : (md.lengthField n).length = md.mdLengthSize := by
  unfold lengthField
  split <;> simp

variable {md} {σ : Type} (f : Compression σ md.rawSize)

/-- The hash function that the `EVP_Digest` functions compute. -/
def hash : MerkleDamgard.Hash σ (BitVec 8) where
  blockSize := md.mdBlockSize
  lengthSize := md.mdLengthSize
  init := f.init
  transform := f.transform
  output s := (f.finalRaw s).take md.mdSize
  zero := 0
  terminator := 0x80
  lengthBytes := md.lengthField
  length_lengthBytes := md.length_lengthField
  lengthSize_lt := md.lengthSize_lt

end CbcMdParams

def maxHashBitCountBytes : Nat := 16

def maxHashBlockSize : Nat := 128

/-- The sizes and offsets that the function computes first. -/
structure CbcSizes where
  headerLength : Nat
  varianceBlocks : Nat
  numStartingBlocks : Nat
  macEndOffset : Nat
  c : Nat
  indexA : Nat
  indexB : Nat
  /-- the length in bits, with the block of the masked key -/
  bits : Nat

def cbcSizes (md : CbcMdParams) (dataSize total macSecretLength : Nat) (isSslv3 : Bool) :
    CbcSizes :=
  let headerLength := if isSslv3 then macSecretLength + md.sslv3PadLength + 8 + 1 + 2 else 13
  let varianceBlocks :=
    if isSslv3 then 2 else (255 + 1 + md.mdSize + md.mdBlockSize - 1) / md.mdBlockSize + 1
  let len := total + headerLength
  let maxMacBytes := (len + 2 ^ 64 - md.mdSize - 1) % 2 ^ 64
  let numBlocks :=
    (maxMacBytes + 1 + md.mdLengthSize + md.mdBlockSize - 1) % 2 ^ 64 / md.mdBlockSize
  let macEndOffset := (dataSize + headerLength) % 2 ^ 64
  { headerLength := headerLength
    varianceBlocks := varianceBlocks
    numStartingBlocks :=
      if varianceBlocks + (if isSslv3 then 1 else 0) < numBlocks then numBlocks - varianceBlocks
      else 0
    macEndOffset := macEndOffset
    c := macEndOffset % md.mdBlockSize
    indexA := macEndOffset / md.mdBlockSize
    indexB := (macEndOffset + md.mdLengthSize) % 2 ^ 64 / md.mdBlockSize
    bits := (8 * macEndOffset + if isSslv3 then 0 else 8 * md.mdBlockSize) % 2 ^ 64 }

/-- The bytes of `length_bytes`. -/
def cbcLengthBytes (md : CbcMdParams) (bits : Nat) : List (BitVec 8) :=
  let byte (n : Nat) := BitVec.ofNat 8 (bits >>> n)
  if md.lengthIsBigEndian then
    List.replicate (md.mdLengthSize - 4) 0 ++ [byte 24, byte 16, byte 8, byte 0]
  else
    overwrite (List.replicate md.mdLengthSize 0) (md.mdLengthSize - 8)
      [byte 0, byte 8, byte 16, byte 24]

section

variable {σ : Type} {md : CbcMdParams} (f : Compression σ md.rawSize) (s : CbcSizes)
  (header data : List (BitVec 8))

/-- The blocks that no padding value can affect. It fails when an SSLv3 header is too short. -/
def cbcStartingBlocks (isSslv3 : Bool) (st : σ) : Option σ :=
  let k := md.mdBlockSize * s.numStartingBlocks
  if k = 0 then some st
  else if isSslv3 then
    if s.headerLength ≤ md.mdBlockSize then none
    else
      let overhang := s.headerLength - md.mdBlockSize
      let st := f.transform st (header.take md.mdBlockSize)
      let firstBlock := (header.drop md.mdBlockSize).take overhang
        ++ data.take (md.mdBlockSize - overhang)
      let st := f.transform st firstBlock
      some ((List.range' 1 (k / md.mdBlockSize - 1 - 1)).foldl
        (fun st i => f.transform st
          ((data.drop (md.mdBlockSize * i - overhang)).take md.mdBlockSize)) st)
  else
    let firstBlock := header.take 13 ++ data.take (md.mdBlockSize - 13)
    let st := f.transform st firstBlock
    some ((List.range' 1 (k / md.mdBlockSize - 1)).foldl
      (fun st i => f.transform st ((data.drop (md.mdBlockSize * i - 13)).take md.mdBlockSize)) st)

/-- Byte `j` of a block of the last loop, at offset `k`. -/
def cbcByte (md : CbcMdParams) (lengthBytes : List (BitVec 8)) (isBlockA isBlockB : BitVec 8)
    (k j : Nat) : BitVec 8 :=
  let b :=
    if k < s.headerLength then header.getD k 0
    else if k < data.length + s.headerLength then data.getD (k - s.headerLength) 0
    else 0
  let isPastC := isBlockA &&& constantTimeGe8 (BitVec.ofNat 64 j) (BitVec.ofNat 64 s.c)
  let isPastCp1 := isBlockA &&& constantTimeGe8 (BitVec.ofNat 64 j) (BitVec.ofNat 64 (s.c + 1))
  -- the end of the application data: 0x80 and then zeros
  let b := constantTimeSelect8 isPastC 0x80 b
  let b := b &&& ~~~isPastCp1
  -- the length did not fit into that block, so this one only has the length
  let b := b &&& (~~~isBlockB ||| isBlockA)
  if md.mdBlockSize - md.mdLengthSize ≤ j then
    constantTimeSelect8 isBlockB
      (lengthBytes.getD (j - (md.mdBlockSize - md.mdLengthSize)) 0) b
  else b

/-- The variables of the last loop. -/
structure CbcLoop (σ : Type) where
  st : σ
  k : Nat
  macOut : List (BitVec 8)

/-- One round of the last loop: block `i`. -/
def cbcStep (lengthBytes : List (BitVec 8)) (l : CbcLoop σ) (i : Nat) : CbcLoop σ :=
  let isBlockA := constantTimeEq8 (BitVec.ofNat 64 i) (BitVec.ofNat 64 s.indexA)
  let isBlockB := constantTimeEq8 (BitVec.ofNat 64 i) (BitVec.ofNat 64 s.indexB)
  let block := (List.range md.mdBlockSize).map fun j =>
    cbcByte s header data md lengthBytes isBlockA isBlockB (l.k + j) j
  let st := f.transform l.st block
  let block := overwrite block 0 (f.finalRaw st)
  { st := st
    k := l.k + md.mdBlockSize
    macOut := l.macOut.mapIdx fun j b =>
      if j < md.mdSize then b ||| (block.getD j 0 &&& isBlockB) else b }

end

/-- The masked key, `hmac_pad`. -/
def hmacPad (md : CbcMdParams) (macSecret : List (BitVec 8)) : List (BitVec 8) :=
  ((macSecret ++ List.replicate md.mdBlockSize 0).take md.mdBlockSize).map (· ^^^ 0x36)

/-- The inner and the outer hash, once the offsets are known. -/
def cbcDigestBlocks {σ : Type} {md : CbcMdParams} (f : Compression σ md.rawSize) (evp : CbcEvp)
    (s : CbcSizes) (header data macSecret : List (BitVec 8)) (isSslv3 : Bool) : CbcDigest :=
  let st := if isSslv3 then f.init else f.transform f.init (hmacPad md macSecret)
  match cbcStartingBlocks f s header data isSslv3 st with
  | none => ⟨false, none, none⟩
  | some st =>
    let l := (List.range' s.numStartingBlocks (s.varianceBlocks + 1)).foldl
      (cbcStep f s header data (cbcLengthBytes md s.bits))
      ⟨st, md.mdBlockSize * s.numStartingBlocks, List.replicate evpMaxMdSize 0⟩
    if !evp.ctxNew ∨ !evp.digestInit ∨ !evp.digestUpdate then ⟨false, none, none⟩
    else
      let msg :=
        if isSslv3 then
          macSecret ++ List.replicate md.sslv3PadLength 0x5c ++ l.macOut.take md.mdSize
        else (hmacPad md macSecret).map (· ^^^ 0x6a) ++ l.macOut.take md.mdSize
      let out := (CbcMdParams.hash f).digest msg
      -- the result of `EVP_DigestFinal` does not change what is returned
      if evp.digestFinal then ⟨true, some out, some out.length⟩ else ⟨true, none, none⟩

/-- `ssl3_cbc_digest_record` for a supported hash. -/
def cbcDigestRecord {σ : Type} {md : CbcMdParams} (f : Compression σ md.rawSize) (evp : CbcEvp)
    (header data : List (BitVec 8)) (dataSize : Nat) (macSecret : List (BitVec 8))
    (isSslv3 : Bool) : CbcDigest :=
  if ¬(md.mdLengthSize ≤ maxHashBitCountBytes ∧ md.mdBlockSize ≤ maxHashBlockSize
      ∧ md.mdSize ≤ evpMaxMdSize) then ⟨false, none, none⟩
  else if !isSslv3 ∧ maxHashBlockSize < macSecret.length then ⟨false, none, none⟩
  else
    cbcDigestBlocks f evp (cbcSizes md dataSize data.length macSecret.length isSslv3) header data
      macSecret isSslv3

/-- `ssl3_cbc_digest_record`; `md` is none for a hash that is not supported. The data is
`data_plus_mac_plus_padding_size` bytes long. -/
def ssl3CbcDigestRecord {σ : Type} (f : (md : CbcMd) → Compression σ md.params.rawSize)
    (md : Option CbcMd) (evp : CbcEvp) (header data : List (BitVec 8)) (dataSize : Nat)
    (macSecret : List (BitVec 8)) (isSslv3 : Bool) : CbcDigest :=
  if 1024 * 1024 ≤ data.length then ⟨false, none, none⟩
  else
    match md with
    | none => ⟨false, none, some 0⟩
    | some md => cbcDigestRecord (f md) evp header data dataSize macSecret isSslv3

end QuicTls
