import QuicTls.Ssl.Record.Dtls
import QuicTls.Ssl.Record.Types

/-!
# Sequence numbers of written records (ssl/record/methods/tls_common.c, tls13_meth.c, tls1_meth.c,
dtls_meth.c)

What is protected is left out, but for the values that must not repeat: the functions return the
nonces, the additional data or the headers of the records that they protect. The results of the
cipher and of the packet functions are part of the arguments.
-/

namespace QuicTls.Record

/-- The loop of `tls_increment_sequence_ctr` from the last byte on: the bytes afterwards, and
whether all of them became zero. -/
def incrementBytes : Bytes → Bytes × Bool
  | [] => ([], true)
  | b :: bs =>
    match incrementBytes bs with
    | (bs, true) => ((b + 1) :: bs, b + 1 = 0)
    | (bs, false) => (b :: bs, false)

theorem length_incrementBytes (bs : Bytes) : (incrementBytes bs).1.length = bs.length := by
  induction bs with
  | nil => rfl
  | cons b bs ih =>
    rw [incrementBytes]
    split <;> rename_i h <;> rw [h] at ih <;> rw [List.length_cons, List.length_cons, ih]

def incrementSeqNum (sequence : SeqNum) : SeqNum :=
  ⟨(incrementBytes sequence.toList).1.toArray, by simp [length_incrementBytes]⟩

/-- The part of `OSSL_RECORD_LAYER` that the values come from. -/
structure WriteLayer where
  sequence : SeqNum
  /-- The static IV of TLS 1.3. -/
  iv : Bytes
  epoch : BitVec 16

def tlsIncrementSequenceCtr (rl : WriteLayer) : Except Fatal WriteLayer :=
  if (incrementBytes rl.sequence.toList).2 then throw ⟨.internalError, .sequenceCtrWrapped⟩
  else pure { rl with sequence := incrementSeqNum rl.sequence }

/-- The IV of `tls13_cipher`: the last bytes of the static IV with the sequence number. -/
def tls13Nonce (rl : WriteLayer) : Bytes :=
  let offset := rl.iv.length - 8
  rl.iv.take offset ++ List.zipWith (· ^^^ ·) (rl.iv.drop offset) rl.sequence.toList

/-- A record for `tls13_cipher`, and whether the cipher protects it. -/
structure Tls13Event where
  type : UInt8
  cipherOk : Bool
  deriving DecidableEq, Repr

/-- `tls13_cipher` when sending: the nonce, unless the record is a plaintext alert -/
def tls13Cipher (rl : WriteLayer) (rec : Tls13Event) : Except Fatal (WriteLayer × List Bytes) :=
  if rec.type = ssl3RtAlert then pure (rl, [])
  else if rl.iv.length < 8 then throw ⟨.internalError, .internalError⟩
  else do
    let iv := tls13Nonce rl
    let rl ← tlsIncrementSequenceCtr rl
    if !rec.cipherOk then throw ⟨.internalError, .internalError⟩
    else pure (rl, [iv])

/-- The loop of `tls1_cipher` over the records of a pipeline, for an AEAD cipher: the sequence
numbers in the additional data. The records are those for which `EVP_CTRL_AEAD_TLS1_AAD` succeeds
or not. -/
def tls1AadLoop (rl : WriteLayer) : List Bool → Except Fatal (WriteLayer × List SeqNum)
  | [] => pure (rl, [])
  | padOk :: recs => do
    let seq := rl.sequence
    let rl ← tlsIncrementSequenceCtr rl
    if !padOk then throw ⟨.internalError, .internalError⟩
    else
      let (rl, aads) ← tls1AadLoop rl recs
      pure (rl, seq :: aads)

/-- The records of one call of `tls1_cipher`, and whether the cipher protects them. -/
structure Tls1Event where
  recs : List Bool
  cipherOk : Bool
  deriving DecidableEq, Repr

/-- `tls1_cipher` when sending with an AEAD cipher, not in DTLS -/
def tls1Cipher (rl : WriteLayer) (e : Tls1Event) : Except Fatal (WriteLayer × List SeqNum) :=
  if e.recs.length = 0 then throw ⟨.internalError, .internalError⟩
  else do
    let (rl, aads) ← tls1AadLoop rl e.recs
    if !e.cipherOk then throw ⟨.internalError, .internalError⟩ else pure (rl, aads)

/-- The six bytes of the sequence number that DTLS uses. -/
def dtlsSeq (rl : WriteLayer) : Bytes := rl.sequence.toList.drop 2

/-- What a DTLS record is sent with. -/
structure DtlsSent where
  /-- `dtls_prepare_record_header`: the epoch and the sequence number of the header -/
  header : BitVec 16 × Bytes
  /-- `dtlsseq` of `tls1_cipher` or `tls1_mac`: the first bytes of what is authenticated -/
  protection : Bytes
  deriving DecidableEq

/-- `tls_write_records_default` for the one record of a DTLS write, ending with
`dtls_post_encryption_processing`; the argument says whether everything else succeeds -/
def dtlsWriteRecord (rl : WriteLayer) (ok : Bool) : Except Fatal (WriteLayer × List DtlsSent) :=
  if !ok then throw ⟨.internalError, .internalError⟩
  else do
    let sent : DtlsSent :=
      { header := (rl.epoch, dtlsSeq rl)
        protection := BigEndian.encode 2 rl.epoch.toNat ++ dtlsSeq rl }
    let rl ← tlsIncrementSequenceCtr rl
    pure (rl, [sent])

end QuicTls.Record
