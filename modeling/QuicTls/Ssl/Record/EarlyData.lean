import QuicTls.Ssl.Record.Types

/-!
# The allowance for early data (ssl/record/rec_layer_s3.c, ssl/record/methods/tls_common.c)

A `size_t` has 64 bits.
-/

namespace QuicTls.Record

/-- `EARLY_DATA_CIPHERTEXT_OVERHEAD`; the longest tag, `EVP_GCM_TLS_TAG_LEN`, has 16 bytes -/
def earlyDataCiphertextOverhead : BitVec 64 := 6 * (16 + 1) + 2

/-- What `rlayer_early_data_count_ok` and `ossl_early_data_count_ok` do once they have the limit;
the counter of a record layer has 64 bits and that of a connection has 32. -/
def earlyDataCountOk {k : Nat} (maxEarlyData : BitVec 32) (earlyDataCount : BitVec k)
    (length overhead : BitVec 64) (send : Bool) : Except Fatal (BitVec k) :=
  let fatal : Fatal := ⟨if send then .internalError else .unexpectedMessage, .tooMuchEarlyData⟩
  if maxEarlyData = 0 then throw fatal
  else
    -- if we are dealing with ciphertext we need to allow for the overhead
    let maxEarlyData := (maxEarlyData.setWidth 64 + overhead).setWidth 32
    if maxEarlyData.setWidth 64 < earlyDataCount.setWidth 64 + length then throw fatal
    else pure (earlyDataCount + length.setWidth k)

/-- The part of `OSSL_RECORD_LAYER` that counts early data. -/
structure EarlyLayer where
  maxEarlyData : BitVec 32
  earlyDataCount : BitVec 64
  deriving DecidableEq, Repr

def rlayerEarlyDataCountOk (rl : EarlyLayer) (length overhead : BitVec 64) (send : Bool) :
    Except Fatal EarlyLayer :=
  (earlyDataCountOk rl.maxEarlyData rl.earlyDataCount length overhead send).map
    fun count => { rl with earlyDataCount := count }

/-- The part of `SSL_CONNECTION` that counts early data. -/
structure EarlyConnection where
  server : Bool
  /-- `session->ext.max_early_data` -/
  sessionMax : BitVec 32
  /-- `psksession->ext.max_early_data`, if there is a `psksession` -/
  pskMax : Option (BitVec 32)
  /-- `ext.early_data == SSL_EARLY_DATA_ACCEPTED` -/
  accepted : Bool
  recvMaxEarlyData : BitVec 32
  earlyDataCount : BitVec 32
  deriving DecidableEq, Repr

def osslGetMaxEarlyData (s : EarlyConnection) : Except Fatal (BitVec 32) :=
  if !s.server then
    if s.sessionMax = 0 then
      match s.pskMax with
      | none => throw ⟨.internalError, .internalError⟩
      | some max => if max = 0 then throw ⟨.internalError, .internalError⟩ else pure max
    else pure s.sessionMax
  else if !s.accepted then pure s.recvMaxEarlyData
  else pure (if s.recvMaxEarlyData < s.sessionMax then s.recvMaxEarlyData else s.sessionMax)

/-- `ossl_early_data_count_ok`; of two calls of `SSLfatal` the first one counts -/
def osslEarlyDataCountOk (s : EarlyConnection) (length overhead : BitVec 64) (send : Bool) :
    Except Fatal EarlyConnection := do
  let maxEarlyData ← osslGetMaxEarlyData s
  let count ← earlyDataCountOk maxEarlyData s.earlyDataCount length overhead send
  pure { s with earlyDataCount := count }

end QuicTls.Record
