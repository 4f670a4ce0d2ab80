import QuicTls.Ssl.Record.Types

/-!
# Writing pending records (ssl/record/methods/tls_common.c)

`tls_retry_write_records` hands the write buffers to the BIO. The results of the BIO are an
argument, one entry for each turn of the loop.
-/

namespace QuicTls.Record.RetryWrite

/-- `TLS_BUFFER` for writing -/
structure TlsBuffer where
  buf : Bytes
  /-- where to copy from -/
  offset : Nat
  /-- how many bytes are left -/
  left : Nat
  fits : offset + left ≤ buf.length
  deriving DecidableEq

/-- The bytes that are offered to the BIO. -/
def TlsBuffer.bytes (b : TlsBuffer) : Bytes := (b.buf.drop b.offset).take b.left

/-- `TLS_BUFFER_add_offset` and `TLS_BUFFER_sub_left` -/
def TlsBuffer.advance (b : TlsBuffer) (n : Nat) (h : n ≤ b.left) : TlsBuffer :=
  { b with
    offset := b.offset + n
    left := b.left - n
    fits := by have := b.fits; omega }

/-- `TLS_BUFFER_set_left` with 0 -/
def TlsBuffer.clear (b : TlsBuffer) : TlsBuffer :=
  { b with
    left := 0
    fits := by have := b.fits; omega }

/-- The part of `OSSL_RECORD_LAYER` that the function uses. -/
structure Layer where
  /-- The write buffers in use: there are `numwpipes` of them. -/
  wbuf : List TlsBuffer
  nextwbuf : Nat
  /-- The layer has a BIO. -/
  bio : Bool
  isdtls : Bool
  /-- `SSL_MODE_RELEASE_BUFFERS` -/
  releaseBuffers : Bool
  deriving DecidableEq

def Layer.numwpipes (rl : Layer) : Nat := rl.wbuf.length

/-- What happens in a turn of the loop outside of the record layer. -/
structure BioResult where
  /-- `prepare_write_bio`; success if the layer has no such function -/
  prepare : Return
  /-- How many bytes `BIO_write` takes, if they are offered; `none` stands for -1. -/
  write : Option Nat
  /-- `BIO_should_retry` -/
  shouldRetry : Bool
  deriving DecidableEq, Repr

/-- `BIO_write` of so many bytes -/
def BioResult.bioWrite (r : BioResult) (left : Nat) : Option Nat := r.write.map (min left)

/-- A turn of the loop. Both ways it can end have the bytes that the BIO took. -/
inductive Turn where
  | continue (rl : Layer) (taken : Bytes)
  | return (ret : Return) (rl : Layer) (taken : Bytes)
  deriving DecidableEq

def tlsReleaseWriteBuffer (rl : Layer) : Layer := { rl with wbuf := [] }

/-- The release of the buffers after the last of them. -/
def releaseIfDone (rl : Layer) : Layer :=
  if rl.nextwbuf = rl.numwpipes ∧ rl.releaseBuffers then tlsReleaseWriteBuffer rl else rl

/-- The branch for a write that took nothing. -/
def writeFailed (rl : Layer) (thiswb : TlsBuffer) (ret : Return) : Turn :=
  if rl.isdtls then
    -- the datagram is dropped
    .return ret (releaseIfDone { rl with
      wbuf := rl.wbuf.set rl.nextwbuf thiswb.clear
      nextwbuf := rl.nextwbuf + 1 }) []
  else .return ret rl []

/-- The body of the loop of `tls_retry_write_records`. -/
def retryWriteTurn (rl : Layer) (thiswb : TlsBuffer) (r : BioResult) : Turn :=
  if !rl.bio then writeFailed rl thiswb .fatal
  else if r.prepare ≠ .success then .return r.prepare rl []
  else
    match h : r.bioWrite thiswb.left with
    | none => writeFailed rl thiswb (if r.shouldRetry then .retry else .fatal)
    | some tmpwrit =>
      have hle : tmpwrit ≤ thiswb.left := by
        obtain ⟨n, _, rfl⟩ := Option.map_eq_some_iff.1 h
        exact Nat.min_le_left _ _
      if tmpwrit = thiswb.left then
        let rl' := { rl with
          wbuf := rl.wbuf.set rl.nextwbuf (thiswb.advance tmpwrit hle)
          nextwbuf := rl.nextwbuf + 1 }
        if rl'.nextwbuf < rl'.numwpipes then .continue rl' thiswb.bytes
        else .return .success (releaseIfDone rl') thiswb.bytes
      else if tmpwrit = 0 then
        writeFailed rl thiswb (if r.shouldRetry then .retry else .success)
      else
        .continue { rl with wbuf := rl.wbuf.set rl.nextwbuf (thiswb.advance tmpwrit hle) }
          (thiswb.bytes.take tmpwrit)

/-- What a call comes to: its result, the layer afterwards and all bytes that the BIO took. -/
structure Outcome where
  ret : Return
  rl : Layer
  taken : Bytes
  deriving DecidableEq

/-- The loop of `tls_retry_write_records`; `none` if it is still going on after these results. -/
def retryWriteLoop (rl : Layer) : List BioResult → Option Outcome
  | [] => none
  | r :: rs =>
    match rl.wbuf[rl.nextwbuf]? with
    | none => none
    | some thiswb =>
      match retryWriteTurn rl thiswb r with
      | .return ret rl' taken => some ⟨ret, rl', taken⟩
      | .continue rl' taken =>
        (retryWriteLoop rl' rs).map fun out => { out with taken := taken ++ out.taken }

def tlsRetryWriteRecords (rl : Layer) (rs : List BioResult) : Option Outcome :=
  if rl.nextwbuf ≥ rl.numwpipes then some ⟨.success, rl, []⟩ else retryWriteLoop rl rs

end QuicTls.Record.RetryWrite
