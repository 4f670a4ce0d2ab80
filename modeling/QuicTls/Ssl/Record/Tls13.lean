import QuicTls.Ssl.Record.Types

/-!
# TLS 1.3 records (ssl/record/methods/tls13_meth.c, tls_common.c)

The bytes of a record are those that the `WPACKET` of the writer holds after its header, and that
the reader finds after its header. Writing to the packet succeeds: its buffer has room for the
largest fragment, the content type and the padding.
-/

namespace QuicTls.Record

/-- `OSSL_RECORD_TEMPLATE` -/
structure Template where
  type : UInt8
  buf : Bytes
  deriving DecidableEq, Repr

/-- The settings of a write record layer that decide what a record looks like. -/
structure Tls13Layer where
  allowPlainAlerts : Bool
  maxFragLen : Nat
  /-- The limit of `SSL_CTRL_SET_MAX_SEND_FRAGMENT` and of the extension. -/
  maxFragLen_le : maxFragLen ≤ ssl3RtMaxPlainLength
  /-- The callback, called with the type and the length of the record. -/
  padding : Option (UInt8 → Nat → Nat)
  blockPadding : Nat

/-- The fields of a `TLS_RL_RECORD` that are protected: its type and its data. -/
structure Rec where
  type : UInt8
  data : Bytes
  deriving DecidableEq, Repr

def tls13GetRecordType (rl : Tls13Layer) (template : Template) : UInt8 :=
  if rl.allowPlainAlerts ∧ template.type = ssl3RtAlert then ssl3RtAlert
  -- the "inner" record type encodes the "real" record type from the template
  else ssl3RtApplicationData

/-- The number of padding bytes for a record of `rlen` bytes. -/
def tls13Padding (rl : Tls13Layer) (type : UInt8) (rlen : Nat) : Nat :=
  if rlen < rl.maxFragLen then
    let maxPadding := rl.maxFragLen - rlen
    let padding :=
      match rl.padding with
      | some padding => padding type rlen
      | none =>
        if 0 < rl.blockPadding then
          let mask := rl.blockPadding - 1
          -- optimize for power of 2
          let remainder :=
            if rl.blockPadding &&& mask = 0 then rlen &&& mask else rlen % rl.blockPadding
          -- don't want to add a block of padding if we don't have to
          if remainder = 0 then 0 else rl.blockPadding - remainder
        else 0
    -- do not allow the record to exceed max plaintext length
    if maxPadding < padding then maxPadding else padding
  else 0

/-- `tls13_add_record_padding`, of a record whose data is that of the template -/
def tls13AddRecordPadding (rl : Tls13Layer) (template : Template) : Bytes :=
  if rl.allowPlainAlerts ∧ template.type ≠ ssl3RtAlert then template.buf
  else
    let data := template.buf ++ [template.type]
    data ++ List.replicate (tls13Padding rl template.type data.length) 0

/-- The record that `tls_write_records_default` encrypts for a template. -/
def tls13WriteRecord (rl : Tls13Layer) (template : Template) : Rec :=
  ⟨tls13GetRecordType rl template, tls13AddRecordPadding rl template⟩

/-- Strip trailing padding: the index of the content type. -/
def contentEnd (data : Bytes) : Nat → Nat
  | 0 => 0
  | last + 1 => if data.getD (last + 1) 0 = 0 then contentEnd data last else last + 1

def tls13CommonPostProcessRecord (rec : Rec) : Except Fatal Rec :=
  if rec.type ≠ ssl3RtApplicationData ∧ rec.type ≠ ssl3RtAlert ∧ rec.type ≠ ssl3RtHandshake then
    throw ⟨.unexpectedMessage, .badRecordType⟩
  else if (rec.type = ssl3RtHandshake ∨ rec.type = ssl3RtAlert) ∧ rec.data.length = 0 then
    throw ⟨.unexpectedMessage, .badLength⟩
  else pure rec

/-- The record without its padding and its inner type, unless it is a plaintext alert. -/
def tls13Inner (rec : Rec) : Except Fatal Rec :=
  if rec.type ≠ ssl3RtAlert then
    if rec.data.length = 0 ∨ rec.type ≠ ssl3RtApplicationData then
      throw ⟨.unexpectedMessage, .badRecordType⟩
    else
      let last := contentEnd rec.data (rec.data.length - 1)
      pure ⟨rec.data.getD last 0, rec.data.take last⟩
  else pure rec

def tls13PostProcessRecord (rec : Rec) : Except Fatal Rec := do
  let rec ← tls13Inner rec
  if ssl3RtMaxPlainLength < rec.data.length then throw ⟨.recordOverflow, .dataLengthTooLong⟩
  else tls13CommonPostProcessRecord rec

end QuicTls.Record
