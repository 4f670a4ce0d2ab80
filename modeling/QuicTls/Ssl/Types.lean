import QuicTls.Theory.CTypes
import Mathlib.Order.Lattice
import Mathlib.Order.Nat

/-!
# Types shared by the modules of ssl/
-/

namespace QuicTls

def evpMaxMdSize : Nat := 64

inductive EncryptionLevel where
  | initial
  | earlyData
  | handshake
  | application
  deriving DecidableEq, Repr

namespace EncryptionLevel

def toNat : EncryptionLevel → Nat
  | initial => 0
  | earlyData => 1
  | handshake => 2
  | application => 3

theorem toNat_injective : Function.Injective toNat := by
  intro a b h
  cases a <;> cases b <;> first | rfl | cases h

/-- The code compares levels by their enumeration value. -/
instance : LinearOrder EncryptionLevel := LinearOrder.lift' toNat toNat_injective

end EncryptionLevel

inductive EarlyDataState where
  | none
  | connectRetry
  | connecting
  | writeRetry
  | writing
  | writeFlush
  | unauthWriting
  | finishedWriting
  | acceptRetry
  | accepting
  | readRetry
  | reading
  | finishedReading
  deriving DecidableEq, Repr

/-- The reason codes of the modelled functions. -/
inductive SslReason where
  | badHandshakeLength
  | badLength
  | badPsk
  | bufLib
  | internalError
  | noSuitableDigestAlgorithm
  | shouldNotHaveBeenCalled
  | tlsIllegalExporterLabel
  | wrongEncryptionLevelReceived
  deriving DecidableEq, Repr

/-- `SSL3_CC_EARLY`, `SSL3_CC_HANDSHAKE`, `SSL3_CC_APPLICATION` -/
inductive Epoch where
  | early
  | handshake
  | application
  deriving DecidableEq, Repr

/-- `SSL3_CC_CLIENT`, `SSL3_CC_SERVER` -/
inductive Side where
  | client
  | server
  deriving DecidableEq, Repr

/-- `SSL3_CC_READ`, `SSL3_CC_WRITE` -/
inductive Direction where
  | read
  | write
  deriving DecidableEq, Repr

/-- The argument of the change-cipher functions: one flag of each kind. -/
structure Which where
  epoch : Epoch
  side : Side
  dir : Direction
  deriving DecidableEq, Repr

namespace Which

/-- `SSL3_CHANGE_CIPHER_CLIENT_READ` or `SSL3_CHANGE_CIPHER_SERVER_WRITE`: the keys the server
writes with. -/
def isServerKeys : Which → Bool
  | ⟨_, .client, .read⟩ | ⟨_, .server, .write⟩ => true
  | _ => false

end Which

end QuicTls
