import QuicTls.Ssl.Types

/-!
# Types and constants of the record layers (ssl/record/, include/openssl/ssl3.h)
-/

namespace QuicTls.Record

def ssl3RtChangeCipherSpec : UInt8 := 20
def ssl3RtAlert : UInt8 := 21
def ssl3RtHandshake : UInt8 := 22
def ssl3RtApplicationData : UInt8 := 23

def ssl3RtHeaderLength : Nat := 5
def ssl3RtMaxPlainLength : Nat := 16384

/-- `OSSL_RECORD_RETURN_*` -/
inductive Return where
  | success
  | retry
  | nonFatalErr
  | fatal
  | eof
  deriving DecidableEq, Repr

/-- `SSL_AD_*` -/
inductive Alert where
  | noAlert
  | decodeError
  | illegalParameter
  | internalError
  | protocolVersion
  | recordOverflow
  | unexpectedMessage
  deriving DecidableEq, Repr

/-- `SSL_R_*`, `ERR_R_*` -/
inductive Reason where
  | badLength
  | badRecordType
  | dataLengthTooLong
  | encryptedLengthTooLong
  | httpRequest
  | httpsProxyRequest
  | internalError
  | invalidCcsMessage
  | lengthTooShort
  | packetLengthTooLong
  | readBioNotSet
  | recordTooSmall
  | sequenceCtrWrapped
  | tooMuchEarlyData
  | unexpectedCcsMessage
  | wrongVersionNumber
  deriving DecidableEq, Repr

/-- The arguments of `RLAYERfatal` or `SSLfatal`. -/
structure Fatal where
  alert : Alert
  reason : Reason
  deriving DecidableEq, Repr

end QuicTls.Record
