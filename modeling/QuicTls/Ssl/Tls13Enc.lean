import QuicTls.Ssl.Types

/-!
# The TLS 1.3 key schedule (ssl/tls13_enc.c, `quic_set_encryption_secrets` of ssl/ssl_quic.c)

The state holds the fields of `SSL_CONNECTION` that the change-cipher functions read or write.
HKDF and the digests are parameters (`Kdf`). A function that fails returns the reason it reports;
the connection is then in the error state and its secrets are not read again.

Key logging, the derivation of record keys and IVs from a traffic secret and the plain-alerts flag
are left out: no secret of the state depends on them.
-/

namespace QuicTls

/-- The primitives of the key schedule, for the digests `Md`. -/
structure Kdf (Md : Type) where
  /-- HKDF-Expand-Label: secret, label, data (`NULL` or a byte string), output length. -/
  expandLabel : Md → Bytes → Bytes → Option Bytes → Nat → Bytes
  /-- HKDF-Extract with the "derived" step: previous secret and input secret. -/
  extract : Md → Option Bytes → Option Bytes → Bytes
  digest : Md → Bytes → Bytes
  size : Md → Nat
  size_pos : ∀ md, 0 < size md

/-- Primitives that only join their inputs, to evaluate the model with. -/
def Kdf.concat (Md : Type) : Kdf Md where
  expandLabel _ secret label data _ := secret ++ label ++ data.getD []
  extract _ prevsecret insecret := prevsecret.getD [] ++ insecret.getD []
  digest _ msg := msg
  size _ := 32
  size_pos _ := by decide

/-! ### Labels

In ASCII: "c e traffic", "c hs traffic", "c ap traffic", "s hs traffic", "s ap traffic",
"exp master", "res master", "e exp master", "finished", "traffic upd" and "exporter".
-/

def clientEarlyTraffic : Bytes := [0x63, 0x20, 0x65, 0x20, 0x74, 0x72, 0x61, 0x66, 0x66, 0x69, 0x63]
def clientHandshakeTraffic : Bytes :=
  [0x63, 0x20, 0x68, 0x73, 0x20, 0x74, 0x72, 0x61, 0x66, 0x66, 0x69, 0x63]
def clientApplicationTraffic : Bytes :=
  [0x63, 0x20, 0x61, 0x70, 0x20, 0x74, 0x72, 0x61, 0x66, 0x66, 0x69, 0x63]
def serverHandshakeTraffic : Bytes :=
  [0x73, 0x20, 0x68, 0x73, 0x20, 0x74, 0x72, 0x61, 0x66, 0x66, 0x69, 0x63]
def serverApplicationTraffic : Bytes :=
  [0x73, 0x20, 0x61, 0x70, 0x20, 0x74, 0x72, 0x61, 0x66, 0x66, 0x69, 0x63]
def exporterMasterSecretLabel : Bytes :=
  [0x65, 0x78, 0x70, 0x20, 0x6d, 0x61, 0x73, 0x74, 0x65, 0x72]
def resumptionMasterSecretLabel : Bytes :=
  [0x72, 0x65, 0x73, 0x20, 0x6d, 0x61, 0x73, 0x74, 0x65, 0x72]
def earlyExporterMasterSecretLabel : Bytes :=
  [0x65, 0x20, 0x65, 0x78, 0x70, 0x20, 0x6d, 0x61, 0x73, 0x74, 0x65, 0x72]
def finishedLabel : Bytes := [0x66, 0x69, 0x6e, 0x69, 0x73, 0x68, 0x65, 0x64]
def applicationTraffic : Bytes := [0x74, 0x72, 0x61, 0x66, 0x66, 0x69, 0x63, 0x20, 0x75, 0x70, 0x64]
def exporterLabel : Bytes := [0x65, 0x78, 0x70, 0x6f, 0x72, 0x74, 0x65, 0x72]

def tls13MaxLabelLen : Nat := 249

/-! ### State -/

/-- An `SSL_CIPHER`: `ssl_md` of its digest, and whether `ssl_cipher_get_evp_cipher` finds it. -/
structure SslCipher (Md : Type) where
  md : Option Md
  evpCipher : Bool

structure SslSession (Md : Type) where
  cipher : Option (SslCipher Md)
  maxEarlyData : Nat

/-- `SSL_QUIC_METHOD`: level, read secret, write secret, length; whether the callback accepts. -/
structure QuicMethod where
  setEncryptionSecrets : EncryptionLevel → Option Bytes → Option Bytes → Nat → Bool

/-- A call of `set_encryption_secrets`. -/
structure QuicSecrets where
  level : EncryptionLevel
  readSecret : Option Bytes
  writeSecret : Option Bytes
  deriving DecidableEq, Repr

/-- A call of `ssl_set_new_record_layer`. -/
structure RecordSecret where
  dir : Direction
  epoch : Epoch
  secret : Bytes
  deriving DecidableEq, Repr

/-- What the change-cipher functions read and leave alone. -/
structure HandshakeState (Md : Type) where
  server : Bool
  hit : Bool
  /-- `s3.tmp.new_cipher` -/
  newCipher : Option (SslCipher Md)
  /-- whether `s3.tmp.new_sym_enc` is set -/
  newSymEnc : Bool
  /-- the handshake messages so far -/
  handshakeBuffer : Bytes
  earlyDataState : EarlyDataState
  maxEarlyData : Nat
  session : SslSession Md
  psksession : Option (SslSession Md)
  earlySecret : Bytes
  handshakeSecret : Bytes
  masterSecret : Bytes

structure Tls13State (Md : Type) extends HandshakeState Md where
  quicMethod : Option QuicMethod
  resumptionMasterSecret : Bytes
  clientFinishedSecret : Bytes
  serverFinishedSecret : Bytes
  serverFinishedHash : Bytes
  handshakeTrafficHash : Bytes
  clientHandTrafficSecret : Bytes
  serverHandTrafficSecret : Bytes
  clientEarlyTrafficSecret : Bytes
  clientAppTrafficSecret : Bytes
  serverAppTrafficSecret : Bytes
  exporterMasterSecret : Bytes
  earlyExporterMasterSecret : Bytes
  quicReadLevel : EncryptionLevel
  quicWriteLevel : EncryptionLevel
  /-- the secrets given to the QUIC transport, in order -/
  encryptionSecrets : List QuicSecrets
  /-- the secrets the record layers were built from, in order -/
  recordSecrets : List RecordSecret

def zeroSecret : Bytes := List.replicate evpMaxMdSize 0

/-- The state of a new connection: all secrets are zero. -/
def Tls13State.new (Md : Type) (server : Bool) (quicMethod : Option QuicMethod) :
    Tls13State Md where
  server := server
  hit := false
  newCipher := none
  newSymEnc := false
  handshakeBuffer := []
  earlyDataState := .none
  maxEarlyData := 0
  session := ⟨none, 0⟩
  psksession := none
  earlySecret := zeroSecret
  handshakeSecret := zeroSecret
  masterSecret := zeroSecret
  quicMethod := quicMethod
  resumptionMasterSecret := zeroSecret
  clientFinishedSecret := zeroSecret
  serverFinishedSecret := zeroSecret
  serverFinishedHash := zeroSecret
  handshakeTrafficHash := zeroSecret
  clientHandTrafficSecret := zeroSecret
  serverHandTrafficSecret := zeroSecret
  clientEarlyTrafficSecret := zeroSecret
  clientAppTrafficSecret := zeroSecret
  serverAppTrafficSecret := zeroSecret
  exporterMasterSecret := zeroSecret
  earlyExporterMasterSecret := zeroSecret
  quicReadLevel := .initial
  quicWriteLevel := .initial
  encryptionSecrets := []
  recordSecrets := []

variable {Md : Type}

def Tls13State.isQuic (s : Tls13State Md) : Bool := s.quicMethod.isSome

def HandshakeState.handshakeMd (s : HandshakeState Md) : Option Md := s.newCipher.bind (·.md)

variable (K : Kdf Md) (h : HandshakeState Md) (s : Tls13State Md)

/-! ### Derivations -/

/-- `tls13_hkdf_expand` with `fatal` set. -/
def tls13HkdfExpand (md : Md) (secret label : Bytes) (data : Option Bytes) (outlen : Nat) :
    Except SslReason Bytes :=
  if tls13MaxLabelLen < label.length then throw .internalError
  else pure (K.expandLabel md secret label data outlen)

def tls13DeriveFinishedkey (md : Md) (secret : Bytes) : Except SslReason Bytes :=
  tls13HkdfExpand K md secret finishedLabel none (K.size md)

/-- The cipher whose digest hashes the early transcript: the session's, or that of an external PSK.
`null` is the reason reported when there is none. -/
def earlyCipher (null : SslReason) : Except SslReason (SslCipher Md) :=
  let sslcipher : Except SslReason (Option (SslCipher Md)) :=
    if h.earlyDataState = .connecting ∧ 0 < h.maxEarlyData ∧ h.session.maxEarlyData = 0 then
      match h.psksession with
      | some psk =>
        if h.maxEarlyData = psk.maxEarlyData then pure psk.cipher else throw .internalError
      | none => throw .internalError
    else pure h.session.cipher
  sslcipher >>= fun
    | some c => pure c
    | none => throw null

/-- The digest of the handshake so far, before a cipher suite is selected. -/
def earlyHash : Except SslReason (SslCipher Md × Md × Bytes) :=
  if h.handshakeBuffer = [] then throw .badHandshakeLength
  else do
    let sslcipher ← earlyCipher h .badPsk
    match sslcipher.md with
    | some md => pure (sslcipher, md, K.digest md h.handshakeBuffer)
    | none => throw .internalError

def sslHandshakeHash : Except SslReason (Md × Bytes) :=
  match h.handshakeMd with
  | some md => pure (md, K.digest md h.handshakeBuffer)
  | none => throw .noSuitableDigestAlgorithm

/-! ### QUIC -/

/-- The secrets of a level from the point of view of the client; there are none to set for the
initial level. -/
def Tls13State.quicSecrets (s : Tls13State Md) : EncryptionLevel → Option (Bytes × Option Bytes)
  | .initial => none
  | .earlyData => some (s.clientEarlyTrafficSecret, none)
  | .handshake => some (s.clientHandTrafficSecret, s.serverHandTrafficSecret)
  | .application => some (s.clientAppTrafficSecret, s.serverAppTrafficSecret)

/-- The callback's arguments, by role. -/
def secretPair (server : Bool) (level : EncryptionLevel) (c2s s2c : Option Bytes) : QuicSecrets :=
  if server then ⟨level, c2s, s2c⟩ else ⟨level, s2c, c2s⟩

/-- The digest that gives the secrets' length; the cipher may not have been selected yet. -/
def quicSecretsMd (level : EncryptionLevel) : Except SslReason (Option Md) :=
  if level = .earlyData then (·.md) <$> earlyCipher h .internalError
  else pure (h.handshakeMd <|> h.session.cipher.bind (·.md))

def quicSetEncryptionSecrets (level : EncryptionLevel) : Except SslReason (Tls13State Md) :=
  match s.quicMethod, s.quicSecrets level with
  | some method, some (c2s, s2c) => do
    match ← quicSecretsMd s.toHandshakeState level with
    | none => throw .internalError
    | some md =>
      let p := secretPair s.server level c2s s2c
      if method.setEncryptionSecrets level p.readSecret p.writeSecret (K.size md) then
        pure { s with encryptionSecrets := s.encryptionSecrets ++ [p] }
      else throw .internalError
  | _, _ => pure s

/-- The level of the keys the server writes with: the server's write level, the client's read
level. -/
def Tls13State.setServerLevel (level : EncryptionLevel) : Tls13State Md :=
  if s.server then { s with quicWriteLevel := level } else { s with quicReadLevel := level }

def Tls13State.setClientLevel (level : EncryptionLevel) : Tls13State Md :=
  if s.server then { s with quicReadLevel := level } else { s with quicWriteLevel := level }

/-- The digest and the hash of the transcript that an event uses. -/
def eventHash (which : Which) : Except SslReason (Md × Bytes) :=
  if which.epoch = .early then (·.2) <$> earlyHash K h else sslHandshakeHash K h

/-- The secrets of both directions are derived at once, since there is no event between the
server's and the client's first encrypted messages. -/
def quicDeriveSecrets (epoch : Epoch) (md : Md) (hash : Bytes) :
    Except SslReason (EncryptionLevel × Tls13State Md) :=
  if epoch = .handshake then do
    let client ←
      tls13HkdfExpand K md s.handshakeSecret clientHandshakeTraffic hash (K.size md)
    let clientFinished ← tls13DeriveFinishedkey K md client
    let server ←
      tls13HkdfExpand K md s.handshakeSecret serverHandshakeTraffic hash (K.size md)
    let serverFinished ← tls13DeriveFinishedkey K md server
    pure (.handshake, { s with
      clientHandTrafficSecret := client, clientFinishedSecret := clientFinished
      serverHandTrafficSecret := server, serverFinishedSecret := serverFinished })
  else do
    let client ←
      tls13HkdfExpand K md s.masterSecret clientApplicationTraffic hash (K.size md)
    let server ←
      tls13HkdfExpand K md s.masterSecret serverApplicationTraffic hash (K.size md)
    pure (.application, { s with
      clientAppTrafficSecret := client, serverAppTrafficSecret := server })

def quicChangeCipherState (which : Which) : Except SslReason (Tls13State Md) := do
  let (md, hash) ← eventHash K s.toHandshakeState which
  if which.isServerKeys then do
    let (level, s) ← quicDeriveSecrets K s which.epoch md hash
    let s ← quicSetEncryptionSecrets K s level
    pure (s.setServerLevel level)
  else
    match which.epoch with
    | .early => do
      let client ← tls13HkdfExpand K md s.earlySecret clientEarlyTraffic hash (K.size md)
      quicSetEncryptionSecrets K { s with clientEarlyTrafficSecret := client } .earlyData
    | .handshake => pure (s.setClientLevel .handshake)
    | .application => do
      let res ←
        tls13HkdfExpand K md s.masterSecret resumptionMasterSecretLabel hash (K.size md)
      pure ({ s with resumptionMasterSecret := res }.setClientLevel .application)

/-! ### TLS -/

/-- The label of the traffic secret; the code tells the five apart by their addresses. -/
inductive TrafficLabel where
  | clientEarly
  | clientHandshake
  | clientApplication
  | serverHandshake
  | serverApplication
  deriving DecidableEq, Repr

def TrafficLabel.bytes : TrafficLabel → Bytes
  | clientEarly => clientEarlyTraffic
  | clientHandshake => clientHandshakeTraffic
  | clientApplication => clientApplicationTraffic
  | serverHandshake => serverHandshakeTraffic
  | serverApplication => serverApplicationTraffic

/-- What the first part of `tls13_change_cipher_state` selects. -/
structure TrafficKeys where
  insecret : Bytes
  label : TrafficLabel
  /-- the hash saved earlier, when the transcript has moved on since -/
  savedHash : Option Bytes
  /-- whose finished key is derived as well -/
  finsecret : Option Side

def selectTrafficKeys (which : Which) : TrafficKeys :=
  if which.isServerKeys then
    match which.epoch with
    | .handshake => ⟨s.handshakeSecret, .serverHandshake, none, some .server⟩
    | _ => ⟨s.masterSecret, .serverApplication, none, none⟩
  else
    match which.epoch with
    | .early => ⟨s.earlySecret, .clientEarly, none, none⟩
    | .handshake => ⟨s.handshakeSecret, .clientHandshake, some s.handshakeTrafficHash, some .client⟩
    | .application => ⟨s.masterSecret, .clientApplication, some s.serverFinishedHash, none⟩

/-- The digest, the hash of the transcript and whether there is a cipher. For early data the
exporter secret is derived here. -/
def tls13TranscriptHash (which : Which) (k : TrafficKeys) :
    Except SslReason (Tls13State Md × Md × Bytes × Bool) :=
  if which.epoch = .early then
    -- early data never applies to the server's keys: no digest and no cipher is found then
    if which.isServerKeys then throw .internalError
    else do
      let (sslcipher, md, hashval) ← earlyHash K s.toHandshakeState
      if sslcipher.evpCipher then do
        let exp ←
          tls13HkdfExpand K md k.insecret earlyExporterMasterSecretLabel hashval (K.size md)
        pure ({ s with earlyExporterMasterSecret := exp }, md, hashval, true)
      else throw .internalError
  else do
    let (md, hashval) ← sslHandshakeHash K s.toHandshakeState
    pure (s, md, hashval, s.newSymEnc)

/-- The hash is saved for the events that come when the transcript has moved on. The resumption
secret, unlike the client's traffic secret, is over the whole handshake. -/
def tls13SaveHash (k : TrafficKeys) (md : Md) (hashval : Bytes) :
    Except SslReason (Tls13State Md) :=
  match k.label with
  | .serverApplication => pure { s with serverFinishedHash := hashval }
  | .serverHandshake => pure { s with handshakeTrafficHash := hashval }
  | .clientApplication => do
    let res ← tls13HkdfExpand K md k.insecret resumptionMasterSecretLabel hashval (K.size md)
    pure { s with resumptionMasterSecret := res }
  | _ => pure s

/-- The traffic secret and what is derived besides it. -/
def tls13StoreSecret (k : TrafficKeys) (md : Md) (hash secret : Bytes) :
    Except SslReason (Tls13State Md) := do
  let s ← match k.label with
    | .serverApplication => do
      let exp ← tls13HkdfExpand K md k.insecret exporterMasterSecretLabel hash (K.size md)
      pure { s with serverAppTrafficSecret := secret, exporterMasterSecret := exp }
    | .clientApplication => pure { s with clientAppTrafficSecret := secret }
    | _ => pure s
  match k.finsecret with
  | some .client =>
    pure { s with clientFinishedSecret := ← tls13DeriveFinishedkey K md secret }
  | some .server =>
    pure { s with serverFinishedSecret := ← tls13DeriveFinishedkey K md secret }
  | none => pure s

def tls13ChangeCipherState (which : Which) : Except SslReason (Tls13State Md) :=
  if s.isQuic then quicChangeCipherState K s which
  else do
    let k := selectTrafficKeys s which
    let (s, md, hashval, cipher) ← tls13TranscriptHash K s which k
    let hash := k.savedHash.getD hashval
    let s ← tls13SaveHash K s k md hashval
    if cipher then do
      let secret ← tls13HkdfExpand K md k.insecret k.label.bytes hash (K.size md)
      let s ← tls13StoreSecret K s k md hash secret
      pure { s with recordSecrets := s.recordSecrets ++ [⟨which.dir, which.epoch, secret⟩] }
    else throw .internalError

/-! ### Secrets of the handshake and of the application -/

def tls13SetupKeyBlock : Except SslReason (HandshakeState Md) :=
  match h.newCipher with
  | some c =>
    if c.evpCipher then
      pure { h with session := { h.session with cipher := h.newCipher }, newSymEnc := true }
    else throw .internalError
  | none => throw .internalError

def tls13GenerateHandshakeSecret (insecret : Option Bytes) : Except SslReason (HandshakeState Md) :=
  match h.handshakeMd with
  | none => throw .internalError
  | some md => pure { h with handshakeSecret := K.extract md (some h.earlySecret) insecret }

/-- `ssl_gensecret`: when resuming, the early secret exists already. -/
def sslGensecret (pms : Bytes) : Except SslReason (HandshakeState Md) :=
  match h.handshakeMd with
  | none => throw .internalError
  | some md =>
    let h := if h.hit then h else { h with earlySecret := K.extract md none none }
    tls13GenerateHandshakeSecret K h pms

def tls13GenerateMasterSecret : Except SslReason (HandshakeState Md) :=
  match h.handshakeMd with
  | none => throw .internalError
  | some md => pure { h with masterSecret := K.extract md (some h.handshakeSecret) none }

/-- The exporter: HKDF-Expand-Label of the label and the empty hash, then of the context's hash. -/
def tls13Exporter (md : Md) (secret label context : Bytes) (olen : Nat) : Except SslReason Bytes :=
  if tls13MaxLabelLen < label.length then throw .tlsIllegalExporterLabel
  else
    let exportsecret := K.expandLabel md secret label (K.digest md []) (K.size md)
    pure (K.expandLabel md exportsecret exporterLabel (K.digest md context) olen)

/-- `tls13_export_keying_material`, in a state in which exporting is allowed. -/
def tls13ExportKeyingMaterial (label : Bytes) (context : Option Bytes) (olen : Nat) :
    Except SslReason Bytes :=
  match s.handshakeMd with
  | none => throw .internalError
  | some md => tls13Exporter K md s.exporterMasterSecret label (context.getD []) olen

def tls13ExportKeyingMaterialEarly (label context : Bytes) (olen : Nat) : Except SslReason Bytes :=
  let sslcipher :=
    if !s.server ∧ 0 < s.maxEarlyData ∧ s.session.maxEarlyData = 0 then
      s.psksession.bind (·.cipher)
    else s.session.cipher
  match sslcipher.bind (·.md) with
  | none => throw .internalError
  | some md => tls13Exporter K md s.earlyExporterMasterSecret label context olen

/-! ### Updating the traffic secrets -/

/-- The application traffic secret of the direction in which the connection sends, or of the other
one. -/
def Tls13State.appTrafficSecret (sending : Bool) : Bytes :=
  if s.server = sending then s.serverAppTrafficSecret else s.clientAppTrafficSecret

/-- The secret that the record layer of a direction was built from. -/
def Tls13State.recordLayer (dir : Direction) : Option Bytes :=
  (s.recordSecrets.filter (·.dir = dir)).getLast?.map (·.secret)

def tls13UpdateKey (sending : Bool) : Except SslReason (Tls13State Md) :=
  match s.handshakeMd with
  | none => throw .internalError
  | some md => do
    let dir : Direction := if sending then .write else .read
    let secret ←
      tls13HkdfExpand K md (s.appTrafficSecret sending) applicationTraffic none (K.size md)
    let s := if s.server = sending then { s with serverAppTrafficSecret := secret }
      else { s with clientAppTrafficSecret := secret }
    pure { s with recordSecrets := s.recordSecrets ++ [⟨dir, .application, secret⟩] }

end QuicTls
