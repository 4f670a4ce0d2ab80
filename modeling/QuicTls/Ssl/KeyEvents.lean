import QuicTls.Ssl.Tls13Enc

/-!
# The key schedule of a handshake

`KeyOp` lists what the state machines do to the state of the key schedule, and `handshakeOps` the
order in which one handshake does it: the calls of the change-cipher functions in
ssl/statem/statem_srvr.c (`ossl_statem_server_post_work`, `tls_process_end_of_early_data`),
ssl/statem/statem_clnt.c (`ossl_statem_client_post_work`, `tls_process_server_hello`,
`tls_construct_client_certificate`), ssl/statem/statem_lib.c (`tls_process_finished`,
`tls_construct_finished`) and ssl/statem/extensions.c (`final_early_data`), and the places where the
suite (`tls_early_post_process_client_hello`, `set_client_ciphersuite`) and the PSK
(`tls_parse_ctos_psk`, `tls_parse_stoc_psk`) are chosen.
-/

namespace QuicTls

inductive KeyOp (Md : Type) where
  /-- `ssl3_finish_mac`: a message enters the transcript -/
  | finishMac (buf : Bytes)
  /-- `create_synthetic_message_hash`, with the hash of the first ClientHello if it is known -/
  | createSyntheticMessageHash (hashval : Option Bytes) (hrr : Bytes)
  /-- the cipher suite is chosen -/
  | chooseCipher (cipher : SslCipher Md)
  /-- a PSK is chosen, with the early secret that its binder was computed from -/
  | selectPsk (session : SslSession Md) (earlySecret : Bytes)
  /-- the handshake secret is generated, without a key share or from the shared secret -/
  | gensecret (pms : Option Bytes)
  | setupKeyBlock
  | generateMasterSecret
  | changeCipherState (which : Which)

variable {Md : Type} (K : Kdf Md)

def clientHelloHash (h : HandshakeState Md) : Option Bytes → Except SslReason Bytes
  | some hash => pure hash
  | none => (·.2) <$> sslHandshakeHash K h

def createSyntheticMessageHash (h : HandshakeState Md) (hashval : Option Bytes) (hrr : Bytes) :
    Except SslReason (HandshakeState Md) := do
  let hash ← clientHelloHash K h hashval
  let msghdr : Bytes := [254, 0, 0, UInt8.ofNat hash.length]
  pure { h with handshakeBuffer := msghdr ++ hash ++ hrr }

def handshakeStep (h : HandshakeState Md) : KeyOp Md → Except SslReason (HandshakeState Md)
  | .finishMac buf => pure { h with handshakeBuffer := h.handshakeBuffer ++ buf }
  | .createSyntheticMessageHash hashval hrr => createSyntheticMessageHash K h hashval hrr
  | .chooseCipher cipher => pure { h with newCipher := some cipher }
  | .selectPsk session earlySecret => pure { h with
      hit := true, session := session, psksession := none, earlySecret := earlySecret }
  | .gensecret none => tls13GenerateHandshakeSecret K h none
  | .gensecret (some pms) => sslGensecret K h pms
  | .setupKeyBlock => tls13SetupKeyBlock h
  | .generateMasterSecret => tls13GenerateMasterSecret K h
  | .changeCipherState _ => pure h

def keyStep (s : Tls13State Md) (op : KeyOp Md) : Except SslReason (Tls13State Md) :=
  match op with
  | .changeCipherState which => tls13ChangeCipherState K s which
  | op => (fun h => { s with toHandshakeState := h }) <$> handshakeStep K s.toHandshakeState op

def keyRun (s : Tls13State Md) (ops : List (KeyOp Md)) : Except SslReason (Tls13State Md) :=
  ops.foldlM (keyStep K) s

/-- The event that installs the keys the server writes with. -/
def serverKeys (server : Bool) (epoch : Epoch) : Which :=
  if server then ⟨epoch, .server, .write⟩ else ⟨epoch, .client, .read⟩

/-- The event that installs the keys the client writes with. -/
def clientKeys (server : Bool) (epoch : Epoch) : Which :=
  if server then ⟨epoch, .server, .read⟩ else ⟨epoch, .client, .write⟩

/-- What distinguishes one handshake's key schedule from another's. -/
structure Handshake (Md : Type) where
  /-- early data keys are installed -/
  early : Bool
  /-- the client's handshake keys are installed late: because the server accepted early data, or
  because the client tried it or sends a dummy ChangeCipherSpec -/
  deferred : Bool
  /-- a HelloRetryRequest came first; the suite it names has to be that of the ServerHello -/
  retry : Bool
  psk : Option (SslSession Md × Bytes)
  cipher : SslCipher Md
  pms : Option Bytes

/-- The operations of a handshake on either side, apart from those on the transcript. -/
def handshakeOps (server : Bool) (h : Handshake Md) : List (KeyOp Md) :=
  let early := if h.early then [.changeCipherState (clientKeys server .early)] else []
  let retry := if h.retry then [.chooseCipher h.cipher] else []
  let psk := h.psk.toList.map fun (session, earlySecret) => .selectPsk session earlySecret
  -- a server chooses the suite and the PSK before it accepts early data; a client installs its
  -- early keys after the first ClientHello and learns of the server's choice later
  (if server then retry ++ [.chooseCipher h.cipher] ++ psk ++ early
    else early ++ retry ++ psk ++ [.chooseCipher h.cipher]) ++
  [.gensecret h.pms, .setupKeyBlock, .changeCipherState (serverKeys server .handshake)] ++
  (if h.deferred then [] else [.changeCipherState (clientKeys server .handshake)]) ++
  [.generateMasterSecret, .changeCipherState (serverKeys server .application)] ++
  (if h.deferred then [.changeCipherState (clientKeys server .handshake)] else []) ++
  [.changeCipherState (clientKeys server .application)]

/-- The change-cipher events among the operations. -/
def KeyOp.event? : KeyOp Md → Option Which
  | .changeCipherState which => some which
  | _ => none

/-- Everything but the transcript. -/
def KeyOp.isKeyOp : KeyOp Md → Bool
  | .finishMac _ | .createSyntheticMessageHash _ _ => false
  | _ => true

end QuicTls
