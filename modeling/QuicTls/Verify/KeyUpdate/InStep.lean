import QuicTls.Verify.KeyUpdate.Endpoint

/-!
# KeyUpdate keeps the two ends in step

Whatever the two ends do, each record is read with the secret it was written with: the initial
traffic secret, updated once for each KeyUpdate message that was written before it
(`keyUpdate_inStep`).
-/

namespace QuicTls

variable {Md : Type} {K : Kdf Md} {md : Md} {secret back : Bytes} {p q : Endpoint Md}

/-- A TLS 1.3 connection after its handshake. -/
structure Established (md : Md) (server : Bool) (s : Statem) (k : Tls13State Md)
    (writeSecret readSecret : Bytes) : Prop where
  statemRole : s.server = server
  keysRole : k.server = server
  isTls13 : s.isTls13 = true
  notQuic : s.isQuic = false
  flow : s.flow = .finished
  handState : s.handState = .ok
  inInit : s.inInit = false
  renegotiate : s.renegotiate = false
  keyUpdate : s.keyUpdate = .none
  keys : Keys md k writeSecret readSecret

/-- What holds of one direction, from `p` to `q`, whose initial secret is `secret`. -/
structure InStep (K : Kdf Md) (md : Md) (secret : Bytes) (p q : Endpoint Md) : Prop where
  inOrder : q.read.map Prod.fst <+: p.written
  /-- a record is written in the epoch that the KeyUpdate messages before it have led to -/
  written : ∀ pre r post, p.written = pre ++ r :: post →
    r.secret = some ((trafficUpdate K md)^[updates pre] secret)
  /-- and it is read in that epoch -/
  read : ∀ pre r used post, q.read = pre ++ (r, used) :: post →
    used = some ((trafficUpdate K md)^[updates (pre.map Prod.fst)] secret) ∧ r.secret = used
  /-- the generation of the secret that `p` sends with -/
  sendSecret : p.keys.recordLayer .write = some ((trafficUpdate K md)^[p.sent] secret)
  sent : Endpoint.Counted .unflushed p.statem.phase (updates p.written) p.sent
  /-- the generation of the secret that `q` receives with -/
  receiveSecret : q.keys.recordLayer .read = some ((trafficUpdate K md)^[q.processed] secret)
  processed : Endpoint.Counted .unprocessed q.statem.phase (updates (q.read.map Prod.fst))
    q.processed
  replies : p.replies ≤ p.requests
  requests : p.requests ≤ requests (p.read.map Prod.fst)
  /-- each KeyUpdate message goes back to a call of `SSL_key_update` at one of the ends -/
  noLoop : updates p.written ≤ p.calls + q.calls

/-- The invariant of the two ends. -/
structure Linked (K : Kdf Md) (md : Md) (secret back : Bytes) (p q : Endpoint Md) : Prop where
  secrets : p.Secrets K md secret back
  peerSecrets : q.Secrets K md back secret
  accounts : p.Accounts
  peerAccounts : q.Accounts
  reads : p.read.map Prod.fst <+: q.written
  peerReads : q.read.map Prod.fst <+: p.written

theorem Linked.symm (h : Linked K md secret back p q) : Linked K md back secret q p :=
  ⟨h.peerSecrets, h.secrets, h.peerAccounts, h.accounts, h.peerReads, h.reads⟩

theorem Linked.step (h : Linked K md secret back p q) (e : EndpointEvent) :
    Linked K md secret back (p.step K q e) q := by
  have he := Endpoint.effect_step (K := K) h.secrets.composing h.secrets.keys q e
  exact { h with
    secrets := h.secrets.step he
    accounts := h.accounts.step he
    reads := he.read_prefix h.reads
    peerReads := h.peerReads.trans he.written_prefix }

theorem requests_le_of_prefix {rs rs' : List Record} (h : rs <+: rs') :
    requests rs ≤ requests rs' := h.sublist.countP_le

/-- Each record is read under the secret it was written under. -/
theorem Linked.inStep (h : Linked K md secret back p q) : InStep K md secret p q where
  inOrder := h.peerReads
  written := h.secrets.written
  read pre r used post hq := by
    have hused := h.peerSecrets.read pre (r, used) post hq
    refine ⟨hused, ?_⟩
    obtain ⟨rest, hrest⟩ := h.peerReads
    rw [hq, List.map_append, List.map_cons, List.append_assoc] at hrest
    exact (h.secrets.written _ r _ hrest.symm).trans hused.symm
  sendSecret := h.secrets.keys.writeLayer
  sent := h.secrets.sent
  receiveSecret := h.peerSecrets.keys.readLayer
  processed := h.peerSecrets.processed
  replies := by
    have := h.accounts.replies
    omega
  requests := by
    have := h.accounts.requests
    omega
  noLoop := by
    have hwritten := h.accounts.written
    have hrequests := h.accounts.requests
    have hreads := requests_le_of_prefix h.reads
    have hcalls := h.peerAccounts.calls
    omega

theorem secrets_new {server : Bool} {s : Statem} {k : Tls13State Md}
    (h : Established md server s k secret back) : (Endpoint.new s k).Secrets K md secret back where
  composing := .of_apart (show s.flow.Apart by rw [h.flow]; trivial)
  keys := h.keys
  sent :=
    Endpoint.counted_of_eq rfl (by show s.phase ≠ _; simp only [Statem.phase, h.flow]; rintro ⟨⟩)
  written := Endpoint.ordered_nil
  processed :=
    Endpoint.counted_of_eq rfl (by show s.phase ≠ _; simp only [Statem.phase, h.flow]; rintro ⟨⟩)
  read := Endpoint.ordered_nil

theorem accounts_new {server : Bool} {s : Statem} {k : Tls13State Md}
    (h : Established md server s k secret back) : (Endpoint.new s k).Accounts := by
  have hidle : s.phase = .idle := by simp only [Statem.phase, h.flow]
  constructor
  · exact fun hne => absurd h.keyUpdate hne
  · intro hreq
    cases h.keyUpdate.symm.trans hreq
  all_goals
    simp [Endpoint.new, hidle, updates, requests]

def Statem.afterHandshake (server : Bool) : Statem :=
  { Statem.sslNew server false false .sslCtxNew with
    version := some .tls1_3, flow := .finished, handState := .ok, inInit := false }

def Tls13State.afterHandshake (server : Bool) (clientSecret serverSecret : Bytes) :
    Tls13State Unit :=
  { Tls13State.new Unit server none with
    newCipher := some ⟨some (), true⟩
    clientAppTrafficSecret := clientSecret
    serverAppTrafficSecret := serverSecret
    recordSecrets :=
      [⟨.write, .application, if server then serverSecret else clientSecret⟩,
       ⟨.read, .application, if server then clientSecret else serverSecret⟩] }

/-- The state machine writes the KeyUpdate message that is due. -/
def updateEvents (side : Side) (enter : StatemEvent) : List (Side × EndpointEvent) :=
  [enter, .transition false true, .preWork (.done false) true true, .send, .postWork (.done false),
    .transition false true, .preWork (.done false) true true].map fun e => (side, .machine e)

def messageBody : Body := ⟨true, false, .unsettled, false, false, false, false⟩

/-- The state machine reads a message. -/
def messageEvents (side : Side) : List (Side × EndpointEvent) :=
  [(side, .machine (.record true)), (side, .machine (.transition false true)),
    (side, .receive true true), (side, .machine (.body messageBody)),
    (side, .machine (.transition false true)),
    (side, .machine (.preWork (.done false) true true))]

def simultaneousUpdates : List (Side × EndpointEvent) :=
  let ask (side : Side) : List (Side × EndpointEvent) :=
    (side, .machine (.keyUpdate .requested)) :: updateEvents side (.call (some true) true)
  ask .client ++ ask .server ++ messageEvents .client ++ messageEvents .server
    ++ updateEvents .client (.writeDue true) ++ updateEvents .server (.writeDue true)
    ++ messageEvents .client ++ messageEvents .server
    ++ [(.client, .write), (.server, .receive true true)]

theorem established_afterHandshake (server : Bool) (clientSecret serverSecret : Bytes) :
    Established () server (.afterHandshake server)
      (.afterHandshake server clientSecret serverSecret)
      (if server then serverSecret else clientSecret)
      (if server then clientSecret else serverSecret) := by
  cases server <;> exact ⟨rfl, rfl, rfl, rfl, rfl, rfl, rfl, rfl, rfl, ⟨rfl, rfl, rfl, rfl, rfl⟩⟩

/-- For every interleaving of what the two ends do. -/
theorem keyUpdate_inStep {client server : Statem} {clientKeys serverKeys : Tls13State Md}
    {clientSecret serverSecret : Bytes}
    (hclient : Established md false client clientKeys clientSecret serverSecret)
    (hserver : Established md true server serverKeys serverSecret clientSecret)
    (es : List (Side × EndpointEvent)) :
    let n := es.foldl (Connection.step K) ⟨.new client clientKeys, .new server serverKeys⟩
    InStep K md clientSecret n.client n.server ∧ InStep K md serverSecret n.server n.client := by
  intro n
  have hinit : Linked K md clientSecret serverSecret (.new client clientKeys)
      (.new server serverKeys) :=
    ⟨secrets_new hclient, secrets_new hserver, accounts_new hclient, accounts_new hserver,
      List.nil_prefix, List.nil_prefix⟩
  have hn : Linked K md clientSecret serverSecret n.client n.server := by
    refine List.foldlRecOn es (Connection.step K)
      (motive := fun n => Linked K md clientSecret serverSecret n.client n.server)
      (b := ⟨.new client clientKeys, .new server serverKeys⟩) hinit ?_
    rintro n h ⟨side, e⟩ -
    cases side with
    | client => exact h.step e
    | server => exact (h.symm.step e).symm
  exact ⟨hn.inStep, hn.symm.inStep⟩

theorem keyUpdate_inStep_simultaneous :
    let n := simultaneousUpdates.foldl (Connection.step (Kdf.concat Unit))
      ⟨.new (.afterHandshake false) (.afterHandshake false [1] [2]),
        .new (.afterHandshake true) (.afterHandshake true [1] [2])⟩
    (n.client.sent = 2 ∧ n.server.processed = 2 ∧ n.client.replies = 1 ∧ n.server.replies = 1
      ∧ n.server.read.length = 3)
      ∧ InStep (Kdf.concat Unit) () [1] n.client n.server
      ∧ InStep (Kdf.concat Unit) () [2] n.server n.client :=
  ⟨by decide +kernel, keyUpdate_inStep (established_afterHandshake false [1] [2])
      (established_afterHandshake true [1] [2]) simultaneousUpdates⟩

end QuicTls
