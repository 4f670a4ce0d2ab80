import Mathlib.Data.List.Basic
import QuicTls.Verify.KeySchedule.Effect

/-!
# The QUIC key schedule agrees with the TLS 1.3 one

`quicChangeCipherState` derives the secrets of both directions at the events that install the
server's keys, from the transcript of that moment; `tls13ChangeCipherState` derives each secret at
its own event, from a hash it saved when the transcript has moved on. `Agree` relates the states of
the two after the same operations, and is kept as long as the operations come in an order the state
machines can produce (`Ordered`); `quic_keySchedule_agrees` is what follows for the secrets.
-/

namespace QuicTls

open List

variable {Md : Type} {K : Kdf Md} {q q' t t' : Tls13State Md} {md : Md} {which : Which}
  {ops : List (KeyOp Md)} {op : KeyOp Md}

/-! ### The events of a role -/

section Events

variable (b : Bool) (e e' : Epoch)

@[simp] theorem isServerKeys_serverKeys : (serverKeys b e).isServerKeys = true := by
  cases b <;> rfl

@[simp] theorem isServerKeys_clientKeys : (clientKeys b e).isServerKeys = false := by
  cases b <;> rfl

@[simp] theorem epoch_serverKeys : (serverKeys b e).epoch = e := by cases b <;> rfl

@[simp] theorem epoch_clientKeys : (clientKeys b e).epoch = e := by cases b <;> rfl

@[simp] theorem serverKeys_inj : serverKeys b e = serverKeys b e' ↔ e = e' :=
  ⟨fun h => by simpa using congrArg Which.epoch h, fun h => by rw [h]⟩

@[simp] theorem clientKeys_inj : clientKeys b e = clientKeys b e' ↔ e = e' :=
  ⟨fun h => by simpa using congrArg Which.epoch h, fun h => by rw [h]⟩

@[simp] theorem serverKeys_ne_clientKeys : serverKeys b e ≠ clientKeys b e' := fun h => by
  simpa using congrArg Which.isServerKeys h

@[simp] theorem clientKeys_ne_serverKeys : clientKeys b e ≠ serverKeys b e' := fun h => by
  simpa using congrArg Which.isServerKeys h

end Events

variable {b : Bool} {done : List Which}

/-- An event of a connection in role `b`, after those that it depends on. -/
def Caused (b : Bool) (done : List Which) (which : Which) : Prop :=
  which = clientKeys b .early ∨ which = serverKeys b .handshake ∨
  which = clientKeys b .handshake ∧ serverKeys b .handshake ∈ done ∨
  which = serverKeys b .application ∧ serverKeys b .handshake ∈ done ∨
  which = clientKeys b .application ∧ serverKeys b .application ∈ done

theorem Caused.append (h : Caused b done which) (done' : List Which) :
    Caused b (done ++ done') which := by
  unfold Caused at *
  simp only [mem_append]
  tauto

/-- What may come next: the inputs of a secret do not change between the two events that derive
it. -/
def Allowed (b : Bool) (done : List Which) : KeyOp Md → Prop
  | .finishMac _ | .createSyntheticMessageHash _ _ | .setupKeyBlock => True
  | .chooseCipher _ | .selectPsk _ _ | .gensecret _ => serverKeys b .handshake ∉ done
  | .generateMasterSecret => serverKeys b .application ∉ done
  | .changeCipherState which => which ∉ done ∧ Caused b done which

def Ordered (b : Bool) : List Which → List (KeyOp Md) → Prop
  | _, [] => True
  | done, op :: ops => Allowed b done op ∧ Ordered b (done ++ op.event?.toList) ops

/-- The transcript may change anywhere. -/
theorem Ordered.of_filter (h : Ordered b done (ops.filter KeyOp.isKeyOp)) : Ordered b done ops := by
  induction ops generalizing done with
  | nil => exact h
  | cons op ops ih =>
    cases hop : op.isKeyOp with
    | true =>
      rw [filter_cons_of_pos hop] at h
      exact ⟨h.1, ih h.2⟩
    | false =>
      cases op with
      | finishMac _ | createSyntheticMessageHash _ _ =>
        exact ⟨trivial, by simpa [KeyOp.event?] using ih h⟩
      | _ => cases hop

/-- The handshakes of the state machines come in such an order. -/
theorem handshakeOps_ordered (b : Bool) (h : Handshake Md) : Ordered b [] (handshakeOps b h) := by
  obtain ⟨early, deferred, retry, psk, cipher, pms⟩ := h
  cases b <;> cases early <;> cases deferred <;> cases retry <;> cases psk <;>
    simp [handshakeOps, Ordered, Allowed, Caused, KeyOp.event?]

/-! ### Agreement -/

variable {h : HandshakeState Md} {hash : Bytes}

theorem eventHash_md (he : which.epoch ≠ .early)
    (hh : eventHash K h which = .ok (md, hash)) : h.handshakeMd = some md := by
  rw [eventHash, if_neg he, sslHandshakeHash] at hh
  split at hh
  · cases hh; assumption
  · cases hh

theorem eventHash_digest {which : Which} {md : Md}
    (hh : eventHash K h which = .ok (md, hash)) : hash = K.digest md h.handshakeBuffer := by
  by_cases he : which.epoch = .early
  · rw [eventHash, if_pos he, earlyHash] at hh
    split at hh
    · cases hh
    cases hc : earlyCipher h .badPsk with
    | error e => rw [hc] at hh; cases hh
    | ok c =>
      rw [hc] at hh
      dsimp only [bind, Except.bind] at hh
      cases hmd : c.md with
      | none => rw [hmd] at hh; cases hh
      | some md' => rw [hmd] at hh; cases hh; rfl
  · rw [eventHash, if_neg he, sslHandshakeHash] at hh
    split at hh <;> cases hh
    rfl

/-- The secret that an event installs. -/
def secretOf (q : Tls13State Md) (which : Which) : Bytes :=
  match which.isServerKeys, which.epoch with
  | true, .handshake => q.serverHandTrafficSecret
  | true, _ => q.serverAppTrafficSecret
  | false, .early => q.clientEarlyTrafficSecret
  | false, .handshake => q.clientHandTrafficSecret
  | false, .application => q.clientAppTrafficSecret

def recordOf (q : Tls13State Md) (which : Which) : RecordSecret :=
  ⟨which.dir, which.epoch, secretOf q which⟩

/-- The callback an event makes, if it makes one. -/
def pairOf (b : Bool) (q : Tls13State Md) (which : Which) : Option QuicSecrets :=
  match which.isServerKeys, which.epoch with
  | true, .handshake =>
    some (secretPair b .handshake q.clientHandTrafficSecret q.serverHandTrafficSecret)
  | true, _ => some (secretPair b .application q.clientAppTrafficSecret q.serverAppTrafficSecret)
  | false, .early => some (secretPair b .earlyData q.clientEarlyTrafficSecret none)
  | false, _ => none

theorem quicDerive_pairs (md : Md) (hash : Bytes) (which : Which) (q : Tls13State Md) :
    (quicDerive K md hash which q).encryptionSecrets = q.encryptionSecrets ++
      (pairOf q.server (quicDerive K md hash which q) which).toList := by
  unfold quicDerive pairOf
  generalize which.isServerKeys = side
  generalize which.epoch = epoch
  cases side <;> cases epoch <;> simp

/-- The connection is in state `s₁` when it comes to the event. -/
def StateAt (K : Kdf Md) (s : Tls13State Md) (ops : List (KeyOp Md)) (which : Which)
    (s₁ : Tls13State Md) : Prop :=
  ∃ pre post, ops = pre ++ .changeCipherState which :: post ∧ keyRun K s pre = .ok s₁

/-- What a QUIC and a TLS connection hold after an event; `t₀` and `ops` are the state that the TLS
connection started in and its operations. -/
def Installed (K : Kdf Md) (t₀ : Tls13State Md) (ops : List (KeyOp Md)) (q t : Tls13State Md)
    (which : Which) : Prop :=
  match which.isServerKeys, which.epoch with
  | true, .handshake => ∃ md, q.handshakeMd = some md ∧ q.clientHandTrafficSecret =
      K.derive md q.handshakeSecret clientHandshakeTraffic t.handshakeTrafficHash ∧
    q.clientFinishedSecret = K.finishedKey md q.clientHandTrafficSecret ∧
    t.serverFinishedSecret = q.serverFinishedSecret
  | true, _ => ∃ t₁ md, q.handshakeMd = some md ∧ q.clientAppTrafficSecret =
      K.derive md q.masterSecret clientApplicationTraffic t.serverFinishedHash ∧
    t.serverAppTrafficSecret = q.serverAppTrafficSecret ∧
    StateAt K t₀ ops which t₁ ∧ t₁.handshakeMd = some md ∧ t.exporterMasterSecret =
      K.derive md t₁.masterSecret exporterMasterSecretLabel (K.digest md t₁.handshakeBuffer)
  | false, .early => ∃ t₁ md, StateAt K t₀ ops which t₁ ∧
    eventHash K t₁.toHandshakeState which = .ok (md, K.digest md t₁.handshakeBuffer) ∧
    t.earlyExporterMasterSecret = K.derive md t₁.earlySecret earlyExporterMasterSecretLabel
      (K.digest md t₁.handshakeBuffer)
  | false, .handshake => t.clientFinishedSecret = q.clientFinishedSecret
  | false, .application => t.clientAppTrafficSecret = q.clientAppTrafficSecret ∧
    t.resumptionMasterSecret = q.resumptionMasterSecret

/-- The states of a QUIC and a TLS connection, started in `q₀` and `t₀`, after the change-cipher
events `done` and the same operations on the handshake state. -/
structure Agree (K : Kdf Md) (b : Bool) (q₀ t₀ : Tls13State Md) (all : List (KeyOp Md))
    (done : List Which) (q t : Tls13State Md) : Prop where
  handshake : q.toHandshakeState = t.toHandshakeState
  server : q.server = b
  quic : q.quicMethod = q₀.quicMethod
  tls : t.quicMethod = none
  exporter : q.exporterMasterSecret = q₀.exporterMasterSecret
  earlyExporter : q.earlyExporterMasterSecret = q₀.earlyExporterMasterSecret
  caused : ∀ w ∈ done, Caused b done w
  records : t.recordSecrets = t₀.recordSecrets ++ done.map (recordOf q)
  pairs : q.encryptionSecrets = q₀.encryptionSecrets ++ done.filterMap (pairOf b q)
  installed : ∀ w ∈ done, Installed K t₀ all q t w

section Step

variable {q₀ t₀ : Tls13State Md} {all : List (KeyOp Md)}

/-- The levels are no part of the agreement. -/
theorem Agree.quicLevel (h : Agree K b q₀ t₀ all done q t) (which : Which) :
    Agree K b q₀ t₀ all done (quicLevel which q) t := by
  obtain ⟨r, w, heq⟩ := quicLevel_eq which q
  rw [heq]
  exact { h with }

/-- An event leaves alone what was installed by others. -/
theorem Installed.frame {w : Which} (hi : Installed K t₀ all q t w) (hmem : w ∈ done)
    (hc : Caused b done w) (hnew : which ∉ done) (hw : Caused b done which) (md : Md)
    (hash : Bytes) :
    Installed K t₀ all (quicDerive K md hash which q) (tlsEffect K md hash which t) w ∧
      recordOf (quicDerive K md hash which q) w = recordOf q w ∧
      pairOf b (quicDerive K md hash which q) w = pairOf b q w := by
  rcases hc with rfl | rfl | ⟨rfl, hs⟩ | ⟨rfl, hs⟩ | ⟨rfl, hs⟩ <;>
    rcases hw with rfl | rfl | ⟨rfl, -⟩ | ⟨rfl, -⟩ | ⟨rfl, -⟩ <;>
    first
    | exact absurd ‹_› hnew
    | simpa [Installed, recordOf, secretOf, pairOf, quicDerive, tlsEffect] using hi

/-- What the event itself installs. -/
theorem Agree.install (h : Agree K b q₀ t₀ all done q t) (hw : Caused b done which)
    (hh : eventHash K t.toHandshakeState which = .ok (md, hash)) (hat : StateAt K t₀ all which t) :
    Installed K t₀ all (quicDerive K md hash which q) (tlsEffect K md hash which t) which ∧
      (tlsEffect K md hash which t).recordSecrets =
        t.recordSecrets ++ [recordOf (quicDerive K md hash which q) which] := by
  have hmd (he : which.epoch ≠ .early) : t.handshakeMd = some md := eventHash_md he hh
  obtain rfl := eventHash_digest hh
  rcases hw with rfl | rfl | ⟨rfl, hs⟩ | ⟨rfl, hs⟩ | ⟨rfl, hs⟩
  all_goals simp only [Installed, recordOf, secretOf, quicDerive, tlsEffect, h.handshake,
    isServerKeys_serverKeys, isServerKeys_clientKeys, epoch_serverKeys, epoch_clientKeys, and_true,
    true_and]
  case inl => exact ⟨t, md, hat, hh, rfl⟩
  case inr.inl => exact ⟨md, hmd (by simp), rfl, rfl⟩
  case inr.inr.inl =>
    have hi := h.installed _ hs
    simp only [Installed, isServerKeys_serverKeys, epoch_serverKeys, h.handshake] at hi
    obtain ⟨md', hmd', hsec, hfin, -⟩ := hi
    cases (hmd (by simp)).symm.trans hmd'
    rw [hfin, hsec]
    exact ⟨rfl, rfl⟩
  case inr.inr.inr.inl => exact ⟨t, md, hmd (by simp), rfl, hat, hmd (by simp), rfl⟩
  case inr.inr.inr.inr =>
    have hi := h.installed _ hs
    simp only [Installed, isServerKeys_serverKeys, epoch_serverKeys, h.handshake] at hi
    obtain ⟨-, md', hmd', hsec, -⟩ := hi
    cases (hmd (by simp)).symm.trans hmd'
    rw [hsec]
    exact ⟨rfl, rfl⟩

/-- A change-cipher event installs the same secrets on both connections. -/
theorem Agree.stepEvent (h : Agree K b q₀ t₀ all done q t)
    (hop : which ∉ done ∧ Caused b done which) (hat : StateAt K t₀ all which t)
    (hh : eventHash K t.toHandshakeState which = .ok (md, hash)) :
    Agree K b q₀ t₀ all (done ++ [which]) (quicEffect K md hash which q)
      (tlsEffect K md hash which t) := by
  obtain ⟨hnew, hw⟩ := hop
  have hold := fun w hmem =>
    (h.installed w hmem).frame hmem (h.caused w hmem) hnew hw md hash
  obtain ⟨hi, hr⟩ := h.install hw hh hat
  have hq := quicDerive_frame (K := K) md hash which q
  have ht := tlsEffect_frame (K := K) md hash which t
  refine Agree.quicLevel ?_ which
  exact {
    handshake := by rw [hq.1, h.handshake, ht.1]
    server := by rw [hq.1, h.server]
    quic := hq.2.1.trans h.quic
    tls := ht.2.1.trans h.tls
    exporter := hq.2.2.1.trans h.exporter
    earlyExporter := hq.2.2.2.1.trans h.earlyExporter
    caused := forall_mem_append.mpr
      ⟨fun w hmem => (h.caused w hmem).append _, forall_mem_singleton.mpr (hw.append _)⟩
    records := by
      rw [hr, h.records, map_append, map_congr_left fun w hmem => (hold w hmem).2.1,
        append_assoc, map_singleton]
    pairs := by
      rw [quicDerive_pairs, h.pairs, h.server, filterMap_append,
        filterMap_congr fun w hmem => (hold w hmem).2.2]
      cases hp : pairOf b (quicDerive K md hash which q) which <;> simp [hp]
    installed := forall_mem_append.mpr
      ⟨fun w hmem => (hold w hmem).1, forall_mem_singleton.mpr hi⟩ }

variable {h' : HandshakeState Md}

/-- An operation on the handshake state keeps the inputs of the secrets already derived. -/
theorem handshakeStep_frame (hop : Allowed b done op)
    (hs : handshakeStep K h op = .ok h') : h'.server = h.server ∧ (serverKeys b .handshake ∈ done →
        h'.handshakeMd = h.handshakeMd ∧ h'.handshakeSecret = h.handshakeSecret) ∧
      (serverKeys b .application ∈ done → h'.masterSecret = h.masterSecret) := by
  cases op with
  | finishMac buf => cases hs; exact ⟨rfl, fun _ => ⟨rfl, rfl⟩, fun _ => rfl⟩
  | createSyntheticMessageHash hashval hrr =>
    simp only [handshakeStep, createSyntheticMessageHash, bind_eq_ok] at hs
    obtain ⟨hash, -, hs⟩ := hs
    cases hs
    exact ⟨rfl, fun _ => ⟨rfl, rfl⟩, fun _ => rfl⟩
  | chooseCipher _ | selectPsk _ _ =>
    cases hs
    exact ⟨rfl, fun hd => absurd hd hop, fun _ => rfl⟩
  | gensecret pms =>
    cases pms with
    | none =>
      simp only [handshakeStep, tls13GenerateHandshakeSecret] at hs
      split at hs
      · cases hs
      · cases hs
        exact ⟨rfl, fun hd => absurd hd hop, fun _ => rfl⟩
    | some pms =>
      simp only [handshakeStep, sslGensecret, tls13GenerateHandshakeSecret] at hs
      split at hs
      · cases hs
      · split at hs
        · cases hs
        · cases hs
          cases h.hit <;> exact ⟨rfl, fun hd => absurd hd hop, fun _ => rfl⟩
  | setupKeyBlock =>
    simp only [handshakeStep, tls13SetupKeyBlock] at hs
    split at hs
    · split at hs
      · cases hs
        exact ⟨rfl, fun _ => ⟨rfl, rfl⟩, fun _ => rfl⟩
      · cases hs
    · cases hs
  | generateMasterSecret =>
    simp only [handshakeStep, tls13GenerateMasterSecret] at hs
    split at hs
    · cases hs
    · cases hs
      exact ⟨rfl, fun _ => ⟨rfl, rfl⟩, fun hd => absurd hd hop⟩
  | changeCipherState which => cases hs; exact ⟨rfl, fun _ => ⟨rfl, rfl⟩, fun _ => rfl⟩

theorem keyStep_handshake (hop : op.event? = none) (s : Tls13State Md) :
    keyStep K s op =
      (fun h => { s with toHandshakeState := h }) <$> handshakeStep K s.toHandshakeState op := by
  cases op with
  | changeCipherState which => cases hop
  | _ => rfl

theorem keyStep_cases {s s' : Tls13State Md} (h : keyStep K s op = .ok s') :
    (∃ which, op = .changeCipherState which) ∨ op.event? = none ∧
      ∃ h', handshakeStep K s.toHandshakeState op = .ok h' ∧
        s' = { s with toHandshakeState := h' } := by
  cases hop : op.event? with
  | some which => cases op <;> cases hop; exact .inl ⟨which, rfl⟩
  | none =>
    rw [keyStep_handshake hop] at h
    cases hs : handshakeStep K s.toHandshakeState op with
    | error e => rw [hs] at h; cases h
    | ok h' => rw [hs] at h; cases h; exact .inr ⟨rfl, h', rfl, rfl⟩

theorem Agree.stepHandshake (h : Agree K b q₀ t₀ all done q t) (hop : Allowed b done op)
    (hs : handshakeStep K t.toHandshakeState op = .ok h') :
    Agree K b q₀ t₀ all done { q with toHandshakeState := h' }
      { t with toHandshakeState := h' } := by
  rw [← h.handshake] at hs
  obtain ⟨hserver, hkeys, happ⟩ := handshakeStep_frame hop hs
  refine { h with
    handshake := rfl, server := hserver.trans h.server, installed := fun w hmem => ?_ }
  have hi := h.installed w hmem
  rcases h.caused w hmem with rfl | rfl | ⟨rfl, hs⟩ | ⟨rfl, hs⟩ | ⟨rfl, hs⟩
  · simpa [Installed] using hi
  · simpa [Installed, hkeys hmem] using hi
  · simpa [Installed] using hi
  · simpa [Installed, hkeys hs, happ hmem] using hi
  · simpa [Installed] using hi

variable {m : QuicMethod} (hm : q₀.quicMethod = some m)
  (hacc : ∀ l r w n, m.setEncryptionSecrets l r w n = true)
include hm hacc

variable {pre : List (KeyOp Md)}

/-- One operation keeps the agreement. -/
theorem Agree.step {post : List (KeyOp Md)} (h : Agree K b q₀ t₀ (pre ++ op :: post) done q t)
    (hpre : keyRun K t₀ pre = .ok t) (hop : Allowed b done op) (ht : keyStep K t op = .ok t') :
    ∃ q', keyStep K q op = .ok q' ∧
      Agree K b q₀ t₀ (pre ++ op :: post) (done ++ op.event?.toList) q' t' := by
  rcases keyStep_cases ht with ⟨which, rfl⟩ | ⟨hev, h', hs, rfl⟩
  · have hquic : q.isQuic = true := by rw [Tls13State.isQuic, h.quic, hm]; rfl
    have htls : t.isQuic = false := by rw [Tls13State.isQuic, h.tls]; rfl
    obtain ⟨md, hash, hh, rfl⟩ := tls13ChangeCipherState_ok htls ht
    refine ⟨_, ?_, h.stepEvent hop ⟨pre, post, rfl, hpre⟩ hh⟩
    rw [keyStep, tls13ChangeCipherState, hquic]
    refine quicChangeCipherState_accept (h.quic.trans hm) hacc (h.handshake ▸ hh) ?_
    rcases hop.2 with rfl | rfl | ⟨rfl, -⟩ | ⟨rfl, -⟩ | ⟨rfl, -⟩ <;> simp
  · rw [hev, Option.toList_none, append_nil]
    refine ⟨_, ?_, h.stepHandshake hop hs⟩
    rw [keyStep_handshake hev, h.handshake, hs]
    rfl

/-- The operations of a run keep the agreement. -/
theorem Agree.run (h : Agree K b q₀ t₀ (pre ++ ops) done q t)
    (hpre : keyRun K t₀ pre = .ok t) (hops : Ordered b done ops) (ht : keyRun K t ops = .ok t') :
    ∃ q', keyRun K q ops = .ok q' ∧
      Agree K b q₀ t₀ (pre ++ ops) (done ++ ops.filterMap KeyOp.event?) q' t' := by
  induction ops generalizing pre done q t with
  | nil => cases ht; exact ⟨q, rfl, by simpa using h⟩
  | cons op ops ih =>
    rw [keyRun, foldlM_cons, bind_eq_ok] at ht
    obtain ⟨t₁, ht₁, ht⟩ := ht
    obtain ⟨q₁, hq₁, h₁⟩ := h.step hm hacc hpre hops.1 ht₁
    have hpre₁ : keyRun K t₀ (pre ++ [op]) = .ok t₁ := by
      rw [keyRun, foldlM_append, bind_eq_ok]
      exact ⟨t, hpre, bind_eq_ok.mpr ⟨t₁, ht₁, rfl⟩⟩
    have hev : (op :: ops).filterMap KeyOp.event? =
        op.event?.toList ++ ops.filterMap KeyOp.event? := by cases op <;> rfl
    rw [append_cons] at h₁ ⊢
    obtain ⟨q', hq', h'⟩ := ih h₁ hpre₁ hops.2 ht
    rw [hev, ← append_assoc]
    exact ⟨q', bind_eq_ok.mpr ⟨q₁, hq₁, hq'⟩, h'⟩

end Step

/-- The change-cipher events of a handshake. -/
def handshakeEvents (b : Bool) (hs : Handshake Md) : List Which :=
  (handshakeOps b hs).filterMap KeyOp.event?

/-- They come in the same order in either role, whatever suite and PSK are chosen. -/
theorem handshakeEvents_eq (b : Bool) (hs : Handshake Md) : handshakeEvents b hs =
    (if hs.early then [clientKeys b .early] else []) ++ [serverKeys b .handshake] ++
      (if hs.deferred then [] else [clientKeys b .handshake]) ++ [serverKeys b .application] ++
      (if hs.deferred then [clientKeys b .handshake] else []) ++ [clientKeys b .application] := by
  obtain ⟨early, deferred, retry, psk, cipher, pms⟩ := hs
  cases b <;> cases early <;> cases deferred <;> cases retry <;> cases psk <;> rfl

theorem mem_handshakeEvents (b : Bool) (hs : Handshake Md) {e : Epoch} (he : e ≠ .early) :
    serverKeys b e ∈ handshakeEvents b hs ∧ clientKeys b e ∈ handshakeEvents b hs := by
  rw [handshakeEvents_eq]
  cases e with
  | early => exact absurd rfl he
  | _ => cases hs.deferred <;> simp

/-- A QUIC and a TLS connection go through the operations of a handshake in agreement. -/
theorem handshake_agree {hs : Handshake Md} (hops : ops.filter KeyOp.isKeyOp = handshakeOps b hs)
    (hsame : q.toHandshakeState = t.toHandshakeState) (hb : q.server = b) {m : QuicMethod}
    (hm : q.quicMethod = some m) (hacc : ∀ l r w n, m.setEncryptionSecrets l r w n = true)
    (ht : t.quicMethod = none) (hrun : keyRun K t ops = .ok t') :
    ∃ q', keyRun K q ops = .ok q' ∧ Agree K b q t ops (handshakeEvents b hs) q' t' := by
  have h₀ : Agree K b q t ([] ++ ops) [] q t := by
    refine ⟨hsame, hb, rfl, ht, rfl, rfl, ?_, ?_, ?_, ?_⟩ <;> simp
  have hevents : handshakeEvents b hs = ops.filterMap KeyOp.event? := by
    rw [handshakeEvents, ← hops, filterMap_filter]
    congr 1
    funext op
    cases op <;> rfl
  rw [hevents]
  exact h₀.run hm hacc rfl (.of_filter (hops ▸ handshakeOps_ordered b hs)) hrun

/-- **The QUIC key schedule agrees with the TLS 1.3 one.** When the TLS connection gets through the
operations of a handshake, so does the QUIC connection, with the same secrets: the record layers of
the TLS connection were built, event by event, from the traffic secrets of the QUIC connection, and
the transport of a server was given the client's secret of each level to read with and its own to
write with, that of a client the other way round. -/
theorem quic_keySchedule_agrees (K : Kdf Md) (b : Bool) (hs : Handshake Md)
    (ops : List (KeyOp Md)) (hops : ops.filter KeyOp.isKeyOp = handshakeOps b hs)
    (q t t' : Tls13State Md) (hsame : q.toHandshakeState = t.toHandshakeState) (hb : q.server = b)
    (m : QuicMethod) (hm : q.quicMethod = some m)
    (hacc : ∀ l r w n, m.setEncryptionSecrets l r w n = true)
    (ht : t.quicMethod = none) (hrun : keyRun K t ops = .ok t') :
    ∃ q', keyRun K q ops = .ok q' ∧ q'.clientFinishedSecret = t'.clientFinishedSecret ∧
      q'.serverFinishedSecret = t'.serverFinishedSecret ∧
      q'.clientAppTrafficSecret = t'.clientAppTrafficSecret ∧
      q'.serverAppTrafficSecret = t'.serverAppTrafficSecret ∧
      q'.resumptionMasterSecret = t'.resumptionMasterSecret ∧
      t'.recordSecrets = t.recordSecrets ++ (if hs.early then
          [⟨if b then .read else .write, .early, q'.clientEarlyTrafficSecret⟩] else []) ++
        [⟨if b then .write else .read, .handshake, q'.serverHandTrafficSecret⟩] ++
        (if hs.deferred then [] else
          [⟨if b then .read else .write, .handshake, q'.clientHandTrafficSecret⟩]) ++
        [⟨if b then .write else .read, .application, q'.serverAppTrafficSecret⟩] ++
        (if hs.deferred then
          [⟨if b then .read else .write, .handshake, q'.clientHandTrafficSecret⟩] else []) ++
        [⟨if b then .read else .write, .application, q'.clientAppTrafficSecret⟩] ∧
      q'.encryptionSecrets = q.encryptionSecrets ++
        if b then
          (if hs.early then [⟨.earlyData, some q'.clientEarlyTrafficSecret, none⟩] else []) ++
          [⟨.handshake, some q'.clientHandTrafficSecret, some q'.serverHandTrafficSecret⟩,
            ⟨.application, some q'.clientAppTrafficSecret, some q'.serverAppTrafficSecret⟩]
        else
          (if hs.early then [⟨.earlyData, none, some q'.clientEarlyTrafficSecret⟩] else []) ++
          [⟨.handshake, some q'.serverHandTrafficSecret, some q'.clientHandTrafficSecret⟩,
            ⟨.application, some q'.serverAppTrafficSecret, some q'.clientAppTrafficSecret⟩] := by
  obtain ⟨q', hq', h⟩ := handshake_agree hops hsame hb hm hacc ht hrun
  have hi {e : Epoch} (he : e ≠ .early) :=
    (mem_handshakeEvents b hs he).imp (h.installed _) (h.installed _)
  obtain ⟨hserver, hclient⟩ := hi (e := .handshake) (by decide)
  obtain ⟨hserver', hclient'⟩ := hi (e := .application) (by decide)
  simp only [Installed, isServerKeys_serverKeys, isServerKeys_clientKeys, epoch_serverKeys,
    epoch_clientKeys] at hserver hclient hserver' hclient'
  obtain ⟨-, -, -, -, hfin⟩ := hserver
  obtain ⟨-, -, -, -, happ, -⟩ := hserver'
  refine ⟨q', hq', hclient.symm, hfin.symm, hclient'.1.symm, happ.symm, hclient'.2.symm, ?_, ?_⟩
  · rw [h.records, handshakeEvents_eq]
    cases b <;> cases hs.early <;> cases hs.deferred <;>
      simp [recordOf, secretOf, serverKeys, clientKeys, Which.isServerKeys]
  · rw [h.pairs, handshakeEvents_eq]
    cases b <;> cases hs.early <;> cases hs.deferred <;> simp [pairOf, secretPair]

/-- A session is resumed with early data. -/
def resumption : Handshake Unit :=
  ⟨true, true, false, some (⟨some ⟨some (), true⟩, 16⟩, [3]), ⟨some (), true⟩, some [7]⟩

/-- The server's side of it; EndOfEarlyData and the client's Finished enter the transcript before
the client's keys are installed. -/
def resumptionOps : List (KeyOp Unit) :=
  [.finishMac [1], .chooseCipher ⟨some (), true⟩, .selectPsk ⟨some ⟨some (), true⟩, 16⟩ [3],
    .changeCipherState (clientKeys true .early), .gensecret (some [7]), .finishMac [2],
    .setupKeyBlock, .changeCipherState (serverKeys true .handshake), .finishMac [8],
    .generateMasterSecret, .changeCipherState (serverKeys true .application), .finishMac [5],
    .changeCipherState (clientKeys true .handshake), .finishMac [20],
    .changeCipherState (clientKeys true .application)]

/-- A server that resumes a session and accepts early data. -/
theorem quic_keySchedule_agrees_earlyData :
    let t : Tls13State Unit := Tls13State.new Unit true none
    let q : Tls13State Unit := { t with quicMethod := some ⟨fun _ _ _ _ => true⟩ }
    ∃ q' t', keyRun (.concat Unit) t resumptionOps = .ok t' ∧
      keyRun (.concat Unit) q resumptionOps = .ok q' ∧
      q'.clientFinishedSecret = t'.clientFinishedSecret ∧
      q'.encryptionSecrets = [⟨.earlyData, some ([3] ++ clientEarlyTraffic ++ [1]), none⟩,
          ⟨.handshake, some ([3, 7] ++ clientHandshakeTraffic ++ [1, 2]),
            some ([3, 7] ++ serverHandshakeTraffic ++ [1, 2])⟩,
          ⟨.application, some ([3, 7] ++ clientApplicationTraffic ++ [1, 2, 8]),
            some ([3, 7] ++ serverApplicationTraffic ++ [1, 2, 8])⟩] := by
  intro t q
  obtain ⟨t', ht'⟩ : ∃ t', keyRun (.concat Unit) t resumptionOps = .ok t' := ⟨_, rfl⟩
  obtain ⟨q', hq', hfin, -, -, -, -, -, hpairs⟩ := quic_keySchedule_agrees (.concat Unit) true
    resumption resumptionOps rfl q t t' rfl rfl _ rfl (fun _ _ _ _ => rfl) rfl ht'
  refine ⟨q', t', ht', hq', hfin, hpairs.trans ?_⟩
  cases hq'
  rfl

end QuicTls
