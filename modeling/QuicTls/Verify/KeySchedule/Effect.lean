import QuicTls.Ssl.KeyEvents
import QuicTls.Theory.Except

/-!
# What one change-cipher event does

`tlsEffect` and `quicEffect` are the effects of `tls13_change_cipher_state` and
`quic_change_cipher_state` in closed form. A call that succeeds has its effect
(`tls13ChangeCipherState_ok`, `quicChangeCipherState_ok`), and with a transport that accepts its
secrets a QUIC call does succeed (`quicChangeCipherState_accept`).
-/

namespace QuicTls

variable {Md : Type} {K : Kdf Md} {q q' t t' : Tls13State Md} {md : Md} {which : Which}
  {secret label c2s : Bytes} {level : EncryptionLevel} {s2c : Option Bytes} {h : HandshakeState Md}
  {hash : Bytes}

/-- Derive-Secret: HKDF-Expand-Label with a transcript hash. -/
def Kdf.derive (K : Kdf Md) (md : Md) (secret label hash : Bytes) : Bytes :=
  K.expandLabel md secret label (some hash) (K.size md)

def Kdf.finishedKey (K : Kdf Md) (md : Md) (secret : Bytes) : Bytes :=
  K.expandLabel md secret finishedLabel none (K.size md)

theorem tls13HkdfExpand_eq {data : Option Bytes} {outlen : Nat}
    (h : label.length ≤ tls13MaxLabelLen) : tls13HkdfExpand K md secret label data outlen =
      .ok (K.expandLabel md secret label data outlen) := by
  rw [tls13HkdfExpand, if_neg (Nat.not_lt.mpr h)]; rfl

theorem hkdfExpand_derive (h : label.length ≤ tls13MaxLabelLen) :
    tls13HkdfExpand K md secret label hash (K.size md) = .ok (K.derive md secret label hash) :=
  tls13HkdfExpand_eq h

theorem TrafficLabel.length_bytes (l : TrafficLabel) : l.bytes.length ≤ tls13MaxLabelLen := by
  cases l <;> decide

/-- What `tls13_change_cipher_state` does when it succeeds. -/
def tlsEffect (K : Kdf Md) (md : Md) (hash : Bytes) (which : Which) (t : Tls13State Md) :
    Tls13State Md :=
  match which.isServerKeys, which.epoch with
  | true, .handshake =>
    let secret := K.derive md t.handshakeSecret serverHandshakeTraffic hash
    { t with
      handshakeTrafficHash := hash
      serverFinishedSecret := K.finishedKey md secret
      recordSecrets := t.recordSecrets ++ [⟨which.dir, .handshake, secret⟩] }
  | true, epoch =>
    let secret := K.derive md t.masterSecret serverApplicationTraffic hash
    { t with
      serverFinishedHash := hash
      serverAppTrafficSecret := secret
      exporterMasterSecret := K.derive md t.masterSecret exporterMasterSecretLabel hash
      recordSecrets := t.recordSecrets ++ [⟨which.dir, epoch, secret⟩] }
  | false, .early =>
    let secret := K.derive md t.earlySecret clientEarlyTraffic hash
    { t with
      earlyExporterMasterSecret := K.derive md t.earlySecret earlyExporterMasterSecretLabel hash
      recordSecrets := t.recordSecrets ++ [⟨which.dir, .early, secret⟩] }
  | false, .handshake =>
    let secret := K.derive md t.handshakeSecret clientHandshakeTraffic t.handshakeTrafficHash
    { t with
      clientFinishedSecret := K.finishedKey md secret
      recordSecrets := t.recordSecrets ++ [⟨which.dir, .handshake, secret⟩] }
  | false, .application =>
    let secret := K.derive md t.masterSecret clientApplicationTraffic t.serverFinishedHash
    { t with
      resumptionMasterSecret := K.derive md t.masterSecret resumptionMasterSecretLabel hash
      clientAppTrafficSecret := secret
      recordSecrets := t.recordSecrets ++ [⟨which.dir, .application, secret⟩] }

theorem tlsEffect_frame (md : Md) (hash : Bytes) (which : Which) (t : Tls13State Md) :
    let t' := tlsEffect K md hash which t
    t'.toHandshakeState = t.toHandshakeState ∧ t'.quicMethod = t.quicMethod ∧
      t'.quicReadLevel = t.quicReadLevel ∧ t'.quicWriteLevel = t.quicWriteLevel := by
  unfold tlsEffect
  split <;> exact ⟨rfl, rfl, rfl, rfl⟩

/-- The transcript hash of an event, and the early exporter secret that is derived with it. -/
theorem tls13TranscriptHash_ok {k : TrafficKeys} {t₁ : Tls13State Md} {cipher : Bool}
    (h : tls13TranscriptHash K t which k = .ok (t₁, md, hash, cipher)) :
    eventHash K t.toHandshakeState which = .ok (md, hash) ∧
      (which.epoch = .early ∧ which.isServerKeys = false ∧ t₁ = { t with
            earlyExporterMasterSecret :=
              K.derive md k.insecret earlyExporterMasterSecretLabel hash } ∨
        which.epoch ≠ .early ∧ t₁ = t) := by
  unfold tls13TranscriptHash at h
  split at h
  · rename_i he
    split at h
    · cases h
    rename_i hk
    simp only [bind_eq_ok] at h
    obtain ⟨⟨sslcipher, md', hash'⟩, hh, h⟩ := h
    split at h
    · cases h
      refine ⟨?_, .inl ⟨he, eq_false_of_ne_true hk, rfl⟩⟩
      rw [eventHash, if_pos he, hh]
      rfl
    · cases h
  · rename_i he
    simp only [bind_eq_ok] at h
    obtain ⟨⟨md', hash'⟩, hh, h⟩ := h
    cases h
    exact ⟨by rw [eventHash, if_neg he, hh], .inr ⟨he, rfl⟩⟩

theorem tls13SaveHash_eq (k : TrafficKeys) (hash : Bytes) : tls13SaveHash K t k md hash = .ok
    (match k.label with
      | .serverApplication => { t with serverFinishedHash := hash }
      | .serverHandshake => { t with handshakeTrafficHash := hash }
      | .clientApplication => { t with
          resumptionMasterSecret := K.derive md k.insecret resumptionMasterSecretLabel hash }
      | _ => t) := by
  unfold tls13SaveHash
  cases k.label with
  | clientApplication => rw [hkdfExpand_derive (by decide)]; rfl
  | _ => rfl

theorem tls13ChangeCipherState_ok (hn : t.isQuic = false)
    (h : tls13ChangeCipherState K t which = .ok t') : ∃ md hash,
      eventHash K t.toHandshakeState which = .ok (md, hash) ∧ t' = tlsEffect K md hash which t := by
  rw [tls13ChangeCipherState, hn] at h
  simp only [Bool.false_eq_true, if_false, bind_eq_ok] at h
  obtain ⟨⟨t₁, md, hash, cipher⟩, hh, t₂, hsave, h⟩ := h
  obtain ⟨hev, ht₁⟩ := tls13TranscriptHash_ok hh
  refine ⟨md, hash, hev, ?_⟩
  split at h
  · rw [hkdfExpand_derive (TrafficLabel.length_bytes _)] at h
    rw [tls13SaveHash_eq] at hsave
    cases hsave
    obtain ⟨epoch, side, dir⟩ := which
    rcases ht₁ with ⟨rfl, hk, rfl⟩ | ⟨he, rfl⟩
    · cases side <;> cases dir <;> cases hk <;> (cases h; rfl)
    · cases epoch with
      | early => exact absurd rfl he
      | handshake | application => cases side <;> cases dir <;> (cases h; rfl)
  · cases h

/-- The secrets that `quic_change_cipher_state` derives and hands over when it succeeds. -/
def quicDerive (K : Kdf Md) (md : Md) (hash : Bytes) (which : Which) (q : Tls13State Md) :
    Tls13State Md :=
  match which.isServerKeys, which.epoch with
  | true, .handshake =>
    let client := K.derive md q.handshakeSecret clientHandshakeTraffic hash
    let server := K.derive md q.handshakeSecret serverHandshakeTraffic hash
    { q with
      clientHandTrafficSecret := client
      clientFinishedSecret := K.finishedKey md client
      serverHandTrafficSecret := server
      serverFinishedSecret := K.finishedKey md server
      encryptionSecrets := q.encryptionSecrets ++ [secretPair q.server .handshake client server] }
  | true, _ =>
    let client := K.derive md q.masterSecret clientApplicationTraffic hash
    let server := K.derive md q.masterSecret serverApplicationTraffic hash
    { q with
      clientAppTrafficSecret := client
      serverAppTrafficSecret := server
      encryptionSecrets := q.encryptionSecrets ++ [secretPair q.server .application client server] }
  | false, .early =>
    let client := K.derive md q.earlySecret clientEarlyTraffic hash
    { q with
      clientEarlyTrafficSecret := client
      encryptionSecrets := q.encryptionSecrets ++ [secretPair q.server .earlyData client none] }
  | false, .handshake => q
  | false, .application =>
    { q with
      resumptionMasterSecret := K.derive md q.masterSecret resumptionMasterSecretLabel hash }

theorem quicDerive_frame (md : Md) (hash : Bytes) (which : Which) (q : Tls13State Md) :
    let q' := quicDerive K md hash which q
    q'.toHandshakeState = q.toHandshakeState ∧ q'.quicMethod = q.quicMethod ∧
      q'.exporterMasterSecret = q.exporterMasterSecret ∧
      q'.earlyExporterMasterSecret = q.earlyExporterMasterSecret ∧
      q'.quicReadLevel = q.quicReadLevel ∧ q'.quicWriteLevel = q.quicWriteLevel := by
  unfold quicDerive
  split <;> exact ⟨rfl, rfl, rfl, rfl, rfl, rfl⟩

/-- The level that it moves to. -/
def quicLevel (which : Which) (q : Tls13State Md) : Tls13State Md :=
  match which.isServerKeys, which.epoch with
  | true, .handshake => q.setServerLevel .handshake
  | true, _ => q.setServerLevel .application
  | false, .early => q
  | false, .handshake => q.setClientLevel .handshake
  | false, .application => q.setClientLevel .application

theorem quicLevel_eq (which : Which) (q : Tls13State Md) :
    ∃ r w, quicLevel which q = { q with quicReadLevel := r, quicWriteLevel := w } := by
  unfold quicLevel Tls13State.setServerLevel Tls13State.setClientLevel
  split <;> first | exact ⟨_, _, rfl⟩ | split <;> exact ⟨_, _, rfl⟩

def quicEffect (K : Kdf Md) (md : Md) (hash : Bytes) (which : Which) (q : Tls13State Md) :
    Tls13State Md :=
  quicLevel which (quicDerive K md hash which q)

theorem quicDeriveSecrets_handshake (hash : Bytes) :
    quicDeriveSecrets K q .handshake md hash = .ok (.handshake, { q with
      clientHandTrafficSecret := K.derive md q.handshakeSecret clientHandshakeTraffic hash
      clientFinishedSecret := K.finishedKey md
        (K.derive md q.handshakeSecret clientHandshakeTraffic hash)
      serverHandTrafficSecret := K.derive md q.handshakeSecret serverHandshakeTraffic hash
      serverFinishedSecret := K.finishedKey md
        (K.derive md q.handshakeSecret serverHandshakeTraffic hash) }) := by
  rw [quicDeriveSecrets, hkdfExpand_derive (by decide)]
  rfl

theorem quicDeriveSecrets_application {epoch : Epoch} (he : epoch ≠ .handshake) (hash : Bytes) :
    quicDeriveSecrets K q epoch md hash = .ok (.application, { q with
      clientAppTrafficSecret := K.derive md q.masterSecret clientApplicationTraffic hash
      serverAppTrafficSecret := K.derive md q.masterSecret serverApplicationTraffic hash }) := by
  rw [quicDeriveSecrets, if_neg he, hkdfExpand_derive (by decide)]
  rfl

/-- The secrets of the level are handed over as the role has them; nothing else changes. -/
theorem quicSetEncryptionSecrets_ok (h : quicSetEncryptionSecrets K q level = .ok q')
    (hq : q.isQuic = true) (hs : q.quicSecrets level = some (c2s, s2c)) :
    q' = { q with
      encryptionSecrets := q.encryptionSecrets ++ [secretPair q.server level c2s s2c] } := by
  rw [quicSetEncryptionSecrets, hs] at h
  split at h
  · rename_i heq
    cases heq
    simp only [bind_eq_ok] at h
    obtain ⟨_ | md, -, h⟩ := h
    · cases h
    · dsimp only at h
      split at h
      · cases h; rfl
      · cases h
  · rename_i hnone
    obtain ⟨method, hm⟩ := Option.isSome_iff_exists.mp hq
    exact absurd rfl (hnone method c2s s2c hm)

/-- What a change-cipher event does to a QUIC connection. -/
theorem quicChangeCipherState_ok (hq : q.isQuic = true)
    (h : quicChangeCipherState K q which = .ok q') : ∃ md hash,
      eventHash K q.toHandshakeState which = .ok (md, hash) ∧
        q' = quicEffect K md hash which q := by
  rw [quicChangeCipherState] at h
  simp only [bind_eq_ok] at h
  obtain ⟨⟨md, hash⟩, hh, h⟩ := h
  refine ⟨md, hash, hh, ?_⟩
  cases hk : which.isServerKeys with
  | true =>
    rw [hk, if_pos rfl] at h
    by_cases he : which.epoch = .handshake
    · rw [he, quicDeriveSecrets_handshake] at h
      simp only [bind_eq_ok, Except.ok.injEq, exists_eq_left'] at h
      obtain ⟨q₁, h₁, h⟩ := h
      cases h
      rw [quicSetEncryptionSecrets_ok h₁ hq rfl, quicEffect, quicDerive, quicLevel, hk, he]
    · rw [quicDeriveSecrets_application he] at h
      simp only [bind_eq_ok, Except.ok.injEq, exists_eq_left'] at h
      obtain ⟨q₁, h₁, h⟩ := h
      cases h
      rw [quicSetEncryptionSecrets_ok h₁ hq rfl, quicEffect, quicDerive, quicLevel, hk]
      cases hepoch : which.epoch with
      | handshake => exact absurd hepoch he
      | _ => rfl
  | false =>
    rw [hk] at h
    cases he : which.epoch with
    | early =>
      rw [he] at h
      simp only [hkdfExpand_derive (show clientEarlyTraffic.length ≤ _ by decide)] at h
      rw [quicSetEncryptionSecrets_ok h hq rfl, quicEffect, quicDerive, quicLevel, hk, he]
    | handshake =>
      rw [he] at h
      cases h
      rw [quicEffect, quicDerive, quicLevel, hk, he]
    | application =>
      rw [he] at h
      simp only [hkdfExpand_derive (show resumptionMasterSecretLabel.length ≤ _ by decide)] at h
      cases h
      rw [quicEffect, quicDerive, quicLevel, hk, he]

theorem earlyCipher_ok {r r' : SslReason} {c : SslCipher Md} (hc : earlyCipher h r = .ok c) :
    earlyCipher h r' = .ok c := by
  unfold earlyCipher at hc ⊢
  simp only [bind_eq_ok] at hc ⊢
  obtain ⟨_ | c', ho, hc⟩ := hc
  · cases hc
  · exact ⟨some c', ho, hc⟩

theorem quicSecretsMd_of_eventHash (hh : eventHash K h which = .ok (md, hash))
    (level : EncryptionLevel) (hl : level = .earlyData ↔ which.epoch = .early) :
    quicSecretsMd h level = .ok (some md) := by
  unfold eventHash at hh
  unfold quicSecretsMd
  split at hh
  · rename_i he
    rw [if_pos (hl.mpr he)]
    cases hr : earlyHash K h with
    | error e => rw [hr] at hh; cases hh
    | ok r =>
      obtain ⟨c', md', hash'⟩ := r
      rw [hr] at hh
      cases hh
      unfold earlyHash at hr
      split at hr
      · cases hr
      simp only [bind_eq_ok] at hr
      obtain ⟨c, hc, hr⟩ := hr
      split at hr
      · rename_i hmd
        cases hr
        rw [earlyCipher_ok hc, ← hmd]
        rfl
      · cases hr
  · rename_i he
    rw [if_neg (mt hl.mp he)]
    unfold sslHandshakeHash at hh
    split at hh
    · rename_i md' hmd
      cases hh
      rw [hmd]; rfl
    · cases hh

section Accept

variable {m : QuicMethod} (hm : q.quicMethod = some m)
  (hacc : ∀ l r w n, m.setEncryptionSecrets l r w n = true)
include hm hacc

theorem quicSetEncryptionSecrets_accept (hs : q.quicSecrets level = some (c2s, s2c))
    (hmd : quicSecretsMd q.toHandshakeState level = .ok (some md)) :
    quicSetEncryptionSecrets K q level = .ok { q with
      encryptionSecrets := q.encryptionSecrets ++ [secretPair q.server level c2s s2c] } := by
  rw [quicSetEncryptionSecrets, hs, hm, hmd]
  simp only [hacc]
  rfl

/-- With a transport that accepts its secrets, an event succeeds once there is a transcript hash. -/
theorem quicChangeCipherState_accept (hh : eventHash K q.toHandshakeState which = .ok (md, hash))
    (hw : which.isServerKeys = true → which.epoch ≠ .early) :
    quicChangeCipherState K q which = .ok (quicEffect K md hash which q) := by
  refine bind_eq_ok.mpr ⟨(md, hash), hh, ?_⟩
  dsimp only
  rw [quicEffect, quicDerive, quicLevel]
  cases hk : which.isServerKeys with
  | true =>
    cases he : which.epoch with
    | early => exact absurd he (hw hk)
    | handshake =>
      have hmd := quicSecretsMd_of_eventHash hh .handshake (by simp [he])
      refine bind_eq_ok.mpr ⟨_, quicDeriveSecrets_handshake hash, ?_⟩
      exact bind_eq_ok.mpr
        ⟨_, quicSetEncryptionSecrets_accept (by exact hm) hacc rfl (by exact hmd), rfl⟩
    | application =>
      have hmd := quicSecretsMd_of_eventHash hh .application (by simp [he])
      refine bind_eq_ok.mpr ⟨_, quicDeriveSecrets_application (by decide) hash, ?_⟩
      exact bind_eq_ok.mpr
        ⟨_, quicSetEncryptionSecrets_accept (by exact hm) hacc rfl (by exact hmd), rfl⟩
  | false =>
    cases he : which.epoch with
    | early =>
      have hmd := quicSecretsMd_of_eventHash hh .earlyData (by simp [he])
      exact quicSetEncryptionSecrets_accept (by exact hm) hacc rfl (by exact hmd)
    | handshake => rfl
    | application => exact bind_eq_ok.mpr ⟨_, hkdfExpand_derive (by decide), rfl⟩

end Accept

end QuicTls
