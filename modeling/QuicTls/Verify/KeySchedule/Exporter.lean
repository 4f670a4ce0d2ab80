import QuicTls.Verify.KeySchedule.Agreement

/-!
# The exporter secrets of a QUIC connection

`tls13_change_cipher_state` derives the exporter secrets, `quic_change_cipher_state` does not: on a
QUIC connection they keep the values they had before the handshake. `quic_exporter_iff` says what
follows for keying-material export.
-/

namespace QuicTls

variable {Md : Type} {K : Kdf Md} {q t : Tls13State Md}

/-- Two connections export the same keying material, and after early data the same early keying
material. -/
structure ExportsAgree (K : Kdf Md) (early : Bool) (q t : Tls13State Md) : Prop where
  exporter : q.exporterMasterSecret = t.exporterMasterSecret
  earlyExporter : early = true → q.earlyExporterMasterSecret = t.earlyExporterMasterSecret
  keyingMaterial : ∀ label context olen, tls13ExportKeyingMaterial K q label context olen =
    tls13ExportKeyingMaterial K t label context olen
  earlyKeyingMaterial : early = true → ∀ label context olen,
    tls13ExportKeyingMaterialEarly K q label context olen =
      tls13ExportKeyingMaterialEarly K t label context olen

theorem exportsAgree_iff (hsame : q.toHandshakeState = t.toHandshakeState) (early : Bool) :
    ExportsAgree K early q t ↔ q.exporterMasterSecret = t.exporterMasterSecret ∧
      (early = true → q.earlyExporterMasterSecret = t.earlyExporterMasterSecret) := by
  refine ⟨fun h => ⟨h.exporter, h.earlyExporter⟩, fun ⟨h, hearly⟩ => ⟨h, hearly, ?_, ?_⟩⟩
  · intro label context olen
    rw [tls13ExportKeyingMaterial, tls13ExportKeyingMaterial, hsame, h]
  · intro he label context olen
    rw [tls13ExportKeyingMaterialEarly, tls13ExportKeyingMaterialEarly, hsame, hearly he]

/-- A client's handshake, on a new TLS and on a new QUIC connection: the QUIC connection exports
keying material from a zero secret. -/
theorem quic_exporter_zero :
    let cipher : SslCipher Unit := ⟨some (), true⟩
    let t : Tls13State Unit := Tls13State.new Unit false none
    let q : Tls13State Unit := Tls13State.new Unit false (some ⟨fun _ _ _ _ => true⟩)
    let ops : List (KeyOp Unit) := [.finishMac [1], .chooseCipher cipher, .gensecret (some [7]),
      .finishMac [2], .setupKeyBlock, .changeCipherState (serverKeys false .handshake),
      .changeCipherState (clientKeys false .handshake), .finishMac [8], .generateMasterSecret,
      .changeCipherState (serverKeys false .application), .finishMac [20],
      .changeCipherState (clientKeys false .application)]
    ∃ q' t', keyRun (.concat Unit) t ops = .ok t' ∧ keyRun (.concat Unit) q ops = .ok q' ∧
      q'.masterSecret = t'.masterSecret ∧
      q'.exporterMasterSecret = zeroSecret ∧
      t'.exporterMasterSecret = t'.masterSecret ++ exporterMasterSecretLabel ++ [1, 2, 8] ∧
      ¬ ExportsAgree (.concat Unit) false q' t' ∧
      tls13ExportKeyingMaterial (.concat Unit) q' [0x6c] none 32 ≠
        tls13ExportKeyingMaterial (.concat Unit) t' [0x6c] none 32 := by
  intro cipher t q ops
  obtain ⟨t', ht', htmd, htm, ht⟩ : ∃ t', keyRun (.concat Unit) t ops = .ok t' ∧
      t'.handshakeMd = some () ∧ t'.masterSecret = [7] ∧
      t'.exporterMasterSecret = [7] ++ exporterMasterSecretLabel ++ [1, 2, 8] :=
    ⟨_, rfl, rfl, rfl, rfl⟩
  obtain ⟨q', hq', hqmd, hqm, hq⟩ : ∃ q', keyRun (.concat Unit) q ops = .ok q' ∧
      q'.handshakeMd = some () ∧ q'.masterSecret = [7] ∧
      q'.exporterMasterSecret = zeroSecret :=
    ⟨_, rfl, rfl, rfl, rfl⟩
  refine ⟨q', t', ht', hq', hqm.trans htm.symm, hq, by rw [ht, htm], fun h => ?_, fun h => ?_⟩
  · have := h.exporter
    rw [hq, ht] at this
    exact absurd (congrArg List.head? this) (by decide)
  · rw [tls13ExportKeyingMaterial, tls13ExportKeyingMaterial, hqmd, htmd, hq, ht] at h
    exact absurd (congrArg List.head? (Except.ok.inj h)) (by decide)

/-- **Keying-material export over QUIC.** After a handshake the TLS connection holds the exporter
secrets of its transcript, and a QUIC connection with the same secrets and transcript exports the
same keying material exactly when its exporter secrets were already these before the handshake. -/
theorem quic_exporter_iff (K : Kdf Md) (b : Bool) (hs : Handshake Md)
    (ops : List (KeyOp Md)) (hops : ops.filter KeyOp.isKeyOp = handshakeOps b hs)
    (q t t' : Tls13State Md) (hsame : q.toHandshakeState = t.toHandshakeState) (hb : q.server = b)
    (m : QuicMethod) (hm : q.quicMethod = some m)
    (hacc : ∀ l r w n, m.setEncryptionSecrets l r w n = true)
    (ht : t.quicMethod = none) (hrun : keyRun K t ops = .ok t') :
    (∃ t₁ md, StateAt K t ops (serverKeys b .application) t₁ ∧ t₁.handshakeMd = some md ∧
      t'.exporterMasterSecret = K.derive md t₁.masterSecret exporterMasterSecretLabel
        (K.digest md t₁.handshakeBuffer)) ∧
    (hs.early = true → ∃ t₁ md, StateAt K t ops (clientKeys b .early) t₁ ∧
      eventHash K t₁.toHandshakeState (clientKeys b .early) =
        .ok (md, K.digest md t₁.handshakeBuffer) ∧
      t'.earlyExporterMasterSecret = K.derive md t₁.earlySecret earlyExporterMasterSecretLabel
        (K.digest md t₁.handshakeBuffer)) ∧
    ∃ q', keyRun K q ops = .ok q' ∧
      (ExportsAgree K hs.early q' t' ↔ q.exporterMasterSecret = t'.exporterMasterSecret ∧
        (hs.early = true → q.earlyExporterMasterSecret = t'.earlyExporterMasterSecret)) := by
  obtain ⟨q', hq', h⟩ := handshake_agree hops hsame hb hm hacc ht hrun
  refine ⟨?_, fun he => ?_, q', hq', ?_⟩
  · have hi := h.installed _ (mem_handshakeEvents b hs (e := .application) (by decide)).1
    simp only [Installed, isServerKeys_serverKeys, epoch_serverKeys] at hi
    obtain ⟨t₁, md, -, -, -, hexp⟩ := hi
    exact ⟨t₁, md, hexp⟩
  · have hmem : clientKeys b .early ∈ handshakeEvents b hs := by
      simp [handshakeEvents_eq, he]
    simpa only [Installed, isServerKeys_clientKeys, epoch_clientKeys] using h.installed _ hmem
  · rw [exportsAgree_iff h.handshake, h.exporter, h.earlyExporter]

/-- A server that accepts early data, on a QUIC connection whose exporter secrets happen to be the
right ones. -/
theorem quic_exporter_iff_earlyData :
    let t : Tls13State Unit := Tls13State.new Unit true none
    let q : Tls13State Unit := { t with
      quicMethod := some ⟨fun _ _ _ _ => true⟩
      exporterMasterSecret := [3, 7] ++ exporterMasterSecretLabel ++ [1, 2, 8]
      earlyExporterMasterSecret := [3] ++ earlyExporterMasterSecretLabel ++ [1] }
    ∃ q' t', keyRun (.concat Unit) t resumptionOps = .ok t' ∧
      keyRun (.concat Unit) q resumptionOps = .ok q' ∧
      ExportsAgree (.concat Unit) true q' t' := by
  intro t q
  obtain ⟨t', ht', hexp, hearly⟩ : ∃ t', keyRun (.concat Unit) t resumptionOps = .ok t' ∧
      q.exporterMasterSecret = t'.exporterMasterSecret ∧
      q.earlyExporterMasterSecret = t'.earlyExporterMasterSecret := ⟨_, rfl, rfl, rfl⟩
  obtain ⟨-, -, q', hq', hiff⟩ := quic_exporter_iff (.concat Unit) true
    resumption resumptionOps rfl q t t' rfl rfl _ rfl (fun _ _ _ _ => rfl) rfl ht'
  exact ⟨q', t', ht', hq', hiff.2 ⟨hexp, fun _ => hearly⟩⟩

end QuicTls
