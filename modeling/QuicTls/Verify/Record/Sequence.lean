import QuicTls.Ssl.Record.Sequence
import QuicTls.Theory.Except
import QuicTls.Theory.Run
import Mathlib.Data.List.Nodup

/-!
# Sequence numbers are not reused, up to 2^48 records in DTLS

The counter has 64 bits and fails before it wraps, but DTLS uses the lowest 48 of them
(`sequence_numbers_not_reused`).
-/

namespace QuicTls.Record

open BigEndian Run List

/-! ### The counter -/

/-- The counter is incremented from its last byte. -/
theorem incrementBytes_spec (bs : Bytes) :
    decode (incrementBytes bs).1 + (if (incrementBytes bs).2 then 256 ^ bs.length else 0) =
      decode bs + 1 := by
  fun_induction incrementBytes bs with
  | case1 => rfl
  | case2 b bs bs' hinc ih =>
    have hlen := length_incrementBytes bs
    have hb := b.toNat_lt
    have hstep : (b + 1).toNat = (b.toNat + 1) % 256 := rfl
    have hzero : b + 1 = 0 ↔ b.toNat = 255 := by
      rw [← UInt8.toNat_inj, hstep, UInt8.toNat_zero]
      omega
    rw [hinc] at ih hlen
    dsimp only at ih hlen
    rw [if_pos rfl] at ih
    rw [decode_cons, decode_cons, hlen, hstep, length_cons]
    simp only [hzero, decide_eq_true_eq]
    split
    · rename_i hmax
      rw [hmax]
      omega
    · rw [Nat.mod_eq_of_lt (by omega), Nat.add_mul]
      omega
  | case3 b bs bs' hinc ih =>
    have hlen := length_incrementBytes bs
    rw [hinc] at ih hlen
    dsimp only at ih hlen
    rw [if_neg (by rintro ⟨⟩)] at ih ⊢
    rw [decode_cons, decode_cons, hlen]
    omega

/-- The number in the counter. -/
def WriteLayer.number (rl : WriteLayer) : Nat := decode rl.sequence.toList

theorem WriteLayer.number_lt (rl : WriteLayer) : rl.number < 2 ^ 64 := by
  have hlt := decode_lt rl.sequence.toList
  rwa [Vector.length_toList] at hlt

theorem WriteLayer.sequence_eq (rl : WriteLayer) : rl.sequence.toList = encode 8 rl.number := by
  have h := encode_decode rl.sequence.toList
  rw [Vector.length_toList] at h
  exact h.symm

theorem toList_incrementSeqNum (sequence : SeqNum) :
    (incrementSeqNum sequence).toList = (incrementBytes sequence.toList).1 := by
  simp [incrementSeqNum]

/-- The counter fails instead of wrapping. -/
theorem tlsIncrementSequenceCtr_spec (rl : WriteLayer) :
    if rl.number + 1 < 2 ^ 64 then
      ∃ rl', tlsIncrementSequenceCtr rl = .ok rl' ∧ rl'.number = rl.number + 1 ∧
        rl'.iv = rl.iv ∧ rl'.epoch = rl.epoch
    else ∃ e, tlsIncrementSequenceCtr rl = .error e := by
  have hspec := incrementBytes_spec rl.sequence.toList
  have hlt := decode_lt (incrementBytes rl.sequence.toList).1
  rw [length_incrementBytes, Vector.length_toList] at hlt
  rw [Vector.length_toList] at hspec
  have hnumber : decode rl.sequence.toList = rl.number := rfl
  rw [tlsIncrementSequenceCtr]
  cases hwrap : (incrementBytes rl.sequence.toList).2 with
  | true =>
    rw [hwrap, if_pos rfl] at hspec
    rw [if_neg (by omega)]
    exact ⟨_, rfl⟩
  | false =>
    rw [hwrap, if_neg nofun, Nat.add_zero] at hspec
    rw [if_pos (by omega)]
    refine ⟨_, rfl, ?_, rfl, rfl⟩
    rw [WriteLayer.number, toList_incrementSeqNum, hspec, hnumber]

variable {rl rl' : WriteLayer}

theorem tlsIncrementSequenceCtr_ok (h : tlsIncrementSequenceCtr rl = .ok rl') :
    rl'.number = rl.number + 1 ∧ rl'.iv = rl.iv ∧ rl'.epoch = rl.epoch := by
  have hspec := tlsIncrementSequenceCtr_spec rl
  split at hspec
  · obtain ⟨rl'', h', hrest⟩ := hspec
    rw [h] at h'
    cases h'
    exact hrest
  · obtain ⟨e, he⟩ := hspec
    rw [h] at he
    exact nomatch he

variable {n : Nat}

theorem encode_inj {i j : Nat} (hi : i < 256 ^ n) (hj : j < 256 ^ n)
    (h : encode n i = encode n j) : i = j := by
  rw [← decode_encode hi, h, decode_encode hj]

theorem nodup_map_range' {ω : Type*} {f : Nat → ω} {bound : Nat}
    (hinj : ∀ i j, i < bound → j < bound → f i = f j → i = j) (hn : n ≤ bound) :
    ((List.range' 0 n).map f).Nodup := by
  apply List.Nodup.map_on _ nodup_range'
  intro i hi j hj h
  rw [mem_range'_1] at hi hj
  exact hinj i j (by omega) (by omega) h

/-- A write record layer before its first record. -/
def WriteLayer.new (iv : Bytes) (epoch : BitVec 16) : WriteLayer :=
  ⟨Vector.replicate 8 0, iv, epoch⟩

theorem WriteLayer.number_new (iv : Bytes) (epoch : BitVec 16) : (new iv epoch).number = 0 := rfl

/-! ### TLS 1.3 -/

/-- The static IV with the index of a record. -/
def nonceAt (iv : Bytes) (i : Nat) : Bytes := List.zipWith (· ^^^ ·) iv (encode iv.length i)

variable {xs : Bytes}

theorem zipWith_xor_zero (h : xs.length = n) :
    List.zipWith (· ^^^ ·) xs (List.replicate n 0) = xs := by
  subst h
  induction xs with
  | nil => rfl
  | cons x xs ih =>
    rw [length_cons, replicate_succ, zipWith_cons_cons, ih, UInt8.xor_zero]

theorem zipWith_xor_inj {iv ys : Bytes} (hx : xs.length = iv.length) (hy : ys.length = iv.length)
    (h : List.zipWith (· ^^^ ·) iv xs = List.zipWith (· ^^^ ·) iv ys) : xs = ys := by
  induction iv generalizing xs ys with
  | nil => rw [eq_nil_of_length_eq_zero hx, eq_nil_of_length_eq_zero hy]
  | cons b iv ih =>
    cases xs with
    | nil => cases hx
    | cons x xs =>
      cases ys with
      | nil => cases hy
      | cons y ys =>
        rw [zipWith_cons_cons, zipWith_cons_cons, List.cons.injEq] at h
        rw [(UInt8.xor_right_inj b).1 h.1, ih (Nat.succ.inj hx) (Nat.succ.inj hy) h.2]

theorem tls13Nonce_eq (h8 : 8 ≤ rl.iv.length) : tls13Nonce rl = nonceAt rl.iv rl.number := by
  have hlen : rl.iv.length = (rl.iv.length - 8) + 8 := by omega
  have htake : (rl.iv.take (rl.iv.length - 8)).length = rl.iv.length - 8 :=
    length_take_of_le (by omega)
  have hencode : encode rl.iv.length rl.number =
      List.replicate (rl.iv.length - 8) 0 ++ encode 8 rl.number := by
    have hzero : rl.number / 256 ^ 8 = 0 := Nat.div_eq_of_lt rl.number_lt
    rw [hlen, encode_add, hzero, encode_zero, Nat.add_sub_cancel]
  rw [tls13Nonce, nonceAt, hencode, rl.sequence_eq]
  nth_rewrite 5 [← take_append_drop (rl.iv.length - 8) rl.iv]
  rw [zipWith_append (by rw [htake, length_replicate]), zipWith_xor_zero htake]

theorem tls13Cipher_ok {rec : Tls13Event} {outs : List Bytes}
    (h : tls13Cipher rl rec = .ok (rl', outs)) :
    rl'.iv = rl.iv ∧ outs = (List.range' rl.number outs.length).map (nonceAt rl.iv) ∧
      rl'.number = rl.number + outs.length := by
  rw [tls13Cipher] at h
  split at h
  · cases h
    exact ⟨rfl, rfl, rfl⟩
  obtain ⟨hlen, h⟩ := ok_of_check h
  obtain ⟨next, hinc, h⟩ := bind_eq_ok.1 h
  obtain ⟨hnumber, hivs, _⟩ := tlsIncrementSequenceCtr_ok hinc
  cases (ok_of_check h).2
  refine ⟨hivs, ?_, hnumber⟩
  rw [tls13Nonce_eq (by omega)]
  rfl

theorem tls13_short_iv (hiv : rl.iv.length < 8) (recs : List Tls13Event) :
    runUntil tls13Cipher rl recs = [] := by
  induction recs with
  | nil => rfl
  | cons rec recs ih =>
    by_cases halert : rec.type = ssl3RtAlert
    · have hstep : tls13Cipher rl rec = .ok (rl, []) := by rw [tls13Cipher, if_pos halert]; rfl
      rw [runUntil_ok hstep, ih, append_nil]
    · have hstep : tls13Cipher rl rec = .error ⟨.internalError, .internalError⟩ := by
        rw [tls13Cipher, if_neg halert, if_pos hiv]
        rfl
      rw [runUntil_error hstep]

/-- The nonces are those of the first records, and they are different. -/
theorem tls13_nonces (iv : Bytes) (epoch : BitVec 16) (recs : List Tls13Event) :
    runUntil tls13Cipher (.new iv epoch) recs =
      (List.range' 0 (runUntil tls13Cipher (.new iv epoch) recs).length).map (nonceAt iv) ∧
    (runUntil tls13Cipher (.new iv epoch) recs).Nodup := by
  have hstep : ∀ (rl : WriteLayer) rec rl' outs, rl.iv = iv → tls13Cipher rl rec = .ok (rl', outs) →
      rl'.iv = iv ∧ outs = (List.range' rl.number outs.length).map (nonceAt iv) ∧
        rl'.number = rl.number + outs.length := by
    rintro rl rec rl' outs rfl h
    exact tls13Cipher_ok h
  have hnew : (WriteLayer.new iv epoch).iv = iv := rfl
  obtain ⟨heq, hlt⟩ := runUntil_eq_map _ WriteLayer.number (2 ^ 64) (nonceAt iv)
    (fun rl _ => rl.number_lt) hstep hnew recs
  refine ⟨heq, ?_⟩
  by_cases h8 : iv.length < 8
  · rw [tls13_short_iv h8]
    exact nodup_nil
  rw [heq]
  apply nodup_map_range' _ (Nat.le_of_lt (Nat.zero_add _ ▸ hlt))
  intro i j hi hj h
  have hle : 256 ^ 8 ≤ 256 ^ iv.length := Nat.pow_le_pow_right (by decide) (by omega)
  have hencode := zipWith_xor_inj (length_encode _ _) (length_encode _ _) h
  exact encode_inj (by omega) (by omega) hencode

/-- The sequence number of a record. -/
def seqNumAt (i : Nat) : SeqNum := ⟨(encode 8 i).toArray, by simp⟩

theorem toList_seqNumAt (i : Nat) : (seqNumAt i).toList = encode 8 i := by
  simp [seqNumAt]

theorem sequence_eq_seqNumAt (rl : WriteLayer) : rl.sequence = seqNumAt rl.number := by
  apply Vector.toList_inj.1
  rw [toList_seqNumAt, rl.sequence_eq]

variable {outs : List SeqNum}

theorem tls1AadLoop_ok {recs : List Bool} (h : tls1AadLoop rl recs = .ok (rl', outs)) :
    outs = (List.range' rl.number outs.length).map seqNumAt ∧
      rl'.number = rl.number + outs.length := by
  induction recs generalizing rl outs with
  | nil =>
    cases h
    exact ⟨rfl, rfl⟩
  | cons padOk recs ih =>
    rw [tls1AadLoop] at h
    obtain ⟨next, hinc, h⟩ := bind_eq_ok.1 h
    obtain ⟨hnumber, _⟩ := tlsIncrementSequenceCtr_ok hinc
    obtain ⟨r, hloop, h⟩ := bind_eq_ok.1 (ok_of_check h).2
    cases h
    obtain ⟨haads, hcount⟩ := ih hloop
    rw [length_cons, range'_succ, map_cons, ← sequence_eq_seqNumAt, ← hnumber, ← haads]
    refine ⟨rfl, ?_⟩
    rw [hcount, hnumber, Nat.add_assoc, Nat.add_comm 1]

theorem tls1Cipher_ok {e : Tls1Event} (h : tls1Cipher rl e = .ok (rl', outs)) :
    outs = (List.range' rl.number outs.length).map seqNumAt ∧
      rl'.number = rl.number + outs.length := by
  rw [tls1Cipher] at h
  obtain ⟨r, hloop, h⟩ := bind_eq_ok.1 (ok_of_check h).2
  cases (ok_of_check h).2
  exact tls1AadLoop_ok hloop

theorem tls1_aads (iv : Bytes) (epoch : BitVec 16) (es : List Tls1Event) :
    runUntil tls1Cipher (.new iv epoch) es =
      (List.range' 0 (runUntil tls1Cipher (.new iv epoch) es).length).map seqNumAt ∧
    (runUntil tls1Cipher (.new iv epoch) es).Nodup := by
  obtain ⟨heq, hlt⟩ := runUntil_eq_map (fun _ => True) WriteLayer.number (2 ^ 64) seqNumAt
    (fun rl _ => rl.number_lt) (fun rl e rl' outs _ h => ⟨trivial, tls1Cipher_ok h⟩)
    trivial es
  refine ⟨heq, ?_⟩
  rw [heq]
  apply nodup_map_range' _ (Nat.le_of_lt (Nat.zero_add _ ▸ hlt))
  intro i j hi hj h
  have hencode := congrArg Vector.toList h
  exact encode_inj hi hj hencode

/-! ### DTLS -/

/-- What a DTLS record is sent with. -/
def dtlsSentAt (epoch : BitVec 16) (i : Nat) : DtlsSent :=
  ⟨(epoch, encode 6 i), encode 2 epoch.toNat ++ encode 6 i⟩

theorem dtlsSeq_eq (rl : WriteLayer) : dtlsSeq rl = encode 6 rl.number := by
  have h := encode_add 2 6 rl.number
  rw [dtlsSeq, rl.sequence_eq, h, drop_left' (length_encode _ _)]

theorem dtlsWriteRecord_ok {ok : Bool} {outs : List DtlsSent}
    (h : dtlsWriteRecord rl ok = .ok (rl', outs)) :
    rl'.epoch = rl.epoch ∧ outs = (List.range' rl.number outs.length).map (dtlsSentAt rl.epoch) ∧
      rl'.number = rl.number + outs.length := by
  rw [dtlsWriteRecord] at h
  obtain ⟨next, hinc, h⟩ := bind_eq_ok.1 (ok_of_check h).2
  obtain ⟨hnumber, _, hepoch⟩ := tlsIncrementSequenceCtr_ok hinc
  cases h
  refine ⟨hepoch, ?_, hnumber⟩
  rw [dtlsSeq_eq]
  rfl

theorem dtls_headers (iv : Bytes) (epoch : BitVec 16) (oks : List Bool) :
    runUntil dtlsWriteRecord (.new iv epoch) oks =
      (List.range' 0 (runUntil dtlsWriteRecord (.new iv epoch) oks).length).map
        (dtlsSentAt epoch) := by
  have hstep : ∀ (rl : WriteLayer) ok rl' outs, rl.epoch = epoch →
      dtlsWriteRecord rl ok = .ok (rl', outs) →
      rl'.epoch = epoch ∧ outs = (List.range' rl.number outs.length).map (dtlsSentAt epoch) ∧
        rl'.number = rl.number + outs.length := by
    rintro rl ok rl' outs rfl h
    exact dtlsWriteRecord_ok h
  have hnew : (WriteLayer.new iv epoch).epoch = epoch := rfl
  have hrun := runUntil_eq_map _ WriteLayer.number (2 ^ 64) (dtlsSentAt epoch)
    (fun rl _ => rl.number_lt) hstep hnew oks
  exact hrun.1

/-- A record is sent for every event before the first failure, until the counter fails. -/
theorem length_dtls_log (rl : WriteLayer) (oks : List Bool) :
    (runUntil dtlsWriteRecord rl oks).length =
      min (oks.takeWhile id).length (2 ^ 64 - 1 - rl.number) := by
  induction oks generalizing rl with
  | nil => rfl
  | cons ok oks ih =>
    cases ok with
    | false => rfl
    | true =>
      have hspec := tlsIncrementSequenceCtr_spec rl
      rw [takeWhile_cons_of_pos rfl, length_cons]
      split at hspec
      · obtain ⟨rl', hinc, hnumber, _⟩ := hspec
        obtain ⟨sent, hstep⟩ : ∃ sent, dtlsWriteRecord rl true = .ok (rl', [sent]) := by
          rw [dtlsWriteRecord, hinc]
          exact ⟨_, rfl⟩
        rw [runUntil_ok hstep, length_append, ih, length_singleton]
        omega
      · obtain ⟨e, hinc⟩ := hspec
        have hstep : dtlsWriteRecord rl true = .error e := by
          rw [dtlsWriteRecord, hinc]
          rfl
        rw [runUntil_error hstep, length_nil]
        omega

section

variable {epoch : BitVec 16} {α : Type*} {f : DtlsSent → α}
  (hf : ∀ i j, f (dtlsSentAt epoch i) = f (dtlsSentAt epoch j) ↔ encode 6 i = encode 6 j)
include hf

/-- The values that DTLS uses are different as long as 48 bits are enough for the records. -/
theorem nodup_dtls_iff (n : Nat) :
    (((List.range' 0 n).map (dtlsSentAt epoch)).map f).Nodup ↔ n ≤ 2 ^ 48 := by
  rw [map_map]
  constructor
  · intro h
    by_contra hlt
    have hinj := (nodup_map_iff_inj_on nodup_range').1 h
    have hmem : ∀ i, i ≤ 2 ^ 48 → i ∈ List.range' 0 n := by
      intro i hi
      rw [mem_range'_1]
      omega
    -- the number of this record has the same lowest six bytes as the first one
    have hsame : encode 6 0 = encode 6 (2 ^ 48) := rfl
    exact nomatch hinj 0 (hmem 0 (Nat.zero_le _)) (2 ^ 48) (hmem _ le_rfl) ((hf _ _).2 hsame)
  · intro hn
    have hinj : ∀ i j, i < 256 ^ 6 → j < 256 ^ 6 →
        f (dtlsSentAt epoch i) = f (dtlsSentAt epoch j) → i = j := by
      intro i j hi hj h
      exact encode_inj hi hj ((hf i j).1 h)
    exact nodup_map_range' hinj hn

theorem dtls_nodup_iff (iv : Bytes) (oks : List Bool) :
    ((runUntil dtlsWriteRecord (.new iv epoch) oks).map f).Nodup ↔
      (oks.takeWhile id).length ≤ 2 ^ 48 := by
  rw [dtls_headers, nodup_dtls_iff hf, length_dtls_log, WriteLayer.number_new]
  omega

end

theorem header_dtlsSentAt_inj (epoch : BitVec 16) (i j : Nat) :
    (dtlsSentAt epoch i).header = (dtlsSentAt epoch j).header ↔ encode 6 i = encode 6 j :=
  ⟨fun h => congrArg Prod.snd h, fun h => congrArg (Prod.mk epoch) h⟩

theorem protection_dtlsSentAt_inj (epoch : BitVec 16) (i j : Nat) :
    (dtlsSentAt epoch i).protection = (dtlsSentAt epoch j).protection ↔ encode 6 i = encode 6 j :=
  append_right_inj _

/-- What a record layer protects until it fails: TLS 1.3 uses the static IV with the index of the
record, TLS 1.2 the index, and none of them comes back. In DTLS the lowest 48 bits of the index are
written and used; they come back after 2^48 records, before the counter fails. -/
theorem sequence_numbers_not_reused (iv : Bytes) (epoch : BitVec 16) (recs : List Tls13Event)
    (es : List Tls1Event) (oks : List Bool) :
    (runUntil tls13Cipher (.new iv epoch) recs =
        (List.range' 0 (runUntil tls13Cipher (.new iv epoch) recs).length).map (nonceAt iv) ∧
      (runUntil tls13Cipher (.new iv epoch) recs).Nodup) ∧
    (runUntil tls1Cipher (.new iv epoch) es).Nodup ∧
    (((runUntil dtlsWriteRecord (.new iv epoch) oks).map DtlsSent.header).Nodup ∧
      ((runUntil dtlsWriteRecord (.new iv epoch) oks).map DtlsSent.protection).Nodup ↔
        (oks.takeWhile id).length ≤ 2 ^ 48) := by
  refine ⟨tls13_nonces iv epoch recs, (tls1_aads iv epoch es).2, ?_⟩
  rw [dtls_nodup_iff (header_dtlsSentAt_inj epoch),
    dtls_nodup_iff (protection_dtlsSentAt_inj epoch), and_self]

theorem dtls_wraps (hn : 2 ^ 48 < n) (iv : Bytes) (epoch : BitVec 16) :
    ¬ ((runUntil dtlsWriteRecord (.new iv epoch) (List.replicate n true)).map
      DtlsSent.header).Nodup := by
  have htake : (List.replicate n true).takeWhile id = List.replicate n true :=
    takeWhile_replicate
  rw [dtls_nodup_iff (header_dtlsSentAt_inj epoch), htake, length_replicate, not_le]
  exact hn

/-- The epoch and the sequence number of the first record are used again. -/
theorem dtls_sequence_number_reused :
    ¬ ((runUntil dtlsWriteRecord (.new [] 1) (List.replicate (2 ^ 48 + 1) true)).map
      DtlsSent.header).Nodup :=
  dtls_wraps (Nat.lt_succ_self _) [] 1

end QuicTls.Record
