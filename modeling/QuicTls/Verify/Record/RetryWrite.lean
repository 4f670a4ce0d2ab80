import Mathlib.Algebra.Order.Ring.Int
import QuicTls.Ssl.Record.RetryWrite

/-!
# Success of a write means that everything was written, unless the BIO stalls

`TurnSpec` is about one turn of the loop, `retry_write_reports_success` about whole calls.
-/

namespace QuicTls.Record.RetryWrite

open List

/-! ### Pending bytes -/

/-- The bytes of the buffers from `nextwbuf` on that the BIO has not taken. -/
def Layer.pending (rl : Layer) : Bytes := (rl.wbuf.drop rl.nextwbuf).flatMap TlsBuffer.bytes

theorem TlsBuffer.length_bytes (b : TlsBuffer) : b.bytes.length = b.left := by
  have hfits := b.fits
  rw [bytes, length_take, length_drop]
  omega

theorem TlsBuffer.bytes_advance (b : TlsBuffer) {n : Nat} (h : n ≤ b.left) :
    (b.advance n h).bytes = b.bytes.drop n := by
  rw [bytes, bytes, advance, drop_take, drop_drop]

theorem drop_eq_cons {α : Type*} {xs : List α} {i : Nat} {x : α} (h : xs[i]? = some x) :
    xs.drop i = x :: xs.drop (i + 1) := by
  obtain ⟨hi, rfl⟩ := List.getElem?_eq_some_iff.1 h
  exact drop_eq_getElem_cons hi

section Turn

variable {rl : Layer} {thiswb : TlsBuffer} (hget : rl.wbuf[rl.nextwbuf]? = some thiswb)
include hget

theorem pending_eq :
    rl.pending = thiswb.bytes ++ (rl.wbuf.drop (rl.nextwbuf + 1)).flatMap TlsBuffer.bytes := by
  rw [Layer.pending, drop_eq_cons hget, flatMap_cons]

theorem nextwbuf_lt : rl.nextwbuf < rl.wbuf.length := (List.getElem?_eq_some_iff.1 hget).1

theorem drop_set (b : TlsBuffer) :
    (rl.wbuf.set rl.nextwbuf b).drop rl.nextwbuf = b :: rl.wbuf.drop (rl.nextwbuf + 1) := by
  have hlt := nextwbuf_lt hget
  have hset : (rl.wbuf.set rl.nextwbuf b)[rl.nextwbuf]? = some b := getElem?_set_self hlt
  rw [drop_eq_cons hset, drop_set_of_lt (Nat.lt_succ_self _)]

end Turn

theorem pending_releaseIfDone (rl : Layer) : (releaseIfDone rl).pending = rl.pending := by
  rw [releaseIfDone]
  split
  · rename_i h
    have hdrop : rl.wbuf.drop rl.nextwbuf = [] := drop_eq_nil_of_le (Nat.le_of_eq h.1.symm)
    rw [Layer.pending, Layer.pending, hdrop, tlsReleaseWriteBuffer, drop_nil]
  · rfl

/-! ### The loop -/

/-- `BIO_write` returns 0 for bytes that it is offered, and does not ask for a retry. -/
def Stalls (rl : Layer) (thiswb : TlsBuffer) (r : BioResult) : Prop :=
  rl.bio = true ∧ r.prepare = .success ∧ 0 < thiswb.left ∧ r.write = some 0 ∧ r.shouldRetry = false

instance (rl : Layer) (thiswb : TlsBuffer) (r : BioResult) : Decidable (Stalls rl thiswb r) :=
  inferInstanceAs (Decidable (_ ∧ _))

/-- No turn of the loop meets such a result. -/
def NeverStalls (rl : Layer) : List BioResult → Prop
  | [] => True
  | r :: rs =>
    match rl.wbuf[rl.nextwbuf]? with
    | none => True
    | some thiswb =>
      ¬ Stalls rl thiswb r ∧
        match retryWriteTurn rl thiswb r with
        | .return .. => True
        | .continue rl' _ => NeverStalls rl' rs

/-- The number of turns that a call can still take. -/
def Layer.work (rl : Layer) : Nat := ((rl.wbuf.drop rl.nextwbuf).map fun b => b.left + 1).sum

variable {rl : Layer} {thiswb : TlsBuffer}

theorem work_eq (hget : rl.wbuf[rl.nextwbuf]? = some thiswb) :
    rl.work = thiswb.left + 1 + ((rl.wbuf.drop (rl.nextwbuf + 1)).map fun b => b.left + 1).sum := by
  rw [Layer.work, drop_eq_cons hget, map_cons, sum_cons]

/-- What a turn does in TLS. -/
def TurnSpec (rl : Layer) (thiswb : TlsBuffer) (r : BioResult) : Turn → Prop
  | .continue rl' taken =>
    rl.pending = taken ++ rl'.pending ∧ ¬ Stalls rl thiswb r ∧ rl'.isdtls = false ∧
      rl'.nextwbuf < rl'.wbuf.length ∧ rl'.work < rl.work
  | .return ret rl' taken =>
    rl.pending = taken ++ rl'.pending ∧ ((ret = .success → rl'.pending = []) ↔ ¬ Stalls rl thiswb r)

theorem writeFailed_spec {r : BioResult} {ret : Return}
    (htls : rl.isdtls = false) (hpending : Stalls rl thiswb r → rl.pending ≠ [])
    (hret : ret = .success ↔ Stalls rl thiswb r) :
    TurnSpec rl thiswb r (writeFailed rl thiswb ret) := by
  rw [writeFailed, htls]
  refine ⟨rfl, ?_⟩
  rw [hret]
  exact ⟨fun h hstall => hpending hstall (h hstall), fun h hstall => absurd hstall h⟩

/-- One turn of the loop writes a part of a buffer. -/
theorem retryWriteTurn_spec (r : BioResult)
    (hget : rl.wbuf[rl.nextwbuf]? = some thiswb) (htls : rl.isdtls = false) :
    TurnSpec rl thiswb r (retryWriteTurn rl thiswb r) := by
  have hlt := nextwbuf_lt hget
  have hpending : Stalls rl thiswb r → rl.pending ≠ [] := by
    rintro ⟨_, _, hleft, _⟩ hnil
    rw [pending_eq hget, append_eq_nil_iff] at hnil
    have hlen := thiswb.length_bytes
    rw [hnil.1, length_nil] at hlen
    omega
  rw [retryWriteTurn]
  split
  · rename_i hbio
    apply writeFailed_spec htls hpending
    exact ⟨nofun, fun hstall => by rw [hstall.1] at hbio; exact nomatch hbio⟩
  split
  · rename_i hprepare
    exact ⟨rfl, fun _ hstall => hprepare hstall.2.1, fun _ h => absurd h hprepare⟩
  rename_i hbio hprepare
  have hprepare : r.prepare = .success := of_not_not hprepare
  have hbio : rl.bio = true := by
    rwa [Bool.not_eq_true, Bool.not_eq_false'] at hbio
  split
  · rename_i hwrite
    have hstall : ¬ Stalls rl thiswb r := by
      rintro ⟨_, _, _, hzero, _⟩
      rw [BioResult.bioWrite, hzero] at hwrite
      exact nomatch hwrite
    apply writeFailed_spec htls hpending
    refine ⟨fun h => ?_, fun h => absurd h hstall⟩
    split at h <;> exact nomatch h
  rename_i tmpwrit hwrite
  obtain ⟨n, hn, rfl⟩ := Option.map_eq_some_iff.1 hwrite
  -- only a BIO that takes nothing of what it is offered stalls
  have hstalls : Stalls rl thiswb r ↔
      0 < thiswb.left ∧ min thiswb.left n = 0 ∧ r.shouldRetry = false := by
    simp only [Stalls, hn, hbio, hprepare, Option.some.injEq]
    grind
  dsimp only
  split
  · have hstall : ¬ Stalls rl thiswb r := by
      rw [hstalls]
      omega
    split_ifs with hnext
    · refine ⟨?_, hstall, htls, hnext, ?_⟩
      · rw [pending_eq hget, Layer.pending, drop_set_of_lt (Nat.lt_succ_self _)]
      · rw [work_eq hget, Layer.work, drop_set_of_lt (Nat.lt_succ_self _)]
        exact Nat.lt_add_of_pos_left (Nat.succ_pos _)
    · rw [Layer.numwpipes, length_set, not_lt] at hnext
      have hdrop : rl.wbuf.drop (rl.nextwbuf + 1) = [] := drop_eq_nil_of_le hnext
      refine ⟨?_, ?_⟩
      · rw [pending_releaseIfDone, pending_eq hget, Layer.pending,
          drop_set_of_lt (Nat.lt_succ_self _)]
      · rw [pending_releaseIfDone, Layer.pending, drop_set_of_lt (Nat.lt_succ_self _), hdrop]
        exact ⟨fun _ => hstall, fun _ _ => rfl⟩
  split
  · rename_i hall hzero
    apply writeFailed_spec htls hpending
    rw [hstalls]
    split_ifs with hretry
    · exact ⟨nofun, fun h => by rw [hretry] at h; exact nomatch h.2.2⟩
    · exact ⟨fun _ => ⟨by omega, hzero, Bool.eq_false_iff.2 hretry⟩, fun _ => rfl⟩
  · have hstall : ¬ Stalls rl thiswb r := by
      rw [hstalls]
      omega
    refine ⟨?_, hstall, htls, ?_, ?_⟩
    · rw [pending_eq hget, Layer.pending, drop_set hget, flatMap_cons, ← append_assoc,
        TlsBuffer.bytes_advance, take_append_drop]
    · rwa [length_set]
    · rw [work_eq hget, Layer.work, drop_set hget, map_cons, sum_cons]
      have hleft : (thiswb.advance (min thiswb.left n) (Nat.min_le_left _ _)).left =
          thiswb.left - min thiswb.left n := rfl
      omega

variable {rs : List BioResult}

/-- The bytes are taken in order; success means that none is left unless a write stalls. -/
theorem retryWriteLoop_spec {out : Outcome}
    (htls : rl.isdtls = false) (h : retryWriteLoop rl rs = some out) :
    rl.pending = out.taken ++ out.rl.pending ∧
      ((out.ret = .success → out.rl.pending = []) ↔ NeverStalls rl rs) := by
  fun_induction retryWriteLoop rl rs generalizing out with
  | case1 | case2 => exact nomatch h
  | case3 rl r rs thiswb hget ret rl' taken hturn =>
    have hspec := retryWriteTurn_spec r hget htls
    rw [hturn] at hspec
    cases h
    simpa [NeverStalls, hget, hturn, TurnSpec] using hspec
  | case4 rl r rs thiswb hget rl' taken hturn ih =>
    have hspec := retryWriteTurn_spec r hget htls
    rw [hturn] at hspec
    obtain ⟨hpending, hstall, htls', _⟩ := hspec
    obtain ⟨out', hout', rfl⟩ := Option.map_eq_some_iff.1 h
    obtain ⟨hrest, hiff⟩ := ih htls' hout'
    refine ⟨?_, ?_⟩
    · rw [hpending, hrest, append_assoc]
    · simpa [NeverStalls, hget, hturn, hstall] using hiff

/-- Every turn takes a byte or ends with a buffer, so that the loop returns. -/
theorem retryWriteLoop_returns (htls : rl.isdtls = false)
    (hnext : rl.nextwbuf < rl.wbuf.length) (hrs : rl.work ≤ rs.length) :
    ∃ out, retryWriteLoop rl rs = some out := by
  induction rs generalizing rl with
  | nil =>
    have hget := getElem?_eq_getElem hnext
    rw [work_eq hget, length_nil] at hrs
    omega
  | cons r rs ih =>
    have hget := getElem?_eq_getElem hnext
    rw [retryWriteLoop, hget]
    dsimp only
    have hspec := retryWriteTurn_spec r hget htls
    cases hturn : retryWriteTurn rl rl.wbuf[rl.nextwbuf] r with
    | «return» ret rl' taken => exact ⟨_, rfl⟩
    | «continue» rl' taken =>
      rw [hturn] at hspec
      obtain ⟨_, _, htls', hnext', hwork⟩ := hspec
      rw [length_cons] at hrs
      obtain ⟨out, hout⟩ := ih htls' hnext' (by omega)
      dsimp only
      rw [hout]
      exact ⟨_, rfl⟩

theorem tlsRetryWriteRecords_returns (htls : rl.isdtls = false) (hrs : rl.work ≤ rs.length) :
    ∃ out, tlsRetryWriteRecords rl rs = some out := by
  rw [tlsRetryWriteRecords]
  split
  · exact ⟨_, rfl⟩
  · rename_i hnext
    exact retryWriteLoop_returns htls (not_le.1 hnext) hrs

/-- A call returns after so many results of the BIO. What the BIO took, followed by what the
buffers still hold, is what the buffers held; and the call reports success only with nothing left
exactly if the BIO never returns 0 for bytes it is offered, without asking for a retry. -/
theorem retry_write_reports_success (rl : Layer) (htls : rl.isdtls = false) (rs : List BioResult) :
    (rl.work ≤ rs.length → ∃ out, tlsRetryWriteRecords rl rs = some out) ∧
    ∀ out, tlsRetryWriteRecords rl rs = some out → out.taken ++ out.rl.pending = rl.pending ∧
      ((out.ret = .success → out.taken = rl.pending) ↔ NeverStalls rl rs) := by
  refine ⟨tlsRetryWriteRecords_returns htls, ?_⟩
  intro out h
  rw [tlsRetryWriteRecords] at h
  split at h
  · rename_i hnext
    cases h
    have hget : rl.wbuf[rl.nextwbuf]? = none := getElem?_eq_none hnext
    have hpending : rl.pending = [] := by
      rw [Layer.pending, drop_eq_nil_of_le hnext, flatMap_nil]
    refine ⟨rfl, ?_⟩
    rw [hpending]
    refine ⟨fun _ => ?_, fun _ _ => rfl⟩
    cases rs with
    | nil => trivial
    | cons r rs =>
      rw [NeverStalls, hget]
      trivial
  · obtain ⟨hpending, hiff⟩ := retryWriteLoop_spec htls h
    refine ⟨hpending.symm, ?_⟩
    rw [← hiff, hpending, self_eq_append_right]

/-- A record of three bytes, for a BIO that takes two of them and then the last one. -/
theorem retry_write_reports_success_two_writes :
    ∃ out, tlsRetryWriteRecords ⟨[⟨[1, 2, 3], 0, 3, by decide⟩], 0, true, false, false⟩
        [⟨.success, some 2, false⟩, ⟨.success, some 1, false⟩] = some out ∧
      out.ret = .success ∧ out.taken = [1, 2, 3] :=
  ⟨_, rfl, rfl, ((retry_write_reports_success
    ⟨[⟨[1, 2, 3], 0, 3, by decide⟩], 0, true, false, false⟩ rfl
    [⟨.success, some 2, false⟩, ⟨.success, some 1, false⟩]).2 _ rfl).2.2
      ⟨by decide, by decide, trivial⟩ rfl⟩

/-- The BIO takes nothing, and the record is reported as written. -/
theorem retry_write_stalled :
    ∃ out, tlsRetryWriteRecords ⟨[⟨[1, 2, 3], 0, 3, by decide⟩], 0, true, false, false⟩
        [⟨.success, some 0, false⟩] = some out ∧
      out.ret = .success ∧ out.taken = [] ∧ out.rl.pending = [1, 2, 3] :=
  ⟨_, rfl, rfl, rfl, rfl⟩

end QuicTls.Record.RetryWrite
