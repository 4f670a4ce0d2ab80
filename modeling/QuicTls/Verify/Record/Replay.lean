import QuicTls.Theory.Run
import QuicTls.Theory.Window
import QuicTls.Ssl.Record.Dtls

/-!
# The bitmap is a sliding window

The bitmap of a record layer represents the numbers of the records it has authenticated, so that the
check is the rule of a sliding window of 64 numbers (`dtls_antiReplay`).
-/

namespace QuicTls

open Run Window

/-- The number that the bytes stand for. -/
def SeqNum.val (v : SeqNum) : Nat := v.n2l8.toNat

/-- The difference, cut off at 128. -/
theorem satsub64be_eq (v1 v2 : SeqNum) :
    satsub64be v1 v2 = max (-128) (min 128 ((v1.val : Int) - v2.val)) := by
  unfold satsub64be SeqNum.val
  generalize v1.n2l8 = l1
  generalize v2.n2l8 = l2
  simp only [BitVec.lt_def, BitVec.toInt_eq_toNat_cond, BitVec.toNat_sub]
  split <;> split <;> omega

namespace DtlsBitmap

variable {bitmap : DtlsBitmap} {seq : SeqNum} {recorded : Set Nat}

/-- The bitmap stands for the numbers in `recorded`. -/
def Tracks (bitmap : DtlsBitmap) (recorded : Set Nat) : Prop :=
  Represents 64 recorded bitmap.maxSeqNum.val fun k => bitmap.map.getLsbD k = true

theorem tracks_zero : zero.Tracks ∅ := Represents.empty (by decide)

theorem getLsbD_one_shiftLeft {k i : Nat} (hi : i < 64) :
    (1#64 <<< k).getLsbD i = decide (i = k) := by
  rw [← BitVec.twoPow_eq]
  grind

theorem and_one_shiftLeft (x : BitVec 64) {k : Nat} (hk : k < 64) :
    x &&& (1#64 <<< k) ≠ 0 ↔ x.getLsbD k = true := by
  rw [← BitVec.twoPow_eq, BitVec.and_twoPow]
  split_ifs with hbit
  · refine iff_of_true (fun hzero => ?_) hbit
    simpa [hk] using congrArg (BitVec.getLsbD · k) hzero
  · exact iff_of_false (not_not.2 rfl) hbit

/-- The check accepts what the window accepts. -/
theorem Tracks.replayCheck (h : bitmap.Tracks recorded) :
    bitmap.replayCheck seq = true ↔ Accepts 64 recorded seq.val := by
  rw [h.accepts_iff (by decide)]
  unfold DtlsBitmap.replayCheck
  rw [satsub64be_eq]
  generalize seq.val = s
  generalize bitmap.maxSeqNum.val = m
  rcases Nat.lt_or_ge m s with hs | hs
  · rw [if_pos (by omega)]
    exact iff_of_true rfl (.inl hs)
  rw [if_neg (by omega)]
  rcases Nat.lt_or_ge (m - s) 64 with hk | hk
  · have hshift : (-(max (-128) (min 128 ((s : Int) - m)))).toNat = m - s := by omega
    rw [hshift, if_neg (by omega)]
    by_cases hbit : bitmap.map.getLsbD (m - s) = true
    · rw [if_pos ((and_one_shiftLeft _ hk).2 hbit)]
      exact iff_of_false nofun fun hor => hor.elim (by omega) fun hc => hc.2 hbit
    · rw [if_neg (mt (and_one_shiftLeft _ hk).1 hbit)]
      exact iff_of_true rfl (.inr ⟨hk, hbit⟩)
  · rw [if_pos (by omega)]
    exact iff_of_false nofun fun hor => hor.elim (by omega) (by omega)

/-- The number of a record that passes the check is recorded. -/
theorem Tracks.update (h : bitmap.Tracks recorded) (hseq : bitmap.replayCheck seq = true) :
    (bitmap.update seq).Tracks (insert seq.val recorded) := by
  have hacc := (h.accepts_iff (by decide)).1 (h.replayCheck.1 hseq)
  unfold DtlsBitmap.update
  rw [satsub64be_eq]
  dsimp only
  rcases Nat.lt_or_ge bitmap.maxSeqNum.val seq.val with hs | hs
  · rw [if_pos (by omega)]
    refine h.advance hs fun k hk => ?_
    by_cases hfar : seq.val - bitmap.maxSeqNum.val < 64
    · have hshift : (max (-128) (min 128 ((seq.val : Int) - bitmap.maxSeqNum.val))).toNat
          = seq.val - bitmap.maxSeqNum.val := by omega
      rw [hshift]
      rw [if_pos hfar, BitVec.getLsbD_or, BitVec.getLsbD_one]
      simp
      tauto
    · rw [if_neg (by omega)]
      simp
      omega
  · obtain ⟨hk', -⟩ := hacc.resolve_left (by omega)
    have hshift : (-(max (-128) (min 128 ((seq.val : Int) - bitmap.maxSeqNum.val)))).toNat
        = bitmap.maxSeqNum.val - seq.val := by omega
    rw [if_neg (by omega), hshift, if_pos hk']
    refine h.mark hs fun k hk => ?_
    rw [BitVec.getLsbD_or, getLsbD_one_shiftLeft hk]
    simp

end DtlsBitmap

namespace DtlsRecordLayer

variable {rl : DtlsRecordLayer} {rr : DtlsRecord}

/-- The record was authenticated, so that its number is recorded. -/
def Recorded (e : DtlsRecord × DtlsOutcome) : Prop :=
  e.1.authentic = true ∧ (e.2 = .success ∨ e.2 = .fatal)

/-- The numbers that were recorded. -/
def recorded (log : List (DtlsRecord × DtlsOutcome)) : Set Nat :=
  {n | ∃ e ∈ log, Recorded e ∧ e.1.sequence.val = n}

/-- A record leaves the bitmap alone, or it passes the check and is recorded. -/
theorem receive_cases (rl : DtlsRecordLayer) (rr : DtlsRecord) :
    (rl.receive rr).1 = rl ∧ ¬Recorded (rr, (rl.receive rr).2) ∨
    (rl.receive rr).1 = { rl with bitmap := rl.bitmap.update rr.sequence } ∧
      rl.bitmap.replayCheck rr.sequence = true ∧ Recorded (rr, (rl.receive rr).2) := by
  have hskip {o : DtlsOutcome} (ho : o ≠ .success ∧ o ≠ .fatal) : ¬Recorded (rr, o) :=
    fun h => h.2.elim ho.1 ho.2
  unfold receive
  split
  · exact .inl ⟨rfl, hskip ⟨nofun, nofun⟩⟩
  rename_i bitmap isNextEpoch hbitmap
  split
  · exact .inl ⟨rfl, hskip ⟨nofun, nofun⟩⟩
  rename_i hcheck
  split
  · exact .inl ⟨rfl, hskip ⟨nofun, nofun⟩⟩
  split
  · exact .inl ⟨rfl, hskip ⟨nofun, nofun⟩⟩
  rename_i hnext
  -- a record of the current epoch is processed
  have hcur : bitmap = rl.bitmap := by
    unfold getBitmap at hbitmap
    split at hbitmap
    · cases hbitmap
      rfl
    · split at hbitmap <;> cases hbitmap
      exact absurd rfl hnext
  subst hcur
  unfold processRecord
  cases hauth : rr.authentic with
  | false => exact .inl ⟨rfl, fun h => Bool.false_ne_true (hauth.symm.trans h.1)⟩
  | true =>
    refine .inr ?_
    cases rr.accepted with
    | false => exact ⟨rfl, by simpa using hcheck, hauth, .inr rfl⟩
    | true => exact ⟨rfl, by simpa using hcheck, hauth, .inl rfl⟩

theorem tracks_run (hrl : rl.bitmap = .zero) (rrs : List DtlsRecord) :
    (run receive rl rrs).1.bitmap.Tracks (recorded (run receive rl rrs).2) := by
  refine run_invariant (fun (rl : DtlsRecordLayer) log => rl.bitmap.Tracks (recorded log))
    (fun _ => True) ?_ (fun _ _ => trivial) ?_
  · intro rl log rr _ h
    rcases receive_cases rl rr with ⟨heq, hnot⟩ | ⟨heq, hcheck, hrec⟩
    · have hlog : recorded (log ++ [(rr, (rl.receive rr).2)]) = recorded log := by
        simp [recorded, hnot]
      rw [hlog, heq]
      exact h
    have hlog : recorded (log ++ [(rr, (rl.receive rr).2)])
        = insert rr.sequence.val (recorded log) := by
      ext n
      simp [recorded, hrec, or_comm, eq_comm]
    rw [hlog, heq]
    exact h.update hcheck
  · have hnil : recorded [] = ∅ := by
      simp [recorded]
    rw [hnil, hrl]
    exact DtlsBitmap.tracks_zero

end DtlsRecordLayer

open DtlsRecordLayer

/-- **Anti-replay.** Whatever records come, and whichever of them are authentic, the check passes
the numbers that were not recorded and are not 64 or more below the largest recorded one, and the
bits of the bitmap are the recorded numbers of the window that ends with it. -/
theorem dtls_antiReplay (epoch : Nat) (nextBitmap : DtlsBitmap) (rrs : List DtlsRecord) :
    let r := run receive ⟨epoch, .zero, nextBitmap⟩ rrs
    (∀ seq : SeqNum, r.1.bitmap.replayCheck seq = true ↔
      seq.val ∉ recorded r.2 ∧ ∀ m ∈ recorded r.2, m < seq.val + 64) ∧
    (∀ m ∈ recorded r.2, m ≤ r.1.bitmap.maxSeqNum.val) ∧
    (r.1.bitmap.maxSeqNum.val ∈ recorded r.2 ∨ recorded r.2 = ∅ ∧ r.1.bitmap.maxSeqNum.val = 0) ∧
    ∀ k < 64, r.1.bitmap.map.getLsbD k = true ↔
      ∃ m ∈ recorded r.2, m + k = r.1.bitmap.maxSeqNum.val := by
  have h := @tracks_run ⟨epoch, .zero, nextBitmap⟩ rfl rrs
  exact ⟨fun seq => h.replayCheck, h.le, h.largest, h.bit_iff⟩

end QuicTls
