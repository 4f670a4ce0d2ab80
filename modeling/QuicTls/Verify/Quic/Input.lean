import Mathlib.Algebra.Order.Ring.Int
import QuicTls.Theory.Framing
import QuicTls.Ssl.SslQuic

/-!
What `sslProvideQuicData` and `quicGetMessage` do, in terms of the framing of a stream.

`recordCutter` is the framing rule of the splitting loop. `sslProvideQuicData_cases` says everything
a call can do, with and without memory, and `quicGetMessage_cases` the same of taking a message;
the invariants of runs are derived from these two.
-/

namespace QuicTls

open List

section

variable {Md β : Type} [Cell β] {xs : List β}

/-! ### The splitting loop -/

theorem n2l3_append (h : ssl3HmHeaderLength ≤ xs.length) (ys : List β) :
    n2l3 (xs ++ ys) = n2l3 xs := by
  match xs, h with
  | _ :: _ :: _ :: _ :: _, _ => rfl

theorem n2l3_lt (xs : List β) : n2l3 xs < 2 ^ 24 := by
  unfold n2l3
  split
  · rename_i b1 b2 b3 _
    have h1 := (Cell.val b1).toNat_lt
    have h2 := (Cell.val b2).toNat_lt
    have h3 := (Cell.val b3).toNat_lt
    omega
  · decide

/-- The loop cuts a message off when more than a header is there and the message is complete. -/
def recordCut (xs : List β) : Option Nat :=
  if ssl3HmHeaderLength < xs.length ∧ n2l3 xs + ssl3HmHeaderLength ≤ xs.length then
    some (n2l3 xs + ssl3HmHeaderLength)
  else none

theorem recordCut_eq_some {n : Nat} : recordCut xs = some n ↔
    ssl3HmHeaderLength < xs.length ∧ n ≤ xs.length ∧ n = n2l3 xs + ssl3HmHeaderLength := by
  unfold recordCut
  split <;> simp <;> omega

theorem recordCut_eq_none : recordCut xs = none ↔
    xs.length ≤ ssl3HmHeaderLength ∨ xs.length < n2l3 xs + ssl3HmHeaderLength := by
  unfold recordCut
  split <;> simp <;> omega

def recordCutter (β : Type) [Cell β] : Cutter β where
  cut := recordCut
  pos h := by
    obtain ⟨-, -, rfl⟩ := recordCut_eq_some.mp h
    exact Nat.lt_of_lt_of_le (by decide) (Nat.le_add_left ..)
  le_length h := (recordCut_eq_some.mp h).2.1
  mono ys h := by
    obtain ⟨h1, h2, rfl⟩ := recordCut_eq_some.mp h
    rw [recordCut_eq_some, List.length_append, n2l3_append (Nat.le_of_lt h1)]
    omega

/-- The messages and the rest that the code's framing makes of a stream. -/
abbrev records (xs : List β) : List (List β) × List β := (recordCutter β).split xs

section Loop

variable {alloc : Nat → Bool} {level : EncryptionLevel}

theorem splitRecords_of_none {data : List β} (hc : recordCut data = none) (fuel i : Nat)
    (queue : List (QuicData β)) :
    splitRecords alloc level fuel i queue data = (queue, data, true) := by
  cases fuel with
  | zero => rfl
  | succ fuel =>
    rw [splitRecords]
    rcases recordCut_eq_none.mp hc with hlen | hlen
    · rw [if_pos hlen]
    · rw [if_pos hlen, ite_self]

theorem splitRecords_of_some {data : List β} {n : Nat} (hc : recordCut data = some n)
    (fuel i : Nat) (queue : List (QuicData β)) :
    splitRecords alloc level (fuel + 1) i queue data =
      if alloc i then
        splitRecords alloc level fuel (i + 1) (queue ++ [⟨level, data.take n⟩]) (data.drop n)
      else (queue, data, false) := by
  obtain ⟨h1, h2, rfl⟩ := recordCut_eq_some.mp hc
  rw [splitRecords, if_neg (Nat.not_le.mpr h1)]
  rw [if_neg (Nat.not_lt.mpr h2)]
  cases alloc i <;> rfl

/-- The nodes appended are the first messages of the stream, all of them or up to a failed
allocation. -/
theorem splitRecords_cases (alloc : Nat → Bool) (level : EncryptionLevel) (fuel i : Nat)
    (queue : List (QuicData β)) (data : List β) :
    ∃ n rest ok, splitRecords alloc level fuel i queue data =
        (queue ++ (((recordCutter β).splitN fuel data).1.take n).map (QuicData.mk level),
          rest, ok) ∧
      ((∀ i, alloc i = true) → ok = true) ∧
      (ok = true → n = ((recordCutter β).splitN fuel data).1.length ∧
        rest = ((recordCutter β).splitN fuel data).2) := by
  induction fuel generalizing i queue data with
  | zero => exact ⟨0, data, true, by simp [splitRecords], fun _ => rfl, fun _ => ⟨rfl, rfl⟩⟩
  | succ fuel ih =>
    cases hc : recordCut data with
    | none =>
      rw [splitRecords_of_none hc, Cutter.splitN_of_none hc]
      exact ⟨0, data, true, by simp, fun _ => rfl, fun _ => ⟨rfl, rfl⟩⟩
    | some n =>
      rw [splitRecords_of_some hc, Cutter.splitN_of_some hc]
      cases ha : alloc i with
      | false =>
        exact ⟨0, data, false, by simp, fun h => ha.symm.trans (h i),
          fun h => absurd h Bool.false_ne_true⟩
      | true =>
        obtain ⟨k, rest, ok, hk, hall, hok⟩ :=
          ih (i + 1) (queue ++ [⟨level, data.take n⟩]) (data.drop n)
        refine ⟨k + 1, rest, ok, ?_, hall, fun h => ?_⟩
        · rw [if_pos rfl, hk, take_succ_cons, map_cons, append_assoc, singleton_append]
        · rw [(hok h).1, (hok h).2]
          exact ⟨rfl, rfl⟩

end Loop

/-! ### Joining, saving and rejecting -/

/-- The contents of `quic_buf`. -/
def contents : Option (BufMem β) → List β
  | some buf => buf.data
  | none => []

variable {alloc : AllocSite → Bool} {s : SslConnection Md β} {level : EncryptionLevel}
  {data : List β}

omit [Cell β] in
theorem fragmentLength_eq (s : SslConnection Md β) :
    fragmentLength s = (contents s.quicBuf).length := by
  unfold fragmentLength contents
  cases s.quicBuf <;> rfl

/-- The bytes to parse are the partial message followed by the data; they lie in `quic_buf` if
there was a partial message. -/
theorem joinFragment_some {s' : SslConnection Md β} {data' : List β}
    (h : joinFragment alloc s data = some (s', data')) :
    data' = contents s.quicBuf ++ data ∧ ∃ buf, s' = { s with quicBuf := buf } ∧
      (contents s.quicBuf = [] ∧ buf = s.quicBuf ∨
        contents s.quicBuf ≠ [] ∧ contents buf = data') := by
  unfold joinFragment at h
  cases hb : s.quicBuf with
  | none =>
    simp only [hb] at h
    obtain ⟨rfl, rfl⟩ := h
    exact ⟨rfl, none, by rw [← hb], .inl ⟨rfl, rfl⟩⟩
  | some buf =>
    simp only [hb] at h
    split at h
    · rename_i hlen
      obtain ⟨rfl, rfl⟩ := h
      have hnil : buf.data = [] := length_eq_zero_iff.mp hlen
      exact ⟨by simp [contents, hnil], some buf, by rw [← hb], .inl ⟨hnil, rfl⟩⟩
    rename_i hlen
    split at h
    · cases h
    rename_i hret
    obtain ⟨rfl, rfl⟩ := h
    have hne : buf.data ≠ [] := fun h => hlen (by rw [h]; rfl)
    have hgrow := BufMem.data_bufMemGrow hret
    have hlen' : buf.data.length + data.length =
        (buf.bufMemGrow (alloc .fragment) (buf.data.length + data.length)).1.data.length := by
      rw [hgrow, length_append, length_take, length_replicate]; omega
    refine ⟨?_, _, rfl, .inr ⟨hne, rfl⟩⟩
    rw [BufMem.data_write hlen', hgrow, take_of_length_le (Nat.le_add_right ..), take_left]
    rfl

theorem saveIn_cases (alloc : AllocSite → Bool) (s : SslConnection Md β) (buf : BufMem β)
    (hlen : 0 < data.length) :
    (∃ buf', saveIn alloc s buf data = ({ s with quicBuf := some buf' }, .ok ()) ∧
      buf'.data = data) ∨
    saveIn alloc s buf data = ({ s with quicBuf := some buf }, .error .internalError) := by
  unfold saveIn
  by_cases hret : (buf.bufMemGrow (alloc .save) data.length).2 = 0
  · rw [if_pos hret, BufMem.bufMemGrow_of_eq_zero hlen hret]
    exact .inr rfl
  rw [if_neg hret]
  refine .inl ⟨_, rfl, ?_⟩
  have hgrow := BufMem.data_bufMemGrow hret
  have hlen' : 0 + data.length = (buf.bufMemGrow (alloc .save) data.length).1.data.length := by
    rw [hgrow, length_append, length_take, length_replicate]; omega
  rw [BufMem.data_write hlen', take_zero, nil_append]

/-- What is left of the data is kept for the next call. -/
theorem saveUnread_cases (alloc : AllocSite → Bool) (s : SslConnection Md β) (data : List β)
    (inPlace : Bool) (hin : inPlace = true → contents s.quicBuf = data) :
    ∃ buf, (∃ r, saveUnread alloc s inPlace data = ({ s with quicBuf := buf }, r) ∧
      (r = .ok () ∧ contents buf = data ∨
        r = .error .internalError ∧ contents buf = contents s.quicBuf)) := by
  unfold saveUnread
  by_cases hlen : 0 < data.length
  · rw [if_pos hlen]
    cases hb : s.quicBuf with
    | none =>
      dsimp only
      cases alloc .bufNew with
      | false => exact ⟨none, _, by rw [← hb]; rfl, .inr ⟨rfl, rfl⟩⟩
      | true =>
        rcases saveIn_cases alloc s .bufMemNew hlen with ⟨buf, h, hd⟩ | h
        · exact ⟨some buf, _, h, .inl ⟨rfl, hd⟩⟩
        · exact ⟨some .bufMemNew, _, h, .inr ⟨rfl, rfl⟩⟩
    | some buf =>
      dsimp only
      cases inPlace with
      | true => exact ⟨some buf, _, by rw [← hb]; rfl, .inl ⟨rfl, by rw [← hb]; exact hin rfl⟩⟩
      | false =>
        rcases saveIn_cases alloc s buf hlen with ⟨buf', h, hd⟩ | h
        · exact ⟨some buf', _, h, .inl ⟨rfl, hd⟩⟩
        · exact ⟨some buf, _, h, .inr ⟨rfl, rfl⟩⟩
  · rw [if_neg hlen]
    have hnil : data = [] := length_eq_zero_iff.mp (Nat.eq_zero_of_not_pos hlen)
    refine ⟨_, _, rfl, .inl ⟨rfl, ?_⟩⟩
    cases s.quicBuf <;> simp [contents, hnil]

theorem saveUnread_ok (halloc : ∀ a, alloc a = true) (inPlace : Bool)
    (hlim : data.length ≤ BufMem.limitBeforeExpansion) :
    (saveUnread alloc s inPlace data).2 = .ok () := by
  unfold saveUnread
  by_cases hlen : 0 < data.length
  · have hsave (buf : BufMem β) : (saveIn alloc s buf data).2 = .ok () := by
      unfold saveIn
      rw [halloc, if_neg (BufMem.bufMemGrow_ne_zero hlen hlim)]; rfl
    rw [if_pos hlen]
    cases s.quicBuf with
    | none => simp only [halloc, if_true, hsave]
    | some buf =>
      cases inPlace with
      | true => rfl
      | false => exact hsave buf
  · rw [if_neg hlen]; rfl

/-- The level checks of `SSL_provide_quic_data` pass. -/
structure LevelAccepted (s : SslConnection Md β) (level : EncryptionLevel) : Prop where
  read_le : s.keys.quicReadLevel ≤ level
  tail_le : ∀ tail ∈ s.quicInputData.getLast?, tail.level ≤ level
  latest_le : s.quicLatestLevelReceived ≤ level
  fragment : contents s.quicBuf = [] ∨ level = s.quicLatestLevelReceived

/-- What becomes of a stream that is accepted: its messages join the queue and the rest is kept.
When memory runs out, only the first `n` messages do, and `quic_buf` keeps what it held, with or
without the data. -/
theorem acceptQuicData_cases (alloc : AllocSite → Bool) (s : SslConnection Md β)
    (level : EncryptionLevel) (data : List β) : ∃ n buf r,
    acceptQuicData alloc s level data = ({ s with
      quicInputData := s.quicInputData ++
        ((records (contents s.quicBuf ++ data)).1.take n).map (QuicData.mk level)
      quicBuf := buf }, r) ∧
    (r = .ok () ∧ n = (records (contents s.quicBuf ++ data)).1.length ∧
        contents buf = (records (contents s.quicBuf ++ data)).2 ∨
      r = .error .internalError ∧
        (contents buf = contents s.quicBuf ∨ contents buf = contents s.quicBuf ++ data)) := by
  unfold acceptQuicData
  cases hj : joinFragment alloc s data with
  | none => exact ⟨0, s.quicBuf, _, by simp; rfl, .inr ⟨rfl, .inl rfl⟩⟩
  | some p =>
    obtain ⟨s', data'⟩ := p
    obtain ⟨rfl, buf, rfl, hbuf⟩ := joinFragment_some hj
    obtain ⟨n, rest, ok, hsplit, -, hok⟩ := splitRecords_cases (alloc <| .node ·) level
      (contents s.quicBuf ++ data).length 0 s.quicInputData (contents s.quicBuf ++ data)
    dsimp only
    rw [hsplit]
    cases ok with
    | false =>
      refine ⟨n, buf, .error .internalError, rfl, .inr ⟨rfl, ?_⟩⟩
      rcases hbuf with ⟨-, rfl⟩ | ⟨-, h⟩
      · exact .inl rfl
      · exact .inr h
    | true =>
      obtain ⟨rfl, rfl⟩ := hok rfl
      rw [take_length]
      obtain ⟨buf', r, hsave, hr⟩ := saveUnread_cases alloc
        { s with
          quicInputData := s.quicInputData ++
            (records (contents s.quicBuf ++ data)).1.map (QuicData.mk level)
          quicBuf := buf }
        (records (contents s.quicBuf ++ data)).2
        (decide (fragmentLength s ≠ 0) &&
          decide ((records (contents s.quicBuf ++ data)).2.length =
            (contents s.quicBuf ++ data).length)) (by
          intro h
          simp only [Bool.and_eq_true, decide_eq_true_eq] at h
          rw [Cutter.split_rest_of_length h.2]
          rcases hbuf with ⟨hnil, -⟩ | ⟨-, h'⟩
          · rw [fragmentLength_eq, hnil] at h
            exact absurd rfl h.1
          · exact h')
      refine ⟨(records (contents s.quicBuf ++ data)).1.length, buf', r, ?_, ?_⟩
      · rw [take_length]
        exact hsave
      rcases hr with ⟨rfl, h⟩ | ⟨rfl, h⟩
      · exact .inl ⟨rfl, rfl, h⟩
      · refine .inr ⟨rfl, ?_⟩
        rcases hbuf with ⟨-, rfl⟩ | ⟨-, h'⟩
        · exact .inl h
        · exact .inr (h.trans h')

/-- The data is refused, empty, or accepted. -/
theorem sslProvideQuicData_cases (alloc : AllocSite → Bool) (s : SslConnection Md β)
    (level : EncryptionLevel) (data : List β) :
    (∃ e, (e = .shouldNotHaveBeenCalled ∨ e = .wrongEncryptionLevelReceived) ∧
      sslProvideQuicData alloc s level data = (s, .error e)) ∨
    (data = [] ∧ sslProvideQuicData alloc s level data = (s, .ok ())) ∨
    (LevelAccepted s level ∧ sslProvideQuicData alloc s level data =
      acceptQuicData alloc { s with quicLatestLevelReceived := level } level data) := by
  unfold sslProvideQuicData
  split_ifs with _ hlevel hlen hfrag
  · exact .inl ⟨_, .inl rfl, rfl⟩
  · exact .inl ⟨_, .inr rfl, rfl⟩
  · exact .inr (.inl ⟨length_eq_zero_iff.mp hlen, rfl⟩)
  · exact .inl ⟨_, .inr rfl, rfl⟩
  refine .inr (.inr ⟨⟨?_, ?_, ?_, ?_⟩, rfl⟩)
  · exact not_lt.mp fun h => hlevel (.inl h)
  · exact fun tail ht => not_lt.mp fun h => hlevel (.inr (.inl ⟨tail, ht, h⟩))
  · exact not_lt.mp fun h => hlevel (.inr (.inr h))
  · by_cases h : level = s.quicLatestLevelReceived
    · exact .inr h
    · refine .inl (length_eq_zero_iff.mp ?_)
      rw [← fragmentLength_eq]
      exact Classical.byContradiction fun h' => hfrag ⟨h', h⟩

theorem length_records_rest (xs : List β) :
    (records xs).2.length ≤ BufMem.limitBeforeExpansion := by
  have h24 := n2l3_lt (records xs).2
  have hcut : recordCut (records xs).2 = none := (recordCutter β).cut_split_rest xs
  rcases recordCut_eq_none.mp hcut with h | h
  · exact Nat.le_trans h (by decide)
  · unfold BufMem.limitBeforeExpansion
    unfold ssl3HmHeaderLength at h
    omega

/-- With memory available data is taken whole, or not at all when it would make the buffer too
long. -/
theorem acceptQuicData_ok (halloc : ∀ a, alloc a = true) (s : SslConnection Md β)
    (level : EncryptionLevel) (data : List β) :
    (acceptQuicData alloc s level data).2 = .ok () ∨
      acceptQuicData alloc s level data = (s, .error .internalError) := by
  unfold acceptQuicData
  cases joinFragment alloc s data with
  | none => exact .inr rfl
  | some p =>
    obtain ⟨n, rest, ok, hsplit, hall, hok⟩ := splitRecords_cases (alloc <| .node ·) level
      p.2.length 0 p.1.quicInputData p.2
    obtain rfl := hall fun i => halloc (.node i)
    obtain ⟨-, rfl⟩ := hok rfl
    left
    dsimp only
    rw [hsplit]
    exact saveUnread_ok halloc _ (length_records_rest p.2)

/-- A call of `quicGetMessage` takes the first node, when its level is the read level, or leaves the
input as it is. -/
theorem quicGetMessage_cases (alloc : Bool) (s : SslConnection Md β) :
    (∃ qd next buf mt, s.quicInputData = qd :: next ∧ qd.level = s.keys.quicReadLevel ∧
      ssl3HmHeaderLength ≤ qd.bytes.length ∧ buf.data = qd.bytes ∧
      quicGetMessage alloc s = ({ s with
        initBuf := buf, quicInputData := next
        messageType := mt, messageSize := n2l3 qd.bytes }, some mt)) ∨
    ∃ reading buf fatal, quicGetMessage alloc s =
      ({ s with reading := reading, initBuf := buf, fatal := fatal }, none) := by
  unfold quicGetMessage
  cases hq : s.quicInputData with
  | nil => exact .inr ⟨true, s.initBuf, s.fatal, rfl⟩
  | cons qd next =>
    dsimp only
    split_ifs with hlen hlevel hret
    · exact .inr ⟨s.reading, s.initBuf, _, by rw [← hq]⟩
    · exact .inr ⟨s.reading, s.initBuf, _, by rw [← hq]⟩
    · exact .inr ⟨s.reading, _, _, by rw [← hq]⟩
    have hgrow := BufMem.data_bufMemGrow hret
    have hlen' : 0 + qd.bytes.length =
        (s.initBuf.bufMemGrow alloc qd.bytes.length).1.data.length := by
      rw [hgrow, length_append, length_take, length_replicate]; omega
    have hdata := BufMem.data_write hlen'
    rw [take_zero, nil_append] at hdata
    refine .inl ⟨qd, next, _, (qd.bytes.head?.map Cell.val).getD 0, rfl, not_not.mp hlevel,
      Nat.not_lt.mp hlen, hdata, ?_⟩
    rw [hdata]

end
end QuicTls
