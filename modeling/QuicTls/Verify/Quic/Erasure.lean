import QuicTls.Verify.Quic.Framing

/-!
# The input functions do not look at more than the bytes

The input functions are defined for cells of any type with a byte in them. A map between cells that
keeps the bytes commutes with every one of them, and so with a step of a connection
(`quicStep_map`): what is proved of cells that carry a tag besides their byte holds of the code's
bytes.
-/

namespace QuicTls

open List

variable {Md β γ : Type} [Cell β] [Cell γ] {K : Kdf Md} {f : β → γ}

/-- A map of cells that keeps their bytes. -/
structure CellHom (f : β → γ) : Prop where
  val : ∀ b, Cell.val (f b) = Cell.val b
  zero : f Cell.zero = Cell.zero

namespace BufMem

attribute [ext] BufMem

omit [Cell β] [Cell γ] in
def map (f : β → γ) (str : BufMem β) : BufMem γ :=
  ⟨str.data.map f, str.max, by rw [List.length_map]; exact str.length_le_max⟩

omit [Cell β] [Cell γ] in
theorem map_write (str : BufMem β) (off : Nat) (src : List β) :
    (str.map f).write off (src.map f) = (str.write off src).map f := by
  ext1
  · simp [write, map]
  · rfl

theorem map_bufMemGrow (hf : CellHom f) (realloc : Bool) (str : BufMem β) (len : Nat) :
    (str.map f).bufMemGrow realloc len = Prod.map (map f) id (str.bufMemGrow realloc len) := by
  have hlen : (str.map f).data.length = str.data.length := length_map f
  have hres (max : Nat) (h : len ≤ max) :
      (str.map f).resize len max h = (str.resize len max h).map f := by
    ext1
    · simp [resize, map, hf.zero]
    · rfl
  unfold bufMemGrow
  have hmax : (str.map f).max = str.max := rfl
  simp only [hlen, hmax, hres]
  split
  · rfl
  · split
    · rfl
    · split
      · rfl
      · split <;> rfl

end BufMem

omit [Cell β] [Cell γ] in
def QuicData.map (f : β → γ) (qd : QuicData β) : QuicData γ := ⟨qd.level, qd.bytes.map f⟩

def SslConnection.map (f : β → γ) (s : SslConnection Md β) : SslConnection Md γ where
  keys := s.keys
  quicInputData := s.quicInputData.map (QuicData.map f)
  quicBuf := s.quicBuf.map (BufMem.map f)
  quicLatestLevelReceived := s.quicLatestLevelReceived
  reading := s.reading
  initBuf := s.initBuf.map f
  messageType := s.messageType
  messageSize := s.messageSize
  fatal := s.fatal

omit [Cell β] [Cell γ] in
theorem keys_map (s : SslConnection Md β) : (s.map f).keys = s.keys := rfl

omit [Cell β] [Cell γ] in
theorem quicInputData_map (s : SslConnection Md β) :
    (s.map f).quicInputData = s.quicInputData.map (QuicData.map f) := rfl

def QuicEvent.map (f : β → γ) : QuicEvent Md β → QuicEvent Md γ
  | .provide alloc level data => .provide alloc level (data.map f)
  | .getMessage alloc => .getMessage alloc
  | .key op => .key op

def QuicResult.map (f : β → γ) : QuicResult β → QuicResult γ
  | .provided ret => .provided ret
  | .message msg => .message (msg.map (List.map f))
  | .key => .key

theorem n2l3_map (hf : CellHom f) (xs : List β) : n2l3 (xs.map f) = n2l3 xs := by
  match xs with
  | [] | [_] | [_, _] | [_, _, _] => rfl
  | _ :: _ :: _ :: _ :: _ => simp [n2l3, hf.val]

theorem splitRecords_map (hf : CellHom f) (alloc : Nat → Bool) (level : EncryptionLevel)
    (fuel i : Nat) (queue : List (QuicData β)) (data : List β) :
    splitRecords alloc level fuel i (queue.map (QuicData.map f)) (data.map f) =
      Prod.map (List.map (QuicData.map f)) (Prod.map (List.map f) id)
        (splitRecords alloc level fuel i queue data) := by
  induction fuel generalizing i queue data with
  | zero => rfl
  | succ fuel ih =>
    have hq (l : Nat) : queue.map (QuicData.map f) ++ [QuicData.mk level ((data.map f).take l)] =
        (queue ++ [QuicData.mk level (data.take l)]).map (QuicData.map f) := by
      rw [map_append, ← map_take]; rfl
    simp only [splitRecords, length_map, n2l3_map hf, hq, ← map_drop, ih]
    split
    · rfl
    · split
      · rfl
      · split <;> rfl

variable (alloc : AllocSite → Bool) (s : SslConnection Md β) (data : List β)

omit [Cell β] [Cell γ] in
theorem fragmentLength_map : fragmentLength (s.map f) = fragmentLength s := by
  unfold fragmentLength SslConnection.map
  cases s.quicBuf with
  | none => rfl
  | some buf => exact length_map f

section
variable (hf : CellHom f)
include hf

theorem joinFragment_map :
    joinFragment alloc (s.map f) (data.map f) =
      (joinFragment alloc s data).map (Prod.map (.map f) (.map f)) := by
  obtain ⟨keys, queue, quicBuf, latest, reading, initBuf, mt, ms, fatal⟩ := s
  cases quicBuf with
  | none => rfl
  | some buf =>
    have hlen : (buf.map f).data.length = buf.data.length := length_map f
    simp only [joinFragment, SslConnection.map, Option.map_some, hlen, length_map,
      BufMem.map_bufMemGrow hf, Prod.map_fst, Prod.map_snd, id_eq, BufMem.map_write]
    split
    · rfl
    · split <;> rfl

theorem saveIn_map (buf : BufMem β) :
    saveIn alloc (s.map f) (buf.map f) (data.map f) =
      Prod.map (.map f) id (saveIn alloc s buf data) := by
  simp only [saveIn, length_map, BufMem.map_bufMemGrow hf, Prod.map_fst, Prod.map_snd, id_eq,
    BufMem.map_write]
  split <;> rfl

theorem saveUnread_map (inPlace : Bool) :
    saveUnread alloc (s.map f) inPlace (data.map f) =
      Prod.map (.map f) id (saveUnread alloc s inPlace data) := by
  unfold saveUnread
  rw [length_map]
  split
  · cases hb : s.quicBuf with
    | none =>
      have hb' : (s.map f).quicBuf = none := by simp [SslConnection.map, hb]
      rw [hb']
      dsimp only
      split
      · exact saveIn_map alloc s data hf .bufMemNew
      · rfl
    | some buf =>
      have hb' : (s.map f).quicBuf = some (buf.map f) := by simp [SslConnection.map, hb]
      rw [hb']
      dsimp only
      split
      · rfl
      · exact saveIn_map alloc s data hf buf
  · cases hb : s.quicBuf <;> simp [SslConnection.map, hb, BufMem.clear, BufMem.map]

theorem acceptQuicData_map (level : EncryptionLevel) :
    acceptQuicData alloc (s.map f) level (data.map f) =
      Prod.map (.map f) id (acceptQuicData alloc s level data) := by
  unfold acceptQuicData
  rw [joinFragment_map alloc s data hf, fragmentLength_map]
  cases joinFragment alloc s data with
  | none => rfl
  | some p =>
    obtain ⟨s', data'⟩ := p
    have hsplit := splitRecords_map hf (alloc <| .node ·) level data'.length 0
    simp only [Option.map_some, Prod.map_apply, length_map, quicInputData_map, hsplit]
    generalize splitRecords (alloc <| .node ·) level data'.length 0 s'.quicInputData data' = r
    obtain ⟨queue, rest, ok⟩ := r
    cases ok with
    | false => rfl
    | true =>
      simp only [Prod.map_apply, length_map, id_eq]
      exact saveUnread_map alloc { s' with quicInputData := queue } rest hf _

theorem sslProvideQuicData_map (level : EncryptionLevel) :
    sslProvideQuicData alloc (s.map f) level (data.map f) =
      Prod.map (.map f) id (sslProvideQuicData alloc s level data) := by
  have htail : (∃ tail ∈ (s.map f).quicInputData.getLast?, level < tail.level) ↔
      ∃ tail ∈ s.quicInputData.getLast?, level < tail.level := by
    rw [quicInputData_map, getLast?_map]
    cases s.quicInputData.getLast? <;> simp [QuicData.map]
  have hlatest : (s.map f).quicLatestLevelReceived = s.quicLatestLevelReceived := rfl
  unfold sslProvideQuicData
  simp only [htail, keys_map, hlatest, length_map, fragmentLength_map]
  split_ifs
  · rfl
  · rfl
  · rfl
  · rfl
  · exact acceptQuicData_map alloc { s with quicLatestLevelReceived := level } data hf level

theorem quicGetMessage_map (alloc : Bool) :
    quicGetMessage alloc (s.map f) = Prod.map (.map f) id (quicGetMessage alloc s) := by
  obtain ⟨keys, queue, quicBuf, latest, reading, initBuf, mt, ms, fatal⟩ := s
  cases queue with
  | nil => rfl
  | cons qd next =>
    have hlen : (qd.map f).bytes.length = qd.bytes.length := length_map f
    have hwrite (str : BufMem β) :
        (str.map f).write 0 (qd.map f).bytes = (str.write 0 qd.bytes).map f :=
      BufMem.map_write str 0 qd.bytes
    have hdata (str : BufMem β) : (str.map f).data = str.data.map f := rfl
    simp only [quicGetMessage, SslConnection.map, map_cons, hlen,
      BufMem.map_bufMemGrow hf, Prod.map_fst, Prod.map_snd, id_eq, hwrite, hdata, n2l3_map hf,
      head?_map, Option.map_map, Function.comp_def, hf.val]
    have hlevel : (qd.map f).level = qd.level := rfl
    simp only [hlevel]
    split_ifs <;> rfl

/-- **A step does not depend on more than the bytes.** -/
theorem quicStep_map (e : QuicEvent Md β) :
    quicStep K (s.map f) (e.map f) = Prod.map (.map f) (.map f) (quicStep K s e) := by
  cases e with
  | provide alloc level data =>
    simp only [QuicEvent.map, quicStep, sslProvideQuicData_map alloc s data hf]
    rfl
  | getMessage alloc =>
    simp only [QuicEvent.map, quicStep, quicGetMessage_map s hf]
    cases h : (quicGetMessage alloc s).2 <;> simp [QuicResult.map, h, SslConnection.map, BufMem.map]
  | key op =>
    simp only [QuicEvent.map, quicStep, keyEvent, keys_map]
    cases keyStep K s.keys op <;> rfl

end

end QuicTls
