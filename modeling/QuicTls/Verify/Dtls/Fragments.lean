import QuicTls.Ssl.Statem.DtlsWrite

/-!
# The fragments of a message

`dtls1_do_write` writes the header of a fragment over the twelve bytes in front of it. A call that
fails leaves `init_off` and `init_num` with the room for that header (`Suspended`); the loop itself
goes from one fragment to the next without it (`Fresh`).
-/

namespace QuicTls.DtlsWrite

open List

open Dtls (dtls1HmHeaderLength)

variable {ω : Type} {cfg : Config} {overhead f n : Nat} {base s s' : Writer ω} {hdr : HmHeader}
  {body buf : Bytes} {t : Turn} {fragOff : Nat} {retry : Bool} {parts : List Bytes} {mtu m : Nat}
  {turns : List Turn} {c : Call}

/-- The header of the fragment at `off` of `len` bytes. -/
def fragmentHeader (hdr : HmHeader) (off len : Nat) : Bytes :=
  dtls1WriteMessageHeader { hdr with fragOff := off, fragLen := len }

/-- The records of consecutive parts of a message, from `off` on. -/
def fragments (hdr : HmHeader) : Nat → List Bytes → List Bytes
  | _, [] => []
  | off, part :: parts =>
    (fragmentHeader hdr off part.length ++ part) :: fragments hdr (off + part.length) parts

@[simp] theorem length_fragmentHeader (hdr : HmHeader) (off len : Nat) :
    (fragmentHeader hdr off len).length = dtls1HmHeaderLength := by
  simp [fragmentHeader, dtls1WriteMessageHeader, dtls1HmHeaderLength]

@[simp] theorem length_toBytes (hdr : HmHeader) : hdr.toBytes.length = dtls1HmHeaderLength := by
  simp [HmHeader.toBytes, dtls1HmHeaderLength]

theorem fragments_concat (hdr : HmHeader) (off : Nat) (parts : List Bytes) (part : Bytes) :
    fragments hdr off (parts ++ [part]) = fragments hdr off parts ++
      [fragmentHeader hdr (off + parts.flatten.length) part.length ++ part] := by
  induction parts generalizing off with
  | nil => rfl
  | cons p parts ih =>
    rw [cons_append, fragments, ih, fragments, cons_append, flatten_cons,
      length_append, Nat.add_assoc]

theorem map_drop_fragments (hdr : HmHeader) (off : Nat) (parts : List Bytes) :
    (fragments hdr off parts).map (List.drop dtls1HmHeaderLength) = parts := by
  induction parts generalizing off with
  | nil => rfl
  | cons p parts ih =>
    rw [fragments, map_cons, ih, drop_left' (length_fragmentHeader ..)]

/-! ### The states of a writer -/

/-- The bytes for `ssl3_finish_mac` when `part` is the beginning of the body. -/
def macInput (cfg : Config) (hdr : HmHeader) (part : Bytes) : Bytes :=
  (if cfg.badVer then [] else hdr.toBytes) ++ part

section

variable (cfg base hdr body)

/-- The writer after it has sent `parts`, and what else it has changed. -/
def sending (parts : List Bytes) (buf : Bytes) (off num fragOff fragLen mtu : Nat) : Writer ω :=
  { base with
    initBuf := buf
    initOff := off
    initNum := num
    wMsgHdr := { hdr with fragOff := fragOff, fragLen := fragLen }
    mtu := mtu
    sent := base.sent ++ (fragments hdr 0 parts).map (⟨base.wrl, true, ·⟩)
    mac := base.mac ++
      if base.retransmitting ∨ parts = [] then [] else macInput cfg hdr parts.flatten }

/-- The first `f` bytes of the body have been sent in `parts`; the others are in the buffer. -/
structure Partly (f : Nat) (parts : List Bytes) (buf : Bytes) : Prop where
  hdrLen : hdr.msgLen = body.length
  bound : body.length + dtls1HmHeaderLength ≤ intMax
  left : f = 0 ∨ f < body.length
  room : dtls1HmHeaderLength + body.length ≤ buf.length
  rest : slice buf (dtls1HmHeaderLength + f) (body.length - f) = body.drop f
  flatten : parts.flatten = body.take f
  nonempty : [] ∉ parts

/-- Where a call can be left, and where the next one starts. -/
def Suspended (f : Nat) (s : Writer ω) : Prop :=
  ∃ parts buf fragOff fragLen mtu, Partly hdr body f parts buf ∧ (f ≠ 0 → fragOff = f) ∧
    s = sending cfg base hdr parts buf f (body.length - f + dtls1HmHeaderLength) fragOff fragLen
      mtu

/-- Between two fragments. -/
def Fresh (f : Nat) (s : Writer ω) : Prop :=
  ∃ parts buf fragLen mtu, 0 < f ∧ Partly hdr body f parts buf ∧
    s = sending cfg base hdr parts buf (dtls1HmHeaderLength + f) (body.length - f) f fragLen mtu

/-- The whole message has been sent. -/
def Finished (s : Writer ω) : Prop :=
  ∃ parts buf fragOff fragLen mtu, parts.flatten = body ∧ parts ≠ [] ∧ ([] ∈ parts → body = []) ∧
    s = sending cfg base hdr parts buf 0 0 fragOff fragLen mtu

/-- The beginning of a turn, with the local variable `frag_off`. -/
def Ready (f fragOff : Nat) (s : Writer ω) : Prop :=
  Suspended cfg base hdr body f s ∧ fragOff = 0 ∨ Fresh cfg base hdr body f s ∧ fragOff = f

/-- What a turn that sent its record leaves. -/
inductive SentSpec (f mtu : Nat) (retry : Bool) : Writer ω × TurnOut → Prop
  | finished {s : Writer ω} (h : Finished cfg base hdr body s) : SentSpec f mtu retry (s, .done 1)
  | next {s : Writer ω} {f' : Nat} (hlt : f < f') (hmtu : s.mtu = mtu)
    (h : Fresh cfg base hdr body f' s) : SentSpec f mtu retry (s, .again f' retry)

/-- What a turn leaves. -/
inductive TurnSpec : Writer ω × TurnOut → Prop
  | finished {s : Writer ω} (h : Finished cfg base hdr body s) : TurnSpec (s, .done 1)
  | failed {s : Writer ω} {f : Nat} {ret : Int} (hret : ret ≤ 0)
    (h : Suspended cfg base hdr body f s) : TurnSpec (s, .done ret)
  | again {s : Writer ω} {f fragOff : Nat} {retry : Bool}
    (h : Ready cfg base hdr body f fragOff s) : TurnSpec (s, .again fragOff retry)

/-- What a call leaves. -/
inductive CallSpec : Writer ω × Int → Prop
  | finished {s : Writer ω} (h : Finished cfg base hdr body s) : CallSpec (s, 1)
  | failed {s : Writer ω} {f : Nat} {ret : Int} (hret : ret ≤ 0)
    (h : Suspended cfg base hdr body f s) : CallSpec (s, ret)

end

/-- A record holds a header; one that is not the last holds a byte of the body. -/
theorem recordLen_spec (cfg : Config) {num : Nat} (hnum : dtls1HmHeaderLength ≤ num)
    (hlt : num < 2 ^ 32) (hm : dtls1HmHeaderLength < m) :
    dtls1HmHeaderLength ≤ recordLen cfg num m ∧ recordLen cfg num m ≤ num ∧
      (recordLen cfg num m ≠ num → dtls1HmHeaderLength < recordLen cfg num m) := by
  have hmax := cfg.le_maxSendFragment
  have h12 : dtls1HmHeaderLength = 12 := rfl
  simp only [recordLen, Nat.mod_eq_of_lt hlt]
  split <;> split <;> omega

namespace Partly

variable (h : Partly hdr body f parts buf)
include h

theorem le : f ≤ body.length := by
  rcases h.left with rfl | hlt
  · exact Nat.zero_le _
  · exact hlt.le

theorem suspended (cfg : Config) (base : Writer ω)
    (fragLen mtu : Nat) : Suspended cfg base hdr body f
      (sending cfg base hdr parts buf f (body.length - f + dtls1HmHeaderLength) f fragLen mtu) :=
  ⟨parts, buf, f, fragLen, mtu, h, fun _ => rfl, rfl⟩

theorem part_eq (hn : n ≤ body.length - f) :
    slice buf (dtls1HmHeaderLength + f) n = (body.drop f).take n := by
  rw [← h.rest, slice, slice, take_take, Nat.min_eq_left hn]

/-- A header is written in front of the fragment. -/
theorem overwrite {head : Bytes}
    (hhead : head.length = dtls1HmHeaderLength) (hn : n ≤ body.length - f) :
    Partly hdr body f parts (overwrite buf f head) ∧
      slice (QuicTls.overwrite buf f head) f (dtls1HmHeaderLength + n) =
        head ++ (body.drop f).take n := by
  have hle := h.le
  have hroom := h.room
  have hfit : f + head.length ≤ buf.length := by omega
  have h' : Partly hdr body f parts (QuicTls.overwrite buf f head) :=
    { h with
      room := by rwa [length_overwrite hfit]
      rest := (slice_overwrite (.inr (by omega)) hfit).trans h.rest }
  refine ⟨h', ?_⟩
  rw [← slice_append, ← hhead, slice_overwrite_self hfit, hhead, Nat.add_comm f, h'.part_eq hn]

/-- One more part has been sent. -/
theorem advance (hpos : 0 < n) (hlt : f + n < body.length) :
    Partly hdr body (f + n) (parts ++ [(body.drop f).take n]) buf where
  hdrLen := h.hdrLen
  bound := h.bound
  left := .inr hlt
  room := h.room
  rest := by
    have hslice := slice_slice buf (dtls1HmHeaderLength + f)
      (show n + (body.length - (f + n)) ≤ body.length - f by omega)
    rw [h.rest] at hslice
    rw [← Nat.add_assoc, ← hslice, slice, drop_drop, take_of_length_le]
    rw [length_drop]
  flatten := by rw [flatten_append, h.flatten, flatten_singleton, take_add]
  nonempty := by
    simp only [mem_append, h.nonempty, mem_singleton, false_or]
    intro hnil
    have hlen := congrArg List.length hnil
    rw [length_nil, length_take, length_drop] at hlen
    omega

theorem eq_nil_iff : parts = [] ↔ f = 0 := by
  have hflat := h.flatten
  constructor
  · rintro rfl
    have hlen := congrArg List.length hflat
    rw [flatten_nil, length_nil, length_take, Nat.min_eq_left h.le] at hlen
    exact hlen.symm
  rintro rfl
  cases parts with
  | nil => rfl
  | cons p parts =>
    rw [take_zero, flatten_cons, append_eq_nil_iff] at hflat
    exact absurd (hflat.1 ▸ mem_cons_self) h.nonempty

theorem recordLen_eq (cfg : Config) (hm : dtls1HmHeaderLength < m) :
    ∃ n, recordLen cfg (body.length - f + dtls1HmHeaderLength) m = dtls1HmHeaderLength + n ∧
      n ≤ body.length - f ∧ (n ≠ body.length - f → 0 < n) := by
  have hbound := h.bound
  rw [intMax] at hbound
  obtain ⟨hge, hle, hlt⟩ := recordLen_spec cfg
    (Nat.le_add_left dtls1HmHeaderLength (body.length - f)) (by omega) hm
  exact ⟨recordLen cfg (body.length - f + dtls1HmHeaderLength) m - dtls1HmHeaderLength, by omega,
    by omega, by omega⟩

/-- The part of a record that was sent is logged. -/
theorem logSent_eq {num o l : Nat} (hn : n ≤ body.length - f)
    (hrec : slice buf f (dtls1HmHeaderLength + n) =
      fragmentHeader hdr f n ++ (body.drop f).take n) :
    ∃ buf', Partly hdr body f parts buf' ∧
      logSent cfg true (sending cfg base hdr parts buf f num o l mtu) f (dtls1HmHeaderLength + n) =
        sending cfg base hdr (parts ++ [(body.drop f).take n]) buf' f num o l mtu := by
  have hlen : ((body.drop f).take n).length = n := by
    rw [length_take, length_drop, Nat.min_eq_left hn]
  have hoff : parts.flatten.length = f := by
    rw [h.flatten, length_take, Nat.min_eq_left h.le]
  have hsent : base.sent ++ (fragments hdr 0 parts).map (⟨base.wrl, true, ·⟩) ++
        [⟨base.wrl, true, slice buf f (dtls1HmHeaderLength + n)⟩] =
      base.sent ++
        (fragments hdr 0 (parts ++ [(body.drop f).take n])).map (⟨base.wrl, true, ·⟩) := by
    rw [fragments_concat, map_append, append_assoc, hoff, Nat.zero_add, hlen, hrec]
    rfl
  by_cases hre : base.retransmitting = true
  · refine ⟨buf, h, (if_neg (by simp [sending, hre])).trans ?_⟩
    simp [sending, hsent, hre]
  by_cases hfirst : f = 0 ∧ ¬cfg.badVer
  · obtain ⟨rfl, hver⟩ := hfirst
    obtain ⟨h', hslice⟩ := h.overwrite (length_toBytes hdr) hn
    refine ⟨_, h', (if_pos ⟨rfl, hre⟩).trans ?_⟩
    rw [finishMac, if_pos ⟨rfl, hver⟩]
    have hhead : HmHeader.toBytes { hdr with fragOff := o, fragLen := l } = hdr.toBytes := rfl
    obtain rfl := h.eq_nil_iff.2 rfl
    simp [sending, hsent, hre, hver, hhead, hslice, macInput]
  · refine ⟨buf, h, (if_pos ⟨rfl, hre⟩).trans ?_⟩
    rw [finishMac, if_neg hfirst, Nat.add_sub_cancel_left]
    simp only [sending, hsent, hre, Nat.add_comm f, h.part_eq hn, h.eq_nil_iff, macInput]
    by_cases hf : f = 0
    · have hver : cfg.badVer = true := by simpa [hf] using hfirst
      simp [hf, hver, h.eq_nil_iff.2 hf]
    · simp [hf]

/-- After a record was sent, the rest of the message is to be sent or nothing is. -/
theorem afterSent_spec (hn : n ≤ body.length - f) (hpos : n ≠ body.length - f → 0 < n)
    (hrec : slice buf f (dtls1HmHeaderLength + n) =
      fragmentHeader hdr f n ++ (body.drop f).take n) :
    SentSpec cfg base hdr body f mtu retry (afterSent cfg true
      (sending cfg base hdr parts buf f (body.length - f + dtls1HmHeaderLength) f n mtu) f retry
      (dtls1HmHeaderLength + n)) := by
  obtain ⟨buf', h', hs⟩ := h.logSent_eq hn hrec
  rw [afterSent, hs]
  by_cases hlast : n = body.length - f
  · rw [if_pos (by rw [hlast, Nat.add_comm]; rfl)]
    refine .finished ⟨parts ++ [(body.drop f).take n], buf', f, n, mtu, ?_, by simp, ?_, rfl⟩
    · rw [flatten_append, h.flatten, flatten_singleton, ← take_add, take_of_length_le (by omega)]
    intro hmem
    rcases mem_append.1 hmem with hmem | hmem
    · exact absurd hmem h.nonempty
    · have hlen := congrArg List.length (mem_singleton.1 hmem)
      rw [length_nil, length_take, length_drop] at hlen
      rcases h.left with hf | hf
      · exact eq_nil_of_length_eq_zero (by omega)
      · omega
  · have hn' := hpos hlast
    rw [if_neg (by simp only [sending]; omega), Nat.add_sub_cancel_left]
    refine .next (Nat.lt_add_of_pos_right hn') rfl
      ⟨_, buf', 0, mtu, by omega, h'.advance hn' (by omega), ?_⟩
    have hoff : f + (dtls1HmHeaderLength + n) = dtls1HmHeaderLength + (f + n) := by omega
    have hnum : body.length - f + dtls1HmHeaderLength - (dtls1HmHeaderLength + n) =
        body.length - (f + n) := by omega
    simp only [dtls1FixMessageHeader, sending, hoff, hnum]

end Partly

/-- Nothing has been sent yet. -/
theorem Suspended.start (hlen : base.wMsgHdr.msgLen = body.length)
    (hbound : body.length + dtls1HmHeaderLength ≤ intMax)
    (hroom : dtls1HmHeaderLength + body.length ≤ base.initBuf.length)
    (hrest : slice base.initBuf dtls1HmHeaderLength body.length = body)
    (hoff : base.initOff = 0) (hnum : base.initNum = body.length + dtls1HmHeaderLength) :
    Suspended cfg base base.wMsgHdr body 0 base := by
  refine ⟨[], base.initBuf, base.wMsgHdr.fragOff, base.wMsgHdr.fragLen, base.mtu,
    ⟨hlen, hbound, .inl rfl, hroom, hrest, rfl, not_mem_nil⟩, fun h => absurd rfl h, ?_⟩
  rw [Nat.sub_zero, ← hnum, ← hoff]
  simp [sending, fragments]

/-! ### A turn -/

theorem currMtu_spec (mtu overhead : Nat) (t : Turn) :
    (∃ m, currMtu mtu overhead t = .ok m ∧ dtls1HmHeaderLength < m) ∨
      ∃ ret ≤ 0, currMtu mtu overhead t = .error ret ∧
        ¬(0 < t.flush ∧ overhead + dtls1HmHeaderLength < mtu) := by
  rw [currMtu]
  generalize (if mtu > t.wpending + overhead then mtu - (t.wpending + overhead) else 0) = c
  split
  · split
    · exact .inr ⟨_, ‹_›, rfl, by omega⟩
    split
    · exact .inl ⟨_, rfl, by omega⟩
    · exact .inr ⟨-1, by decide, rfl, by omega⟩
  · exact .inl ⟨c, rfl, by omega⟩

/-- The MTU was exceeded behind the first fragment, and the loop tries again. The room for the
header is then made a second time. -/
def lateRetry (cfg : Config) (s : Writer ω) (retry : Bool) (t : Turn) : Bool :=
  s.initOff != 0 && retry && !cfg.noQueryMtu && t.write matches .mtuExceeded (some _)

theorem SentSpec.turnSpec {out : Writer ω × TurnOut}
    (h : SentSpec cfg base hdr body f mtu retry out) : TurnSpec cfg base hdr body out := by
  cases h with
  | finished h => exact .finished h
  | next _ _ h => exact .again (.inr ⟨h, rfl⟩)

/-- The turn sends its record: the BIO can be flushed. -/
def Turn.Good (t : Turn) : Prop := 0 < t.flush ∧ t.write = .sent

namespace Ready

variable (h : Ready cfg base hdr body f fragOff s)
include h

theorem initNum_pos : 0 < s.initNum := by
  rcases h with ⟨⟨parts, buf, o, l, mtu, -, -, rfl⟩, -⟩ | ⟨⟨parts, buf, l, mtu, hpos, h, rfl⟩, -⟩
  · exact Nat.add_pos_right _ (by decide)
  · exact Nat.sub_pos_of_lt (h.left.resolve_left hpos.ne')

/-- After the adjustment `init_off` is the offset of the fragment. -/
theorem makeRoom_eq :
    ∃ parts buf o l, Partly hdr body f parts buf ∧ (f ≠ 0 → o = f) ∧
      makeRoom true fragOff s = some (sending cfg base hdr parts buf f
        (body.length - f + dtls1HmHeaderLength) o l s.mtu, f) := by
  obtain ⟨⟨parts, buf, o, l, mtu, h, ho, rfl⟩, rfl⟩ |
    ⟨⟨parts, buf, l, mtu, hpos, h, rfl⟩, rfl⟩ := h
  · refine ⟨parts, buf, o, l, h, ho, ?_⟩
    by_cases hf : f = 0
    · subst hf
      rfl
    · rw [makeRoom, if_pos ⟨rfl, hf⟩, if_neg (Nat.lt_irrefl 0)]
      exact congrArg (fun x => some (_, x)) (ho hf)
  · refine ⟨parts, buf, fragOff, l, h, fun _ => rfl, ?_⟩
    rw [makeRoom, if_pos ⟨rfl, by simp [sending, hpos.ne']⟩, if_pos hpos,
      if_neg (by simp [sending]; omega)]
    simp only [sending, Nat.add_sub_cancel_left]

/-- A turn ends before its record is written, or the record is the next fragment. -/
theorem turn_eq (overhead : Nat) (retry : Bool) (t : Turn) :
    (∃ s' ret, Suspended cfg base hdr body f s' ∧ ret ≤ 0 ∧
      ¬(0 < t.flush ∧ overhead + dtls1HmHeaderLength < s.mtu) ∧
      doWriteTurn cfg true overhead s fragOff retry t = (s', .done ret)) ∨
    ∃ parts buf n, Partly hdr body f parts buf ∧ n ≤ body.length - f ∧
      (n ≠ body.length - f → 0 < n) ∧
      slice buf f (dtls1HmHeaderLength + n) = fragmentHeader hdr f n ++ (body.drop f).take n ∧
      doWriteTurn cfg true overhead s fragOff retry t = afterWrite cfg true
        (sending cfg base hdr parts buf f (body.length - f + dtls1HmHeaderLength) f n s.mtu) f
        retry (dtls1HmHeaderLength + n) t.write := by
  obtain ⟨parts, buf, o, l, hp, ho, hroom⟩ := h.makeRoom_eq
  rw [doWriteTurn, hroom]
  dsimp only [sending]
  obtain ⟨m, hcurr, hm⟩ | ⟨ret, hret, hcurr, hbad⟩ := currMtu_spec s.mtu overhead t <;> rw [hcurr]
  · obtain ⟨n, hlen, hn, hpos⟩ := hp.recordLen_eq cfg hm
    obtain ⟨hp', hrec⟩ := hp.overwrite (length_fragmentHeader hdr f n) hn
    refine .inr ⟨parts, _, n, hp', hn, hpos, hrec, ?_⟩
    dsimp only
    rw [hlen, if_neg (by simp), if_pos rfl, writeHeader, Nat.add_sub_cancel_left]
    rfl
  · exact .inl ⟨_, ret, ⟨parts, buf, o, l, s.mtu, hp, ho, rfl⟩, hret, hbad, rfl⟩

theorem turn_failed (ht : t.write = .failed) :
    Suspended cfg base hdr body f (doWriteTurn cfg true overhead s fragOff retry t).1 := by
  obtain ⟨s', ret, hs, -, -, heq⟩ | ⟨parts, buf, n, hp, -, -, -, heq⟩ :=
    h.turn_eq overhead retry t
  · rw [heq]
    exact hs
  · rw [heq, ht]
    exact hp.suspended ..

/-- One turn of the loop sends a part of the message or fails. -/
theorem turn (overhead : Nat) (hlate : lateRetry cfg s retry t = false) :
    TurnSpec cfg base hdr body (doWriteTurn cfg true overhead s fragOff retry t) := by
  obtain ⟨s', ret, hs, hret, -, heq⟩ | ⟨parts, buf, n, hp, hn, hpos, hrec, heq⟩ :=
    h.turn_eq overhead retry t
  · rw [heq]
    exact .failed hret hs
  rw [heq]
  cases hwrite : t.write with
  | sent => exact (hp.afterSent_spec hn hpos hrec).turnSpec
  | failed => exact .failed (by decide) (hp.suspended ..)
  | mtuExceeded mtu =>
    rw [afterWrite.eq_def]
    dsimp only
    split
    · rename_i hretry
      cases mtu with
      | none => exact .failed (by decide) (hp.suspended ..)
      | some mtu =>
        -- only the first fragment can be tried again here
        have hoff : s.initOff = 0 := by
          by_contra hoff
          simp [lateRetry, hoff, hretry.1, hretry.2, hwrite] at hlate
        have hf : f = 0 := by
          rcases h with ⟨⟨_, _, _, _, _, -, -, rfl⟩, -⟩ | ⟨⟨_, _, _, _, -, -, rfl⟩, -⟩
          · exact hoff
          · exact (Nat.add_eq_zero_iff.1 hoff).2
        subst hf
        exact .again (.inl ⟨hp.suspended cfg base n mtu, rfl⟩)
    · exact .failed (by decide) (hp.suspended ..)

theorem turn_good (retry : Bool) (ht : t.Good) (hmtu : overhead + dtls1HmHeaderLength < s.mtu) :
    SentSpec cfg base hdr body f s.mtu retry
      (doWriteTurn cfg true overhead s fragOff retry t) := by
  obtain ⟨s', ret, -, -, hbad, -⟩ | ⟨parts, buf, n, hp, hn, hpos, hrec, heq⟩ :=
    h.turn_eq overhead retry t
  · exact absurd ⟨ht.1, hmtu⟩ hbad
  · rw [heq, ht.2]
    exact hp.afterSent_spec hn hpos hrec

end Ready

/-! ### The loop and the calls -/

/-- No turn of the loop tries a later fragment again. -/
def noLateRetry (cfg : Config) (overhead : Nat) (s : Writer ω) (fragOff : Nat) (retry : Bool) :
    List Turn → Bool
  | [] => true
  | t :: ts => !lateRetry cfg s retry t &&
    match doWriteTurn cfg true overhead s fragOff retry t with
    | (_, .done _) => true
    | (s, .again fragOff retry) => noLateRetry cfg overhead s fragOff retry ts

theorem Ready.loop (h : Ready cfg base hdr body f fragOff s)
    (hlate : noLateRetry cfg overhead s fragOff retry turns = true) :
    CallSpec cfg base hdr body (doWriteLoop cfg true overhead s fragOff retry turns) := by
  induction turns generalizing s f fragOff retry with
  | nil =>
    rw [doWriteLoop, if_pos h.initNum_pos]
    exact .failed (by decide) (h.turn_failed rfl)
  | cons t ts ih =>
    rw [doWriteLoop, if_pos h.initNum_pos]
    rw [noLateRetry, Bool.and_eq_true, Bool.not_eq_true'] at hlate
    obtain ⟨hturn, hrest⟩ := hlate
    have hspec := h.turn overhead hturn
    generalize doWriteTurn cfg true overhead s fragOff retry t = out at hspec hrest ⊢
    cases hspec with
    | finished h => exact .finished h
    | failed hret h => exact .failed hret h
    | again h => exact ih h hrest

/-- No turn of a call tries a later fragment again. -/
def Call.noLateRetry (cfg : Config) (s : Writer ω) (c : Call) : Bool :=
  c.mtu.all fun mtu => DtlsWrite.noLateRetry cfg c.overhead { s with mtu := mtu } 0 true c.turns

/-- With as many turns as there are bytes left, and one more, the message is finished. -/
theorem Ready.loop_good (h : Ready cfg base hdr body f fragOff s) (hturns : ∀ t ∈ turns, t.Good)
    (hmtu : overhead + dtls1HmHeaderLength < s.mtu) (hlen : body.length - f < turns.length) :
    (doWriteLoop cfg true overhead s fragOff retry turns).2 = 1 := by
  induction turns generalizing s f fragOff retry with
  | nil => exact absurd hlen (Nat.not_lt_zero _)
  | cons t ts ih =>
    rw [doWriteLoop, if_pos h.initNum_pos]
    have hspec := h.turn_good retry (hturns t mem_cons_self) hmtu
    generalize doWriteTurn cfg true overhead s fragOff retry t = out at hspec ⊢
    cases hspec with
    | finished h => rfl
    | next hlt hkeep h =>
      refine ih (.inr ⟨h, rfl⟩) (fun t ht => hturns t (mem_cons_of_mem _ ht)) ?_ ?_
      · rwa [hkeep]
      · obtain ⟨_, _, _, _, -, hp, -⟩ := h
        have hle := hp.le
        rw [length_cons] at hlen
        omega

/-- The environment of a call that nothing stops, for up to `len` bytes. -/
structure Call.Good (c : Call) (len : Nat) : Prop where
  mtu : ∃ mtu, c.mtu = some mtu ∧ c.minMtu ≤ mtu ∧ c.overhead + dtls1HmHeaderLength < mtu
  turns : ∀ t ∈ c.turns, t.Good
  length : len < c.turns.length

namespace Suspended

variable (h : Suspended cfg base hdr body f s)
include h

theorem of_mtu (mtu : Nat) : Suspended cfg base hdr body f { s with mtu := mtu } := by
  obtain ⟨parts, buf, o, l, _, hp, ho, rfl⟩ := h
  exact ⟨parts, buf, o, l, mtu, hp, ho, rfl⟩

theorem assertion :
    ¬(s.initOff = 0 ∧ (true = true) ∧ s.initNum ≠ s.wMsgHdr.msgLen + dtls1HmHeaderLength) := by
  obtain ⟨parts, buf, o, l, mtu, hp, -, rfl⟩ := h
  rintro ⟨hoff, -, hnum⟩
  obtain rfl : f = 0 := hoff
  exact hnum (congrArg (· + dtls1HmHeaderLength) hp.hdrLen.symm)

theorem doWrite (hlate : c.noLateRetry cfg s = true) :
    CallSpec cfg base hdr body (dtls1DoWrite cfg true s c) := by
  rw [dtls1DoWrite]
  cases hmtu : c.mtu with
  | none => exact .failed (by decide) h
  | some mtu =>
    have hs := h.of_mtu mtu
    dsimp only
    split
    · exact .failed (by decide) hs
    · rw [if_neg hs.assertion]
      rw [Call.noLateRetry, hmtu] at hlate
      exact Ready.loop (.inl ⟨hs, rfl⟩) hlate

theorem doWrite_good (hc : c.Good body.length) : (dtls1DoWrite cfg true s c).2 = 1 := by
  obtain ⟨mtu, hmtu, hmin, hover⟩ := hc.mtu
  have hs := h.of_mtu mtu
  have hlen := hc.length
  rw [dtls1DoWrite, hmtu]
  dsimp only
  rw [if_neg (Nat.not_lt.2 hmin), if_neg hs.assertion]
  exact Ready.loop_good (.inl ⟨hs, rfl⟩) hc.turns hover (by omega)

end Suspended

/-- No call tries a later fragment again by itself. -/
def noLateRetries (cfg : Config) (s : Writer ω) : List Call → Bool
  | [] => true
  | c :: cs => c.noLateRetry cfg s && noLateRetries cfg (dtls1DoWrite cfg true s c).1 cs

theorem Suspended.calls {calls : List Call} (h : Suspended cfg base hdr body f s)
    (hlate : noLateRetries cfg s calls = true) :
    ((doWriteCalls cfg true s calls).2 = true ∧
      Finished cfg base hdr body (doWriteCalls cfg true s calls).1) ∨
    ((doWriteCalls cfg true s calls).2 = false ∧
      ∃ f, Suspended cfg base hdr body f (doWriteCalls cfg true s calls).1) := by
  induction calls generalizing s f with
  | nil => exact .inr ⟨rfl, f, h⟩
  | cons c cs ih =>
    rw [noLateRetries, Bool.and_eq_true] at hlate
    obtain ⟨hcall, hrest⟩ := hlate
    have hspec := h.doWrite hcall
    rw [doWriteCalls]
    generalize dtls1DoWrite cfg true s c = out at hspec hrest ⊢
    cases hspec with
    | finished h =>
      exact .inl ⟨rfl, h⟩
    | failed hret h =>
      rw [if_neg (by omega)]
      exact ih h hrest

theorem noLateRetry_of_good (hturns : ∀ t ∈ turns, t.Good) :
    noLateRetry cfg overhead s fragOff retry turns = true := by
  induction turns generalizing s fragOff retry with
  | nil => rfl
  | cons t ts ih =>
    have hsent : lateRetry cfg s retry t = false := by
      simp [lateRetry, (hturns t mem_cons_self).2]
    rw [noLateRetry, hsent]
    split
    · rfl
    · exact ih fun t ht => hturns t (mem_cons_of_mem _ ht)

theorem Call.Good.noLateRetry (hc : c.Good n) (s : Writer ω) : c.noLateRetry cfg s = true := by
  obtain ⟨mtu, hmtu, -⟩ := hc.mtu
  rw [Call.noLateRetry, hmtu]
  exact noLateRetry_of_good hc.turns

end QuicTls.DtlsWrite
