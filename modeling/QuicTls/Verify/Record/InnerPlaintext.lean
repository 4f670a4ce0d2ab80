import QuicTls.Ssl.Record.Tls13
import QuicTls.Theory.Except

/-!
# When the receiver of a TLS 1.3 record recovers its template

The sender appends the type and zeros, which the receiver takes off (`tls13_round_trip`).
-/

namespace QuicTls.Record

open List

/-- The templates of the upper layers: only application data may be empty. -/
structure Template.Valid (rl : Tls13Layer) (template : Template) : Prop where
  type : template.type = ssl3RtAlert ∨ template.type = ssl3RtHandshake ∨
    template.type = ssl3RtApplicationData
  nonempty : template.type ≠ ssl3RtApplicationData → template.buf ≠ []
  length_le : template.buf.length ≤ rl.maxFragLen

variable {rl : Tls13Layer} {template : Template} {rec rec' : Rec}

theorem applicationData_ne_alert : ssl3RtApplicationData ≠ ssl3RtAlert := by decide

theorem tls13Padding_le (rl : Tls13Layer) (type : UInt8) (rlen : Nat) :
    rlen + tls13Padding rl type rlen ≤ max rlen rl.maxFragLen := by
  have hclamp : ∀ m p : Nat, (if m < p then m else p) ≤ m := by
    intro m p
    split <;> omega
  rw [tls13Padding]
  split
  · refine (Nat.add_le_add_left (hclamp _ _) rlen).trans ?_
    omega
  · omega

theorem length_tls13AddRecordPadding_le (hle : template.buf.length ≤ rl.maxFragLen) :
    (tls13AddRecordPadding rl template).length ≤ rl.maxFragLen + 1 := by
  rw [tls13AddRecordPadding]
  split
  · omega
  · have hpadding := tls13Padding_le rl template.type (template.buf ++ [template.type]).length
    rw [length_append, length_replicate]
    rw [length_append, length_singleton] at hpadding ⊢
    omega

/-- The scan stops at the last byte that is not zero. -/
theorem contentEnd_append (xs : Bytes) {b : UInt8} (hb : b ≠ 0) (zeros : Bytes)
    (hzeros : ∀ z ∈ zeros, z = 0) :
    contentEnd (xs ++ b :: zeros) (xs.length + zeros.length) = xs.length := by
  suffices H : ∀ k, k ≤ zeros.length →
      contentEnd (xs ++ b :: zeros) (xs.length + k) = xs.length from H _ le_rfl
  intro k hk
  induction k with
  | zero =>
    cases hlen : xs.length with
    | zero => rfl
    | succ n =>
      have hget : (xs ++ b :: zeros).getD (n + 1) 0 = b := by
        rw [← hlen, getD_eq_getElem?_getD, getElem?_append_right le_rfl, Nat.sub_self]
        rfl
      rw [contentEnd, hget, if_neg hb]
  | succ k ih =>
    have hget : (xs ++ b :: zeros).getD (xs.length + k + 1) 0 = 0 := by
      have hsub : xs.length + k + 1 - xs.length = k + 1 := by omega
      rw [getD_eq_getElem?_getD, getElem?_append_right (by omega), hsub,
        getElem?_cons_succ, getElem?_eq_getElem hk]
      exact hzeros _ (getElem_mem hk)
    rw [← Nat.add_assoc, contentEnd, if_pos hget]
    exact ih (by omega)

theorem contentEnd_le (data : Bytes) (last : Nat) : contentEnd data last ≤ last := by
  induction last with
  | zero => exact le_rfl
  | succ last ih =>
    rw [contentEnd]
    split
    · exact ih.trans (Nat.le_succ last)
    · exact le_rfl

theorem tls13Inner_append {content : Bytes} {type : UInt8} (htype : type ≠ 0) (n : Nat) :
    tls13Inner ⟨ssl3RtApplicationData, content ++ [type] ++ List.replicate n 0⟩ =
      .ok ⟨type, content⟩ := by
  have hdata : content ++ [type] ++ List.replicate n 0 = content ++ type :: List.replicate n 0 := by
    rw [append_assoc, singleton_append]
  have hlen : (content ++ type :: List.replicate n 0).length = content.length + n + 1 := by
    rw [length_append, length_cons, length_replicate, Nat.add_assoc]
  have hend := contentEnd_append content htype (List.replicate n 0)
    fun z hz => eq_of_mem_replicate hz
  rw [length_replicate] at hend
  rw [hdata, tls13Inner, if_pos applicationData_ne_alert]
  dsimp only
  rw [hlen, Nat.add_sub_cancel, hend, take_left, getD_eq_getElem?_getD,
    getElem?_append_right le_rfl, Nat.sub_self]
  rfl

/-- What is recovered from a record that is not a plaintext alert is shorter than the record. -/
theorem length_lt_of_tls13Inner (htype : rec.type ≠ ssl3RtAlert) (h : tls13Inner rec = .ok rec') :
    rec'.data.length < rec.data.length := by
  rw [tls13Inner, if_pos htype] at h
  obtain ⟨hne, h⟩ := ok_of_check h
  cases h
  have hle := contentEnd_le rec.data (rec.data.length - 1)
  rw [length_take]
  omega

theorem tls13PostProcessRecord_eq {inner : Rec} (h : tls13Inner rec = .ok inner) :
    tls13PostProcessRecord rec =
      if ssl3RtMaxPlainLength < inner.data.length then
        .error ⟨.recordOverflow, .dataLengthTooLong⟩
      else tls13CommonPostProcessRecord inner := by
  rw [tls13PostProcessRecord, h]
  rfl

theorem tls13CommonPostProcessRecord_ok (h : tls13CommonPostProcessRecord rec = .ok rec') :
    rec' = rec := by
  rw [tls13CommonPostProcessRecord] at h
  cases (ok_of_check (ok_of_check h).2).2
  rfl

/-- What the later checks let through is what was recovered. -/
theorem tls13Inner_of_tls13PostProcessRecord (h : tls13PostProcessRecord rec = .ok rec') :
    tls13Inner rec = .ok rec' := by
  cases hinner : tls13Inner rec with
  | error e =>
    rw [tls13PostProcessRecord, hinner] at h
    exact nomatch h
  | ok inner =>
    rw [tls13PostProcessRecord_eq hinner] at h
    rw [tls13CommonPostProcessRecord_ok (ok_of_check h).2]

theorem tls13CommonPostProcessRecord_template (hvalid : template.Valid rl) :
    tls13CommonPostProcessRecord ⟨template.type, template.buf⟩ =
      .ok ⟨template.type, template.buf⟩ := by
  rw [tls13CommonPostProcessRecord, if_neg, if_neg]
  · rfl
  · rintro ⟨htype, hlen⟩
    apply hvalid.nonempty
    · rcases htype with h | h <;> dsimp only at h <;> rw [h] <;> decide
    · exact eq_nil_of_length_eq_zero hlen
  · rintro ⟨happ, halert, hhandshake⟩
    rcases hvalid.type with h | h | h
    · exact halert h
    · exact hhandshake h
    · exact happ h

theorem round_trip_of_no_plain_alerts (hvalid : template.Valid rl)
    (hplain : rl.allowPlainAlerts = false) :
    tls13PostProcessRecord (tls13WriteRecord rl template) = .ok ⟨template.type, template.buf⟩ := by
  have htype : template.type ≠ 0 := by
    rcases hvalid.type with h | h | h <;> rw [h] <;> decide
  have hwrite : tls13WriteRecord rl template = ⟨ssl3RtApplicationData,
      template.buf ++ [template.type] ++ List.replicate
        (tls13Padding rl template.type (template.buf ++ [template.type]).length) 0⟩ := by
    rw [tls13WriteRecord, tls13GetRecordType, tls13AddRecordPadding, if_neg (by simp [hplain]),
      if_neg (by simp [hplain])]
  rw [hwrite, tls13PostProcessRecord_eq (tls13Inner_append htype _), if_neg,
    tls13CommonPostProcessRecord_template hvalid]
  exact Nat.not_lt.2 (hvalid.length_le.trans rl.maxFragLen_le)

/-- With plaintext alerts allowed an alert has an extra byte, and another record lacks its type. -/
theorem not_round_trip_of_plain_alerts (hplain : rl.allowPlainAlerts = true) :
    tls13PostProcessRecord (tls13WriteRecord rl template) ≠ .ok ⟨template.type, template.buf⟩ := by
  intro h
  have hinner := tls13Inner_of_tls13PostProcessRecord h
  by_cases halert : template.type = ssl3RtAlert
  · rw [tls13WriteRecord, tls13GetRecordType, if_pos ⟨hplain, halert⟩, tls13Inner,
      if_neg (fun hne => hne rfl), tls13AddRecordPadding,
      if_neg (fun hne => hne.2 halert)] at hinner
    have hlen := congrArg (fun r => r.data.length) (Except.ok.inj hinner)
    dsimp only at hlen
    rw [length_append, length_append, length_singleton] at hlen
    omega
  · have hwrite : tls13WriteRecord rl template = ⟨ssl3RtApplicationData, template.buf⟩ := by
      rw [tls13WriteRecord, tls13GetRecordType, if_neg (fun hne => halert hne.2),
        tls13AddRecordPadding, if_pos ⟨hplain, halert⟩]
    rw [hwrite] at hinner
    have hlt := length_lt_of_tls13Inner applicationData_ne_alert hinner
    exact Nat.lt_irrefl _ hlt

/-- **The template is recovered if and only if plaintext alerts are not allowed**, and the padded
record is never too long. -/
theorem tls13_round_trip (hvalid : template.Valid rl) :
    (tls13PostProcessRecord (tls13WriteRecord rl template) = .ok ⟨template.type, template.buf⟩ ↔
      rl.allowPlainAlerts = false) ∧
    (tls13WriteRecord rl template).data.length ≤ rl.maxFragLen + 1 := by
  refine ⟨⟨?_, round_trip_of_no_plain_alerts hvalid⟩,
    length_tls13AddRecordPadding_le hvalid.length_le⟩
  intro h
  by_contra hplain
  exact not_round_trip_of_plain_alerts (eq_true_of_ne_false hplain) h

/-- A handshake message of two bytes, padded to a block of eight bytes. -/
theorem tls13_round_trip_padded :
    (tls13PostProcessRecord (tls13WriteRecord ⟨false, 16384, le_rfl, none, 8⟩
      ⟨ssl3RtHandshake, [1, 0]⟩) = .ok ⟨ssl3RtHandshake, [1, 0]⟩ ↔ false = false) ∧
    (tls13WriteRecord ⟨false, 16384, le_rfl, none, 8⟩ ⟨ssl3RtHandshake, [1, 0]⟩).data.length ≤
      16385 :=
  @tls13_round_trip ⟨false, 16384, le_rfl, none, 8⟩ ⟨ssl3RtHandshake, [1, 0]⟩
    ⟨.inr (.inl rfl), fun _ => nofun, by decide⟩

/-- While plaintext alerts are allowed, the last byte of a handshake message is taken for its
type, and an alert arrives with a third byte. -/
theorem tls13_round_trip_plain_alerts :
    tls13PostProcessRecord (tls13WriteRecord ⟨true, 16384, le_rfl, none, 0⟩
      ⟨ssl3RtHandshake, [1, 23]⟩) = .ok ⟨ssl3RtApplicationData, [1]⟩ ∧
    tls13PostProcessRecord (tls13WriteRecord ⟨true, 16384, le_rfl, none, 0⟩
      ⟨ssl3RtAlert, [2, 40]⟩) = .ok ⟨ssl3RtAlert, [2, 40, 21]⟩ := by
  constructor <;> rfl

end QuicTls.Record
