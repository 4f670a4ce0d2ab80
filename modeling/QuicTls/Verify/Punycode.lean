import QuicTls.Theory.Punycode
import QuicTls.Crypto.Punycode
import Mathlib.Data.List.GetD

/-!
# The decoder of Punycode against RFC 3492

Every loop yields what the loop of the pseudocode gives, as long as the values that are seen fit in
32 bits, and a failure otherwise; no operation wraps (`punycode_decode_iff`). The input must be
shorter than `2 ^ 32`: its length is a `size_t`, but the variable that runs through it is an
`unsigned int`.
-/

namespace QuicTls.Punycode

open Proc Rfc3492 List

variable {enc : Bytes} {maxOut : Nat} {cs : Bytes} {buf output : List Nat} {o : Option (List Nat)}

/-- All values fit in an `unsigned int`. -/
def Bounded (seen : List Nat) : Prop := ∀ v ∈ seen, v ≤ maxint

instance (seen : List Nat) : Decidable (Bounded seen) :=
  inferInstanceAs (Decidable (∀ v ∈ seen, v ≤ maxint))

theorem bounded_cons {v : Nat} {seen : List Nat} :
    Bounded (v :: seen) ↔ v ≤ maxint ∧ Bounded seen := forall_mem_cons

theorem drop_eq_cons {loop : Nat} (h : loop < enc.length) :
    enc.drop loop = enc.getD loop 0 :: enc.drop (loop + 1) := by
  rw [drop_eq_getElem_cons h, getD_eq_getElem]

/-- The loop of `adapt` does not overflow. -/
theorem adaptLoop_yields (rounds : Nat) {all fuel delta k : Nat} (hall : rounds < all)
    (hfuel : delta ≤ fuel) (hdelta : delta < 456 * 35 ^ rounds) (hk : k + 36 * rounds < 2 ^ 32) :
    Yields (adaptLoop all delta k) (some (Rfc3492.adaptLoop fuel delta k)) := by
  obtain ⟨all, rfl⟩ : ∃ m, all = m + 1 := ⟨all - 1, by omega⟩
  rw [adaptLoop]
  fun_induction Rfc3492.adaptLoop fuel delta k generalizing rounds all with
  | case2 fuel delta k hlarge ih =>
    obtain _ | rounds := rounds
    · omega
    obtain ⟨all, rfl⟩ : ∃ m, all = m + 1 := ⟨all - 1, by omega⟩
    rw [if_pos (show delta > (base - tmin) * tmax / 2 from hlarge)]
    apply (yields_exact (show k + base < 2 ^ 32 by simp only [base]; omega)).bind
    rw [adaptLoop]
    exact ih rounds (by omega) (by omega) (by omega) all (by omega)
  | case1 | case3 =>
    rw [if_neg (by simp only [base, tmin, tmax]; omega)]
    exact yields_pure _

/-- `adapt` is the function of RFC 3492. -/
theorem adapt_yields {all delta numpoints : Nat} (first : Bool) (hall : 8 ≤ all)
    (hdelta : delta < 2 ^ 32) (hpoints : numpoints ≠ 0) :
    Yields (adapt all delta numpoints first) (some (Rfc3492.adapt delta numpoints first)) ∧
      Rfc3492.adapt delta numpoints first ≤ 1000 := by
  have hhalf : (if first then delta / damp else delta / 2) < 2 ^ 31 := by
    simp only [damp]
    split <;> omega
  have hdef : (if first then delta / damp else delta / 2) =
      if first then delta / 700 else delta / 2 := rfl
  rw [hdef] at hhalf
  rw [adapt, Rfc3492.adapt, hdef]
  generalize (if first then delta / 700 else delta / 2) = d at hhalf
  have hshare : d / numpoints ≤ d := Nat.div_le_self ..
  have hsum : d + d / numpoints < 456 * 35 ^ 7 := by
    omega
  obtain ⟨hfst, hsnd⟩ := adaptLoop_bounds 7 (Nat.le_refl _) hsum
  have hloop := @adaptLoop_yields 7 all _ _ 0 (by omega) (Nat.le_refl _) hsum (by omega)
  generalize Rfc3492.adaptLoop (d + d / numpoints) (d + d / numpoints) 0 = r at hfst hsnd hloop
  have hratio : (36 - 1 + 1) * r.1 / (r.1 + 38) ≤ 36 := by
    apply Nat.div_le_of_le_mul
    omega
  constructor
  · apply (yields_div hpoints).bind
    refine .bind (yields_exact (by omega)) ?_
    apply hloop.bind
    apply (yields_exact (show (base - tmin + 1) * r.1 < 2 ^ 32 by
      simp only [base, tmin]
      omega)).bind
    apply (yields_exact (show r.1 + skew < 2 ^ 32 by simp only [skew]; omega)).bind
    apply yields_exact
    show r.2 + (36 - 1 + 1) * r.1 / (r.1 + 38) < 2 ^ 32
    omega
  · omega

theorem threshold_yields {bias k : Nat} (hbias : bias ≤ 1000) (hk : k < 2 ^ 32) :
    Yields (threshold bias k) (some (Rfc3492.threshold bias k)) := by
  rw [threshold, Rfc3492.threshold]
  split
  · rw [if_pos (by omega)]
    exact yields_pure _
  rename_i hlarge
  apply (yields_exact (show bias + tmax < 2 ^ 32 by simp only [tmax]; omega)).bind
  by_cases htop : k ≥ bias + tmax
  · rw [if_pos htop]
    simp only [tmax] at htop
    rw [if_neg (by omega), if_pos htop]
    exact yields_pure _
  rw [if_neg htop]
  have hsub := yields_sub (Nat.le_of_not_le hlarge) hk
  simp only [tmax] at htop
  split
  · have hk' : k - bias = 1 := by omega
    rwa [hk'] at hsub
  · exact hsub

/-- The outcome of the digits, of which all values must fit. -/
def expectedInteger (enc : Bytes) (r : Option Integer) : Option (Nat × Nat) :=
  r.bind fun r => if Bounded r.seen then some (r.value, enc.length - r.rest.length) else none

/-- One digit: the new `i` must fit, and the new `w` if there are more digits. -/
theorem expectedInteger_cons {bias k w i digit : Nat} {c : UInt8}
    (hdigit : digitValue c = some digit) :
    expectedInteger enc (integer bias k w i (c :: cs)) =
      if maxint < i + digit * w then none
      else if digit < Rfc3492.threshold bias k then some (i + digit * w, enc.length - cs.length)
      else if maxint < w * (36 - Rfc3492.threshold bias k) then none
      else expectedInteger enc (integer bias (k + 36) (w * (36 - Rfc3492.threshold bias k))
        (i + digit * w) cs) := by
  rw [integer, hdigit]
  dsimp only
  generalize w * (36 - Rfc3492.threshold bias k) = w'
  generalize i + digit * w = i'
  split
  · -- the last digit
    by_cases hi : maxint < i'
    · rw [if_pos hi, expectedInteger, Option.bind_some, if_neg (by simp [Bounded]; omega)]
    · rw [if_neg hi, expectedInteger, Option.bind_some, if_pos (by simp [Bounded]; omega)]
  cases integer bias (k + 36) w' i' cs with
  | none => simp [expectedInteger]
  | some r =>
    simp only [Option.map_some, expectedInteger, Option.bind_some, bounded_cons]
    by_cases hi : maxint < i'
    · rw [if_pos hi, if_neg (by omega)]
    · by_cases hw : maxint < w'
      · rw [if_neg hi, if_pos hw, if_neg (by omega)]
      · simp only [Nat.le_of_not_lt hi, Nat.le_of_not_lt hw, hi, hw, true_and, if_false]

/-- The round `j` of the loop has a weight of at least `10 ^ j`, so there are few rounds. -/
theorem digits_yields (hlen : enc.length < 2 ^ 32) {bias : Nat} (hbias : bias ≤ 1000)
    {fuel loop w i j : Nat} (hfuel : enc.length - loop < fuel) (hloop : loop ≤ enc.length)
    (hw : 10 ^ j ≤ w) (hw' : w ≤ maxint) (hi : i ≤ maxint) :
    Yields (digits enc bias fuel loop (36 * (j + 1)) w i)
      (expectedInteger enc (integer bias (36 * (j + 1)) w i (enc.drop loop))) := by
  have hmax : maxint = 2 ^ 32 - 1 := rfl
  induction fuel generalizing loop w i j with
  | zero => omega
  | succ fuel ih =>
    have hj : j < 10 := by
      by_contra hge
      have := Nat.pow_le_pow_right (show 0 < 10 by decide) (show 10 ≤ j by omega)
      omega
    have hpos : 0 < w := Nat.lt_of_lt_of_le (by positivity) hw
    rw [digits]
    split
    · rw [drop_of_length_le ‹_›]
      exact yields_fail
    have hrest : enc.length - (enc.drop (loop + 1)).length = loop + 1 := by
      rw [length_drop]
      omega
    have hsame : digitDecoded (enc.getD loop 0) = digitValue (enc.getD loop 0) := rfl
    rw [drop_eq_cons (by omega), hsame]
    refine .bind (yields_exact (by omega)) ?_
    cases hdigit : digitValue (enc.getD loop 0) with
    | none =>
      rw [integer, hdigit]
      exact yields_fail
    | some digit =>
      have ht := threshold_bounds bias (36 * (j + 1))
      have hover : digit > (maxint - i) / w ↔ maxint < i + digit * w := by
        rw [gt_iff_lt, Nat.div_lt_iff_lt_mul hpos]
        omega
      rw [expectedInteger_cons hdigit, hrest]
      apply (yields_sub hi (show maxint < 2 ^ 32 by decide)).bind
      apply (yields_div hpos.ne').bind
      by_cases hi' : maxint < i + digit * w
      · rw [if_pos (hover.2 hi'), if_pos hi']
        exact yields_fail
      rw [if_neg (hover.not.2 hi')]
      refine .bind (yields_exact (by omega)) ?_
      refine .bind (yields_exact (by omega)) ?_
      apply (threshold_yields hbias (show 36 * (j + 1) < 2 ^ 32 by omega)).bind
      generalize Rfc3492.threshold bias (36 * (j + 1)) = t at ht
      split
      · exact yields_pure _
      have hoverw : w > maxint / (base - t) ↔ maxint < w * (36 - t) := by
        show w > maxint / (36 - t) ↔ _
        rw [gt_iff_lt, Nat.div_lt_iff_lt_mul (by omega)]
      apply (yields_sub (show t ≤ base by simp only [base]; omega) (by decide)).bind
      apply (yields_div (show base - t ≠ 0 by simp only [base]; omega)).bind
      by_cases hw₁ : maxint < w * (36 - t)
      · rw [if_pos (hoverw.2 hw₁), if_pos hw₁]
        exact yields_fail
      rw [if_neg (hoverw.not.2 hw₁), if_neg hw₁]
      have hw₂ : 10 ^ (j + 1) ≤ w * (36 - t) := by
        exact Nat.mul_le_mul hw (by omega)
      have hw₃ : w * (36 - t) < 2 ^ 32 := by omega
      apply (yields_exact (show w * (base - t) < 2 ^ 32 from hw₃)).bind
      apply (yields_exact (show 36 * (j + 1) + base < 2 ^ 32 by simp only [base]; omega)).bind
      exact @ih (loop + 1) (w * (36 - t)) (i + digit * w) (j + 1) (by omega) (by omega) hw₂
        (Nat.le_of_not_lt hw₁) (Nat.le_of_not_lt hi')

/-! ### The main loop -/

/-- The buffer holds the output, and room for the rest. -/
structure Holds (maxOut : Nat) (buf output : List Nat) : Prop where
  length : buf.length = maxOut
  output : output <+: buf

theorem store_yields (buf : List Nat) {idx : Nat} (v : Nat) (h : idx < maxOut) :
    Yields (store maxOut buf idx v) (some (buf.set idx v)) :=
  (yields_check (decide_eq_true h)).bind (yields_pure _)

theorem Holds.split (h : Holds maxOut buf output) (hroom : output.length < maxOut) :
    ∃ x tail, buf = output ++ x :: tail := by
  obtain ⟨tail, htail⟩ := h.output
  have hlen := h.length
  cases tail with
  | nil =>
    rw [append_nil] at htail
    rw [htail] at hroom
    omega
  | cons x tail => exact ⟨x, tail, htail.symm⟩

theorem Holds.append (h : Holds maxOut buf output) (hroom : output.length < maxOut) (v : Nat) :
    Holds maxOut (buf.set output.length v) (output ++ [v]) := by
  obtain ⟨x, tail, rfl⟩ := h.split hroom
  refine ⟨by rw [length_set, h.length], tail, ?_⟩
  rw [set_append_right _ _ (Nat.le_refl _), Nat.sub_self, append_assoc]
  rfl

/-- A code point is inserted in the middle of the output. -/
theorem Holds.insert (h : Holds maxOut buf output) (hroom : output.length < maxOut) {i n : Nat}
    (hi : i ≤ output.length) :
    ∃ moved stored, Yields (memmove maxOut buf (i + 1) i (output.length - i)) (some moved) ∧
      Yields (store maxOut moved i n) (some stored) ∧
      Holds maxOut stored (output.take i ++ n :: output.drop i) := by
  have hlen := h.length
  obtain ⟨x, tail, htail⟩ := h.split hroom
  have hslice : slice buf i (output.length - i) = output.drop i := by
    rw [slice, htail, drop_append_of_le_length hi, take_left' (by simp)]
  have hover : overwrite buf (i + 1) (output.drop i) =
      buf.take (i + 1) ++ (output.drop i ++ tail) := by
    have hdrop : buf.drop (i + 1 + (output.drop i).length) = tail := by
      have hend : i + 1 + (output.drop i).length = output.length + 1 := by
        rw [length_drop]
        omega
      rw [hend, htail, drop_append]
      simp
    rw [overwrite, hdrop, append_assoc]
  have hset : (buf.take (i + 1) ++ (output.drop i ++ tail)).set i n =
      output.take i ++ n :: (output.drop i ++ tail) := by
    have hlen' : (buf.take (i + 1)).length = i + 1 := by
      rw [length_take]
      omega
    have htake : (buf.take (i + 1)).take i = output.take i := by
      rw [take_take, Nat.min_eq_left (by omega), htail, take_append_of_le_length hi]
    rw [set_eq_take_append_cons_drop, if_pos (by simp; omega),
      take_append_of_le_length (by omega), htake, drop_left' hlen']
  refine ⟨overwrite buf (i + 1) (slice buf i (output.length - i)),
    output.take i ++ n :: (output.drop i ++ tail), ?_, ?_, ?_, ?_⟩
  · exact (yields_check (decide_eq_true (by omega))).bind (yields_pure _)
  · rw [hslice, hover, ← hset]
    exact store_yields _ n (by omega)
  · rw [htail] at hlen
    simp at hlen ⊢
    omega
  · exact ⟨tail, by simp⟩

/-- The outcome of the decoder: all values must fit, and the output. -/
def expected (maxOut : Nat) (o : Option Output) : Option (List Nat) :=
  o.bind fun o => if Bounded o.seen ∧ o.points.length ≤ maxOut then some o.points else none

/-- One code point: the integer and the new `n` must fit, and there must be room. -/
theorem expected_cons (hmax : maxOut ≤ maxint) {fuel n i bias : Nat} (hn : 0x80 ≤ n) {c : UInt8} :
    expected maxOut (insertions (fuel + 1) n i bias output (c :: cs)) =
      (integer bias 36 1 i (c :: cs)).bind fun r =>
        if ¬ Bounded r.seen ∨ maxint < n + r.value / (output.length + 1) ∨ maxOut ≤ output.length
        then none
        else
          expected maxOut (insertions fuel (n + r.value / (output.length + 1))
            (r.value % (output.length + 1) + 1)
            (Rfc3492.adapt (r.value - i) (output.length + 1) (i == 0))
            (output.take (r.value % (output.length + 1)) ++ (n + r.value / (output.length + 1)) ::
              output.drop (r.value % (output.length + 1))) r.rest) := by
  rw [insertions]
  cases integer bias 36 1 i (c :: cs) with
  | none => rfl
  | some r =>
    have hi := Nat.mod_lt r.value (Nat.succ_pos output.length)
    have hbasic : ¬ n + r.value / (output.length + 1) < 0x80 :=
      Nat.not_lt.2 (hn.trans (Nat.le_add_right ..))
    rw [Option.bind_some]
    dsimp only
    rw [if_neg hbasic]
    generalize n + r.value / (output.length + 1) = n'
    generalize r.value % (output.length + 1) = i' at hi
    cases hrest : insertions fuel n' (i' + 1)
        (Rfc3492.adapt (r.value - i) (output.length + 1) (i == 0))
        (output.take i' ++ n' :: output.drop i') r.rest with
    | none => simp [expected]
    | some o =>
      have hlen := length_insertions hrest
      rw [length_append, length_cons, length_take, length_drop] at hlen
      have hseen : Bounded (r.seen ++ n' :: (i' + 1) :: o.seen) ↔
          Bounded r.seen ∧ n' ≤ maxint ∧ i' + 1 ≤ maxint ∧ Bounded o.seen := by
        rw [← bounded_cons, ← bounded_cons]
        exact forall_mem_append
      rw [Option.map_some, expected, expected, Option.bind_some, Option.bind_some]
      simp only [hseen]
      by_cases hbad : ¬ Bounded r.seen ∨ maxint < n' ∨ maxOut ≤ output.length
      · rw [if_pos hbad, if_neg]
        rintro ⟨⟨hr, hn', -⟩, hout⟩
        obtain hbad | hbad | hbad := hbad
        · exact hbad hr
        · omega
        · omega
      · rw [if_neg hbad]
        rw [not_or, not_or, not_not] at hbad
        have hi' : i' + 1 ≤ maxint := by omega
        simp only [hbad.1, Nat.le_of_not_lt hbad.2.1, hi', true_and]

/-- The variables of the main loop between two code points. -/
structure Ready (enc : Bytes) (maxOut : Nat) (s : State) (output : List Nat) : Prop where
  loop : s.loop ≤ enc.length
  written : s.writtenOut = output.length
  written_le : output.length ≤ s.loop
  room : output.length ≤ maxOut
  buf : Holds maxOut s.buf output
  n_ge : 0x80 ≤ s.n
  n_le : s.n ≤ maxint
  i_le : s.i ≤ maxint
  bias_le : s.bias ≤ 1000

/-- The main loop decodes what the specification decodes, or fails with it. -/
theorem decodeLoop_meets (hlen : enc.length < 2 ^ 32) (hmax : maxOut ≤ maxint) {all : Nat}
    (hall : enc.length + 8 ≤ all) {fuel F : Nat} {s : State} (h : Ready enc maxOut s output)
    (hfuel : enc.length - s.loop < fuel) (hF : enc.length - s.loop ≤ F) :
    Meets (decodeLoop enc maxOut all fuel s) (Ready enc maxOut)
      (expected maxOut (insertions F s.n s.i s.bias output (enc.drop s.loop))) := by
  have hmaxint : maxint = 2 ^ 32 - 1 := rfl
  induction fuel generalizing F s output with
  | zero => omega
  | succ fuel ih =>
    have hloop := h.loop
    have hwritten := h.written
    have hle := h.written_le
    rw [decodeLoop]
    by_cases hlt : s.loop < enc.length
    · rw [if_pos hlt]
      obtain ⟨F, rfl⟩ : ∃ m, F = m + 1 := ⟨F - 1, by omega⟩
      have hcons := drop_eq_cons hlt
      have hdigits := @digits_yields enc hlen s.bias h.bias_le all s.loop 1 s.i 0 (by omega) hloop
        (Nat.le_refl 1) (by decide) h.i_le
      rw [hcons] at hdigits ⊢
      rw [expected_cons hmax h.n_ge]
      cases hr : integer s.bias 36 1 s.i (enc.getD s.loop 0 :: enc.drop (s.loop + 1)) with
      | none =>
        rw [hr] at hdigits
        exact hdigits.bind_none
      | some r =>
        rw [hr, expectedInteger, Option.bind_some] at hdigits
        rw [Option.bind_some]
        by_cases hseen : Bounded r.seen
        · rw [if_pos hseen] at hdigits
          obtain ⟨hvalue, hmem, hsuffix, hshort⟩ := integer_spec hr
          have hvmax := hseen r.value hmem
          have hn := h.n_le
          rw [← hcons] at hsuffix hshort
          rw [length_drop] at hshort
          have hdrop : enc.drop (enc.length - r.rest.length) = r.rest :=
            (suffix_iff_eq_drop.1 (hsuffix.trans (drop_suffix ..))).symm
          obtain ⟨hadapt, hbias⟩ := @adapt_yields all (r.value - s.i) (output.length + 1)
            (s.i == 0) (by omega) (by omega) (Nat.succ_ne_zero _)
          have hpoint : r.value % (output.length + 1) < output.length + 1 :=
            Nat.mod_lt _ (Nat.succ_pos _)
          apply Meets.bind hdigits
          apply Meets.bind (yields_sub hvalue (by omega))
          rw [hwritten]
          refine .bind (yields_exact (by omega)) ?_
          apply Meets.bind hadapt
          apply Meets.bind (yields_sub h.n_le (by decide))
          have hover : r.value / (output.length + 1) > maxint - s.n ↔
              maxint < s.n + r.value / (output.length + 1) := by omega
          by_cases hn' : maxint < s.n + r.value / (output.length + 1)
          · rw [if_pos (hover.2 hn'), if_pos (.inr (.inl hn'))]
            exact yields_fail
          rw [if_neg (hover.not.2 hn')]
          have hnlt : s.n + r.value / (output.length + 1) < 2 ^ 32 := by omega
          apply Meets.bind (yields_exact hnlt)
          apply Meets.bind (yields_exact (show r.value % (output.length + 1) < 2 ^ 32 by omega))
          by_cases hroom : maxOut ≤ output.length
          · rw [if_pos hroom, if_pos (.inr (.inr hroom))]
            exact yields_fail
          rw [if_neg hroom, if_neg (by simp [hseen, hn', hroom])]
          generalize r.value % (output.length + 1) = i at hpoint
          have hn_ge := h.n_ge.trans (Nat.le_add_right s.n (r.value / (output.length + 1)))
          generalize s.n + r.value / (output.length + 1) = n at hn' hn_ge hnlt
          obtain ⟨moved, stored, hmove, hstore, hholds⟩ :=
            @Holds.insert maxOut s.buf output h.buf (by omega) i n (by omega)
          apply Meets.bind hmove
          apply Meets.bind hstore
          refine .bind (yields_exact (by omega)) ?_
          have hinserted : (output.take i ++ n :: output.drop i).length = output.length + 1 := by
            rw [length_append, length_cons, length_take, length_drop]
            omega
          have hready : Ready enc maxOut
              ⟨n, i + 1, Rfc3492.adapt (r.value - s.i) (output.length + 1) (s.i == 0),
                enc.length - r.rest.length, output.length + 1, stored⟩
              (output.take i ++ n :: output.drop i) :=
            ⟨Nat.sub_le .., hinserted.symm, by dsimp only; omega, by omega, hholds, hn_ge,
              Nat.le_of_not_lt hn', by dsimp only; omega, hbias⟩
          have hnext := ih (F := F) hready (by dsimp only; omega) (by dsimp only; omega)
          rw [hdrop] at hnext
          exact hnext
        · rw [if_neg hseen] at hdigits
          rw [if_pos (.inl hseen)]
          exact hdigits.bind_none
    · have hdone : expected maxOut (insertions F s.n s.i s.bias output []) = some output := by
        have hall : Bounded [] ∧ output.length ≤ maxOut := ⟨nofun, h.room⟩
        cases F <;> rw [insertions, expected, Option.bind_some, if_pos hall]
      rw [if_neg hlt, drop_of_length_le (by omega), hdone]
      exact ⟨s, yields_pure s, h⟩

/-- The last delimiter is found. -/
theorem lastDelimiter_yields (hlen : enc.length < 2 ^ 32) {fuel loop basicCount : Nat}
    (hloop : loop ≤ enc.length) (hfuel : enc.length - loop < fuel) :
    Yields (lastDelimiter enc fuel loop basicCount)
      (some (((Rfc3492.lastDelimiter (enc.drop loop)).map (loop + ·)).getD basicCount)) := by
  induction fuel generalizing loop basicCount with
  | zero => omega
  | succ fuel ih =>
    rw [lastDelimiter]
    split
    · rename_i hlt
      refine .bind (yields_exact (by omega)) ?_
      have hnext := @ih (loop + 1) (if enc.getD loop 0 = delimiter then loop else basicCount)
        (by omega) (by omega)
      rw [drop_eq_cons hlt, Rfc3492.lastDelimiter]
      cases hlast : Rfc3492.lastDelimiter (enc.drop (loop + 1)) with
      | none =>
        simp only [delimiter] at hnext ⊢
        split <;> simp_all
      | some j =>
        rw [hlast] at hnext
        simp only [Option.map_some] at hnext ⊢
        rw [show loop + (j + 1) = loop + 1 + j by omega]
        exact hnext
    · rw [drop_of_length_le (by omega)]
      exact yields_pure _

theorem lastDelimiter_lt {j : Nat} (h : Rfc3492.lastDelimiter cs = some j) : j < cs.length := by
  induction cs generalizing j with
  | nil => cases h
  | cons c cs ih =>
    rw [Rfc3492.lastDelimiter] at h
    split at h
    · rename_i hrest
      cases h
      exact Nat.succ_lt_succ (ih hrest)
    · split at h
      · cases h
        exact Nat.succ_pos _
      · cases h

/-- A variable of 32 bits never reaches a length of `2 ^ 32`. -/
theorem lastDelimiter_running (hlen : 2 ^ 32 ≤ enc.length) (fuel : Nat) {loop : Nat}
    (hloop : loop < 2 ^ 32) (basicCount : Nat) (c : Bool) :
    lastDelimiter enc fuel loop basicCount c = none := by
  induction fuel generalizing loop basicCount c with
  | zero => rfl
  | succ fuel ih =>
    rw [lastDelimiter, if_pos (by omega)]
    exact ih (Nat.mod_lt _ (by decide)) _ _

/-- The basic code points are copied. -/
theorem copyBasic_meets (hmax : maxOut ≤ maxint) {basicCount : Nat}
    (hcount : basicCount ≤ enc.length) (hroom : basicCount ≤ maxOut) {fuel loop : Nat}
    (hloop : loop ≤ basicCount) (hfuel : basicCount - loop < fuel)
    (hbuf : Holds maxOut buf ((enc.take loop).map (·.toNat))) :
    Meets (copyBasic enc maxOut basicCount fuel loop buf) (Holds maxOut)
      (if ((enc.take basicCount).drop loop).all (·.toNat < 0x80) then
        some ((enc.take basicCount).map (·.toNat)) else none) := by
  have hmaxint : maxint = 2 ^ 32 - 1 := rfl
  induction fuel generalizing loop buf with
  | zero => omega
  | succ fuel ih =>
    rw [copyBasic]
    by_cases hlt : loop < basicCount
    · have hget : enc[loop] = enc.getD loop 0 := by rw [getD_eq_getElem]
      have hdrop : (enc.take basicCount).drop loop =
          enc.getD loop 0 :: (enc.take basicCount).drop (loop + 1) := by
        rw [drop_eq_getElem_cons (by simp; omega), getElem_take, hget]
      have htake : (enc.take (loop + 1)).map (·.toNat) =
          (enc.take loop).map (·.toNat) ++ [(enc.getD loop 0).toNat] := by
        rw [take_succ_eq_append_getElem (by omega), hget, map_append]
        rfl
      have hwritten : ((enc.take loop).map (·.toNat)).length = loop := by
        rw [length_map, length_take]
        omega
      rw [if_pos hlt, hdrop, all_cons]
      by_cases hbasic : (enc.getD loop 0).toNat < 0x80
      · have hchar : ofChar (enc.getD loop 0) = (enc.getD loop 0).toNat := if_pos hbasic
        have hstored := hbuf.append (by omega) (enc.getD loop 0).toNat
        rw [hwritten, ← htake] at hstored
        rw [hchar, isBasic, decide_eq_true hbasic]
        apply Meets.bind (store_yields buf _ (show loop < maxOut by omega))
        refine .bind (yields_exact (by omega)) ?_
        exact ih (by omega) (by omega) hstored
      · have hchar : ofChar (enc.getD loop 0) = 2 ^ 32 - 256 + (enc.getD loop 0).toNat :=
          if_neg hbasic
        rw [decide_eq_false hbasic, Bool.false_and, isBasic,
          if_neg (by rw [decide_eq_true_eq]; omega)]
        exact yields_fail
    · have heq : loop = basicCount := by omega
      rw [if_neg hlt, heq, drop_of_length_le (by simp), all_nil, ← heq]
      exact ⟨buf, yields_pure buf, hbuf⟩

/-! ### The whole decoder -/

/-- The call returns, without a fault: 1 with the given output and its length, or 0. -/
def Returns (x : Proc (List Nat × Nat)) : Option (List Nat) → Prop :=
  Meets x fun r output => r.2 = output.length ∧ r.1.take output.length = output

theorem returns_of_meets (hmax : maxOut ≤ maxint) {x : Proc State}
    (h : Meets x (Ready enc maxOut) o) :
    Returns (do
      let s ← x
      let outLength ← exact 32 s.writtenOut
      pure (s.buf, outLength)) o := by
  cases o with
  | none => exact Yields.bind_none h
  | some output =>
    obtain ⟨s, hyields, hready⟩ := h
    have hmaxint : maxint = 2 ^ 32 - 1 := rfl
    have hroom := hready.room
    refine ⟨(s.buf, s.writtenOut), ?_, hready.written,
      (prefix_iff_eq_take.1 hready.buf.output).symm⟩
    apply hyields.bind
    refine .bind (yields_exact ?_) (yields_pure _)
    rw [hready.written]
    omega

theorem expected_of_gt {fuel n i bias : Nat} (h : maxOut < output.length) :
    expected maxOut (insertions fuel n i bias output cs) = none := by
  cases hins : insertions fuel n i bias output cs with
  | none => rfl
  | some o =>
    have hlen := length_insertions hins
    rw [expected, Option.bind_some, if_neg (by omega)]

theorem ready_start (hbuf : Holds maxOut buf output) {loop : Nat} (hloop : loop ≤ enc.length)
    (hle : output.length ≤ loop) (hroom : output.length ≤ maxOut) :
    Ready enc maxOut ⟨initialN, 0, initialBias, loop, output.length, buf⟩ output :=
  ⟨hloop, rfl, hle, hroom, hbuf, Nat.le_refl _, (by decide : initialN ≤ maxint), Nat.zero_le _,
    (by decide : initialBias ≤ 1000)⟩

/-- **The decoder returns what the pseudocode gives.** -/
theorem osslPunycodeDecode_returns (hlen : enc.length < 2 ^ 32) (hmax : maxOut ≤ maxint)
    (hbuf : buf.length = maxOut) {fuel : Nat} (hfuel : enc.length + 8 ≤ fuel) :
    Returns (osslPunycodeDecode enc maxOut buf fuel) (expected maxOut (decode enc)) := by
  have hlast := @lastDelimiter_yields enc hlen fuel 0 0 (Nat.zero_le _) (by omega)
  have hcount : ((Rfc3492.lastDelimiter (enc.drop 0)).map (0 + ·)).getD 0 =
      (Rfc3492.lastDelimiter enc).getD 0 := by
    rw [drop_zero]
    cases Rfc3492.lastDelimiter enc <;> simp
  have hlt : 0 < (Rfc3492.lastDelimiter enc).getD 0 →
      (Rfc3492.lastDelimiter enc).getD 0 < enc.length := by
    cases h : Rfc3492.lastDelimiter enc with
    | none => nofun
    | some j => exact fun _ => lastDelimiter_lt h
  rw [hcount] at hlast
  rw [decode]
  generalize (Rfc3492.lastDelimiter enc).getD 0 = basicCount at hlast hlt
  have hrest {s : State} {output : List Nat} (h : Ready enc maxOut s output) :=
    returns_of_meets hmax (@decodeLoop_meets enc maxOut output hlen hmax fuel hfuel fuel enc.length
      s h (by omega) (Nat.sub_le ..))
  apply Meets.bind hlast
  by_cases hpos : 0 < basicCount
  · have hinside := hlt hpos
    have hwritten : ((enc.take basicCount).map (·.toNat)).length = basicCount := by
      rw [length_map, length_take]
      omega
    rw [if_pos hpos, if_pos hpos]
    by_cases hroom : maxOut < basicCount
    · rw [if_pos hroom]
      have hnone : expected maxOut (if (enc.take basicCount).all (·.toNat < 0x80) then
          insertions enc.length 0x80 0 72 ((enc.take basicCount).map (·.toNat))
            (enc.drop (basicCount + 1)) else none) = none := by
        split
        · exact expected_of_gt (by omega)
        · rfl
      rw [hnone]
      exact yields_fail.bind_none
    · rw [if_neg hroom]
      have hcopy := @copyBasic_meets enc maxOut buf hmax basicCount hinside.le (by omega) fuel 0
        (Nat.zero_le _) (by omega) ⟨hbuf, nil_prefix⟩
      rw [drop_zero] at hcopy
      by_cases hall : (enc.take basicCount).all (·.toNat < 0x80) = true
      · rw [if_pos hall] at hcopy ⊢
        obtain ⟨copied, hyields, hholds⟩ := hcopy
        have hstart := @ready_start enc maxOut _ _ hholds (basicCount + 1) (by omega) (by omega)
          (by omega)
        have hends := hrest hstart
        rw [hwritten] at hends
        apply Meets.bind hyields
        exact .bind (yields_exact (by omega)) hends
      · rw [if_neg hall] at hcopy ⊢
        exact hcopy.bind_none
  · have hzero : basicCount = 0 := by omega
    subst hzero
    have hstart := @ready_start enc maxOut buf [] ⟨hbuf, nil_prefix⟩ 0 (Nat.zero_le _)
      (Nat.le_refl 0) (Nat.zero_le _)
    exact hrest hstart

/-- The search for the delimiter does not end in a long input. -/
theorem not_returns (hlong : 2 ^ 32 ≤ enc.length) {fuel : Nat} :
    ¬ Returns (osslPunycodeDecode enc maxOut buf fuel) o := by
  have hrunning : osslPunycodeDecode enc maxOut buf fuel true = none :=
    bind_running (lastDelimiter_running hlong fuel (by decide) 0 true)
  intro hreturns
  cases o with
  | none => exact absurd (hrunning.symm.trans hreturns) (by simp)
  | some output =>
    obtain ⟨b, hyields, -⟩ := hreturns
    exact absurd (hrunning.symm.trans hyields) (by simp)

/-- **Decoding follows RFC 3492 exactly if the input is shorter than `2 ^ 32`.** With enough fuel
the call returns, it succeeds exactly if the pseudocode does with values of 32 bits and an output of
at most `max_out` code points, and then gives this output; no operation wraps and every index is
below `max_out`. -/
theorem punycode_decode_iff (enc : Bytes) {maxOut : Nat} (hmax : maxOut < 2 ^ 32)
    {buf : List Nat} (hbuf : buf.length = maxOut) :
    (∃ enough, ∀ fuel, enough ≤ fuel →
      Returns (osslPunycodeDecode enc maxOut buf fuel) (expected maxOut (decode enc))) ↔
      enc.length < 2 ^ 32 := by
  constructor
  · rintro ⟨enough, henough⟩
    by_contra hlong
    exact not_returns (Nat.le_of_not_lt hlong) (henough enough (Nat.le_refl _))
  · intro hlen
    exact ⟨enc.length + 8, fun fuel hfuel =>
      osslPunycodeDecode_returns hlen (Nat.le_pred_of_lt hmax) hbuf hfuel⟩

/-- The label `bcher-kva` stands for `bücher`. -/
theorem punycode_decode_label :
    expected 6 (decode [0x62, 0x63, 0x68, 0x65, 0x72, 0x2d, 0x6b, 0x76, 0x61]) =
      some [0x62, 0xfc, 0x63, 0x68, 0x65, 0x72] ∧
    ∃ enough, ∀ fuel, enough ≤ fuel →
      Returns (osslPunycodeDecode [0x62, 0x63, 0x68, 0x65, 0x72, 0x2d, 0x6b, 0x76, 0x61] 6
          (List.replicate 6 0) fuel)
        (expected 6 (decode [0x62, 0x63, 0x68, 0x65, 0x72, 0x2d, 0x6b, 0x76, 0x61])) :=
  ⟨by decide +kernel, (punycode_decode_iff [0x62, 0x63, 0x68, 0x65, 0x72, 0x2d, 0x6b, 0x76, 0x61]
    (by decide) (length_replicate ..)).2 (by decide)⟩

/-- A label of `2 ^ 32` characters is never decoded. -/
theorem punycode_decode_long_label :
    ¬ ∃ enough, ∀ fuel, enough ≤ fuel →
      Returns (osslPunycodeDecode (List.replicate (2 ^ 32) 0x61) 512 (List.replicate 512 0) fuel)
        (expected 512 (decode (List.replicate (2 ^ 32) 0x61))) := by
  have hlong : 2 ^ 32 ≤ (List.replicate (2 ^ 32) (0x61 : UInt8)).length :=
    Nat.le_of_eq length_replicate.symm
  generalize List.replicate (2 ^ 32) (0x61 : UInt8) = label at hlong
  rintro ⟨enough, henough⟩
  exact not_returns hlong (henough enough (Nat.le_refl _))

end QuicTls.Punycode
