import QuicTls.Theory.LongDivision
import QuicTls.Crypto.Bn.Recp

/-!
# Division by a cached reciprocal is division

The reciprocal may be from an earlier call, and the estimate three too small (`div_recp_exact`).
-/

namespace QuicTls.Bn.Z

/-- The reciprocal belongs to the cached shift, unless nothing is cached. -/
def RecpCtx.Caches (N : Int) (recp : RecpCtx) : Prop :=
  recp.N = N ∧ recp.numBits = Z.numBits N ∧
    ∀ i, recp.shift = some i → 0 < i → recp.Nr = reciprocal N i

variable {N : Int} {recp : RecpCtx}

theorem RecpCtx.Caches.refresh (h : recp.Caches N) (i : Nat) (failed : Option Int) :
    (recp.refresh i failed).Caches N := by
  obtain ⟨rfl, hbits, hNr⟩ := h
  unfold RecpCtx.refresh
  split
  · exact ⟨rfl, hbits, hNr⟩
  cases failed with
  | none =>
    refine ⟨rfl, hbits, ?_⟩
    rintro _ ⟨⟩ -
    rfl
  | some Nr => exact ⟨rfl, hbits, by rintro _ ⟨⟩⟩

theorem caches_divRecp (h : recp.Caches N) (m : Int) (failed : Option Int) :
    (divRecp recp m failed).1.Caches N := by
  have hr := h.refresh (max (numBits m) (2 * recp.numBits)) failed
  simp only [divRecp]
  split
  · exact h
  · split
    · exact hr
    · split <;> exact hr

/-- The contexts after any calls. -/
def RecpCtx.run (recp : RecpCtx) (calls : List (Int × Option Int)) : RecpCtx :=
  calls.foldl (fun recp c => (divRecp recp c.1 c.2).1) recp

theorem caches_run (N : Int) (calls : List (Int × Option Int)) :
    ((RecpCtx.set N).run calls).Caches N := by
  suffices ∀ recp : RecpCtx, recp.Caches N → (recp.run calls).Caches N by
    apply this
    refine ⟨rfl, rfl, ?_⟩
    rintro i ⟨⟩ hi
    exact absurd hi (Nat.lt_irrefl 0)
  induction calls with
  | nil => exact fun _ h => h
  | cons c calls ih => exact fun recp h => ih _ (caches_divRecp h c.1 c.2)

theorem correctRecp_eq {n : Nat} (hn : 0 < n) {left d r : Nat} (hr : r < (left + 1) * n) :
    correctRecp n left d r = some (d + r / n, r % n) := by
  induction left generalizing d r with
  | zero =>
    rw [Nat.one_mul] at hr
    rw [correctRecp, if_neg (Nat.not_le.2 hr), Nat.div_eq_of_lt hr, Nat.mod_eq_of_lt hr,
      Nat.add_zero]
  | succ left ih =>
    rw [correctRecp]
    split
    · rename_i hle
      rw [Nat.succ_mul] at hr
      rw [ih (by omega), Nat.div_eq_sub_div hn hle, Nat.mod_eq_sub_mod hle, Nat.add_right_comm,
        Nat.add_assoc d]
    · rw [Nat.div_eq_of_lt (by omega), Nat.mod_eq_of_lt (by omega), Nat.add_zero]

variable {m : Int} {i : Nat}

/-- The estimate of the quotient is at most three too small. -/
theorem estimate_bounds (hN : N ≠ 0) (h : recp.Caches N) (hshift : recp.shift = some i)
    (hm : numBits m ≤ i) (hi : 2 * recp.numBits ≤ i) :
    recp.estimate m i ≤ m.natAbs / N.natAbs ∧ m.natAbs / N.natAbs ≤ recp.estimate m i + 3 := by
  obtain ⟨rfl, hbits, hNr⟩ := h
  have hpos : 0 < recp.N.natAbs := Int.natAbs_pos.2 hN
  have hk : 0 < recp.numBits := hbits ▸ Nat.size_pos.2 hpos
  have hlow : 2 ^ (recp.numBits - 1) ≤ recp.N.natAbs := by
    apply Nat.lt_size.1
    have : recp.numBits = recp.N.natAbs.size := hbits
    omega
  have hsplit : 2 ^ recp.numBits * 2 ^ (i - recp.numBits) = 2 ^ i := by
    rw [← Nat.pow_add]
    congr 1
    omega
  have hx : m.natAbs < 2 ^ recp.numBits * 2 ^ (i - recp.numBits) := hsplit ▸ Nat.size_le.1 hm
  have hb : 2 ^ recp.numBits ≤ 2 * recp.N.natAbs := by
    rw [← Nat.sub_add_cancel hk, Nat.pow_succ, Nat.mul_comm]
    exact Nat.mul_le_mul_left 2 hlow
  have heq : recp.estimate m i = m.natAbs / 2 ^ recp.numBits *
      (2 ^ recp.numBits * 2 ^ (i - recp.numBits) / recp.N.natAbs) / 2 ^ (i - recp.numBits) := by
    rw [RecpCtx.estimate, hNr i hshift (by omega), reciprocal, hsplit]
    simp only [Int.natAbs_tdiv, Int.natAbs_mul]
    rfl
  rw [heq]
  exact ⟨LongDivision.reciprocal_estimate_le (Nat.two_pow_pos _) hpos,
    LongDivision.le_reciprocal_estimate hpos hb hx⟩

/-- The signs of the quotient and of the remainder are those of a truncated division. -/
theorem signed_division (m N : Int) :
    (if (m < 0 ↔ N < 0) then (↑(m.natAbs / N.natAbs) : Int) else -↑(m.natAbs / N.natAbs)) =
        m.tdiv N ∧
      (if m < 0 then -(↑(m.natAbs % N.natAbs) : Int) else ↑(m.natAbs % N.natAbs)) = m.tmod N := by
  have hnat (n : Nat) : ¬ (n : Int) < 0 := not_lt.2 (Int.natCast_nonneg n)
  cases m <;> cases N <;> simp [Int.tdiv, Int.tmod, hnat]

/-- After any calls with the same context, failed ones included, the quotient and the remainder are
those of the truncated division, and the first estimate is at most three below the quotient. -/
theorem div_recp_exact (hN : N ≠ 0) (calls : List (Int × Option Int)) (m : Int) :
    (divRecp ((RecpCtx.set N).run calls) m none).2 = some (m.tdiv N, m.tmod N) ∧
      let i := max (numBits m) (2 * numBits N)
      let recp := ((RecpCtx.set N).run calls).refresh i none
      recp.estimate m i ≤ m.natAbs / N.natAbs ∧ m.natAbs / N.natAbs ≤ recp.estimate m i + 3 := by
  generalize hrun : (RecpCtx.set N).run calls = recp
  generalize hi : max (numBits m) (2 * numBits N) = i
  have hpos : 0 < N.natAbs := Int.natAbs_pos.2 hN
  have h : recp.Caches N := hrun ▸ caches_run N calls
  have hr := h.refresh i none
  have hshift : (recp.refresh i none).shift = some i := by
    unfold RecpCtx.refresh
    split
    · assumption
    · rfl
  have hbounds := estimate_bounds hN hr hshift (hi ▸ Nat.le_max_left _ _)
    (hr.2.1 ▸ hi ▸ Nat.le_max_right _ _)
  refine ⟨?_, hbounds⟩
  obtain ⟨hq, hrem⟩ := signed_division m N
  rw [divRecp, h.1, h.2.1, hi]
  split
  · rename_i hlt
    rw [Nat.div_eq_of_lt hlt] at hq
    rw [Nat.mod_eq_of_lt hlt] at hrem
    have hm : m = m.tmod N := by
      rw [← hrem]
      split <;> omega
    rw [← hq, ← hm]
    simp
  · have hle : N.natAbs * (recp.refresh i none).estimate m i ≤ m.natAbs := by
      rw [Nat.mul_comm]
      exact (Nat.le_div_iff_mul_le hpos).1 hbounds.1
    have hlt : m.natAbs - N.natAbs * (recp.refresh i none).estimate m i < (3 + 1) * N.natAbs := by
      have := (Nat.div_lt_iff_lt_mul hpos).1 (Nat.lt_succ_of_le hbounds.2)
      rw [Nat.succ_eq_add_one, Nat.add_assoc, Nat.add_mul, Nat.mul_comm _ N.natAbs] at this
      exact Nat.sub_lt_left_of_lt_add hle this
    rw [if_neg (by rw [hshift]; rintro ⟨⟩), hr.1, if_neg (Nat.not_lt.2 hle),
      correctRecp_eq hpos hlt, Nat.sub_mul_div, Nat.sub_mul_mod hle,
      Nat.add_sub_cancel' hbounds.1]
    exact congrArg some (Prod.ext hq hrem)

/-- A second division with the reciprocal of the first. -/
theorem div_recp_exact_cached :
    (divRecp ((RecpCtx.set (-7)).run [(1000, none), (5, none), (900, some 3)]) (-999) none).2 =
      some (142, -5) :=
  (div_recp_exact (by decide : (-7 : Int) ≠ 0) [(1000, none), (5, none), (900, some 3)] (-999)).1

end QuicTls.Bn.Z
