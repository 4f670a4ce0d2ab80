import QuicTls.Ssl.Statem.Dtls

/-!
# The reassembly bitmask

Bit `i` of the mask stands for byte `i` of the message.
-/

namespace QuicTls.Rsmbly

open List

variable {bitmask : List (BitVec 8)} {n i start «end» msgLen : Nat} {v : BitVec 8}

def bit (bitmask : List (BitVec 8)) (i : Nat) : Bool := (bitmask.getD (i / 8) 0).getLsbD (i % 8)

@[simp] theorem length_orAt : (orAt bitmask n v).length = bitmask.length := length_modify ..

theorem bit_orAt (hn : n < bitmask.length) :
    bit (orAt bitmask n v) i = (bit bitmask i || (decide (i / 8 = n) && v.getLsbD (i % 8))) := by
  unfold bit orAt
  by_cases hi : i / 8 = n
  · subst hi
    simp [hn]
  · simp [hi, Ne.symm hi]

theorem getLsbD_ones {j : Nat} (hj : j < 8) : (255#8).getLsbD j = true := by
  rw [show 255#8 = BitVec.allOnes 8 from rfl, BitVec.getLsbD_allOnes, decide_eq_true hj]

theorem bit_set_ones (hn : n < bitmask.length) :
    bit (bitmask.set n 0xff) i = (bit bitmask i || decide (i / 8 = n)) := by
  unfold bit
  rw [getD_eq_getElem?_getD, getElem?_set]
  by_cases hi : i / 8 = n
  · rw [if_pos hi.symm, if_pos (hi ▸ hn)]
    simp [hi, getLsbD_ones (Nat.mod_lt i (show 0 < 8 by decide))]
  · rw [if_neg (Ne.symm hi)]
    simp [hi]

theorem bit_markBits (count : Nat) (h : start + count ≤ 8 * bitmask.length) :
    bit ((List.range' start count).foldl
      (fun bm ii => orAt bm (ii / 8) (1#8 <<< (ii % 8))) bitmask) i
      = (bit bitmask i || decide (start ≤ i ∧ i < start + count)) := by
  induction count generalizing start bitmask with
  | zero =>
    rw [decide_eq_false (by omega), Bool.or_false]
    rfl
  | succ count ih =>
    rw [range'_succ, foldl_cons, ih (by rw [length_orAt]; omega),
      bit_orAt (by omega), BitVec.getLsbD_shiftLeft, Bool.or_assoc]
    congr 1
    rw [Bool.eq_iff_iff]
    simp
    omega

theorem bit_markBytes (count : Nat) (h : n + count ≤ bitmask.length) :
    bit ((List.range' n count).foldl (fun bm ii => bm.set ii 0xff) bitmask) i
      = (bit bitmask i || decide (n ≤ i / 8 ∧ i / 8 < n + count)) := by
  induction count generalizing n bitmask with
  | zero =>
    rw [decide_eq_false (by omega), Bool.or_false]
    rfl
  | succ count ih =>
    rw [range'_succ, foldl_cons, ih (by rw [length_set]; omega),
      bit_set_ones (by omega), Bool.or_assoc]
    congr 1
    rw [Bool.eq_iff_iff]
    simp
    omega

theorem length_markBytes (l : List Nat) :
    (l.foldl (fun bm ii => bm.set ii 0xff) bitmask).length = bitmask.length := by
  induction l generalizing bitmask with
  | nil => rfl
  | cons a l ih => rw [foldl_cons, ih, length_set]

theorem getLsbD_startValues {k j : Nat} (hk : k < 8) (hj : j < 8) :
    (startValues.getD k 0).getLsbD j = decide (k ≤ j) := by
  have h : ∀ k < 8, ∀ j < 8, (startValues.getD k 0).getLsbD j = decide (k ≤ j) := by decide
  exact h k hk j hj

theorem getLsbD_endValues {k j : Nat} (hk : k < 8) (hj : j < 8) :
    (endValues.getD k 0).getLsbD j = decide (k = 0 ∨ j < k) := by
  have h : ∀ k < 8, ∀ j < 8, (endValues.getD k 0).getLsbD j = decide (k = 0 ∨ j < k) := by decide
  exact h k hk j hj

/-- `RSMBLY_BITMASK_MARK` marks the bytes from `start` to `end`. -/
theorem bit_bitmaskMark (hle : start ≤ «end») (h : «end» ≤ 8 * bitmask.length) :
    bit (bitmaskMark bitmask start «end») i
      = (bit bitmask i || decide (start ≤ i ∧ i < «end»)) := by
  unfold bitmaskMark
  split
  · rw [bit_markBits _ (by omega), Nat.add_sub_cancel' hle]
  rw [bit_orAt (by rw [length_markBytes, length_orAt]; omega),
    bit_markBytes _ (by rw [length_orAt]; omega), bit_orAt (by omega),
    getLsbD_startValues (by omega) (by omega), getLsbD_endValues (by omega) (by omega),
    Bool.or_assoc, Bool.or_assoc]
  congr 1
  rw [Bool.eq_iff_iff]
  simp
  omega

theorem length_bitmaskMark : (bitmaskMark bitmask start «end»).length = bitmask.length := by
  have hbits (l : List Nat) : (l.foldl (fun bm ii => orAt bm (ii / 8) (1#8 <<< (ii % 8)))
      bitmask).length = bitmask.length := by
    induction l generalizing bitmask with
    | nil => rfl
    | cons a l ih => rw [foldl_cons, ih, length_orAt]
  unfold bitmaskMark
  split
  · exact hbits _
  · rw [length_orAt, length_markBytes, length_orAt]

/-- A complete mask has the bits of all bytes. -/
theorem bit_of_bitmaskIsComplete (h : bitmaskIsComplete bitmask msgLen = true) (hi : i < msgLen) :
    bit bitmask i = true := by
  obtain ⟨hlast, hall⟩ := Bool.and_eq_true_iff.1 h
  unfold bit
  rcases Nat.lt_or_ge (i / 8) ((msgLen - 1) / 8) with hlt | hge
  · have := all_eq_true.1 hall (i / 8) (mem_range.2 hlt)
    rw [eq_of_beq this]
    exact getLsbD_ones (Nat.mod_lt _ (by decide))
  · have heq : i / 8 = (msgLen - 1) / 8 := by omega
    rw [heq, eq_of_beq hlast, getLsbD_endValues (by omega) (by omega), decide_eq_true_eq]
    omega

end QuicTls.Rsmbly
