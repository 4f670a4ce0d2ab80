import Mathlib.Data.Nat.SuccPred
import QuicTls.Crypto.X509.Addr
import QuicTls.Theory.Intervals
import QuicTls.Verify.Pqueue

/-!
# The addresses of prefixes and ranges

Addresses are the numbers that their bytes stand for. An entry that fits its family stands for an
interval of them, a list in canonical form for a separated list of intervals, and `addr_contains`
is the walk over two such lists.
-/

namespace QuicTls.X509

open BigEndian Intervals List

namespace BitString

variable (bs : BitString)

theorem length_filled (fill : UInt8) : (bs.filled fill).length = bs.data.length := by
  unfold filled
  cases hlast : bs.data.getLast? with
  | none => simp [getLast?_eq_none_iff.1 hlast]
  | some last =>
    have hne : bs.data ≠ [] := by
      intro hnil
      simp [hnil] at hlast
    have hpos := length_pos_of_ne_nil hne
    split_ifs
    · rfl
    · simp
      omega
    · simp
      omega

theorem decode_filled_le : decode (bs.filled 0x00) ≤ decode (bs.filled 0xFF) := by
  unfold filled
  cases bs.data.getLast? with
  | none => exact le_rfl
  | some last =>
    dsimp only
    by_cases hbits : bs.flags % 8 = 0
    · rw [if_pos hbits, if_pos hbits]
    · rw [if_neg hbits, if_neg hbits, if_pos rfl, if_neg (by decide), decode_concat,
        decode_concat, UInt8.toNat_or]
      exact Nat.add_le_add_left (Nat.and_le_left.trans Nat.left_le_or) _

end BitString

variable {bs : BitString} {addr min max : Bytes} {fill : UInt8} {n : Nat}

theorem addrExpand_eq_some : addrExpand bs n fill = some addr ↔
    bs.data.length ≤ n ∧ bs.filled fill ++ List.replicate (n - bs.data.length) fill = addr := by
  rw [addrExpand]
  split
  · simp
    omega
  · simp
    omega

theorem length_addrExpand (h : addrExpand bs n fill = some addr) : addr.length = n := by
  obtain ⟨hle, rfl⟩ := addrExpand_eq_some.1 h
  rw [length_append, bs.length_filled, length_replicate]
  omega

/-- Zeros in the open bits give the lowest address, ones the highest. -/
theorem addrExpand_le (hmin : addrExpand bs n 0x00 = some min)
    (hmax : addrExpand bs n 0xFF = some max) : decode min ≤ decode max := by
  obtain ⟨_, rfl⟩ := addrExpand_eq_some.1 hmin
  obtain ⟨_, rfl⟩ := addrExpand_eq_some.1 hmax
  rw [decode_append, decode_append, decode_replicate_zero, length_replicate, length_replicate]
  exact (Nat.mul_le_mul_right _ bs.decode_filled_le).trans (Nat.le_add_right _ _)

variable {aor a b : IPAddressOrRange}

theorem extractMinMax_eq_some (h : extractMinMax aor n = some (min, max)) :
    min.length = n ∧ max.length = n ∧ (aor.isRange = false → decode min ≤ decode max) := by
  unfold extractMinMax at h
  split at h
  all_goals
    split at h
    · rename_i hmin hmax
      cases h
      refine ⟨length_addrExpand hmin, length_addrExpand hmax, ?_⟩
      first
        | exact fun _ => addrExpand_le hmin hmax
        | exact nofun
    · cases h

/-! ### Entries as intervals -/

/-- The lowest and the highest address of an entry, if it fits the length of the addresses. -/
def IPAddressOrRange.interval (n : Nat) (aor : IPAddressOrRange) : Option (Nat × Nat) :=
  (extractMinMax aor n).map fun ends => (decode ends.1, decode ends.2)

def ranges (n : Nat) (aors : IPAddressOrRanges) : List (Nat × Nat) := aors.filterMap (·.interval n)

/-- The set of addresses that a list of prefixes and ranges denotes. -/
def addresses (n : Nat) (aors : IPAddressOrRanges) : Set Nat := points (ranges n aors)

/-- All bit strings of the list fit addresses of `n` bytes. -/
def Fit (n : Nat) (aors : IPAddressOrRanges) : Prop := ∀ aor ∈ aors, (extractMinMax aor n).isSome

theorem interval_of_extractMinMax (h : extractMinMax aor n = some (min, max)) :
    aor.interval n = some (decode min, decode max) := by
  rw [IPAddressOrRange.interval, h]
  rfl

theorem ranges_cons (h : extractMinMax aor n = some (min, max)) (aors : IPAddressOrRanges) :
    ranges n (aor :: aors) = (decode min, decode max) :: ranges n aors :=
  filterMap_cons_some (interval_of_extractMinMax h)

namespace Fit

variable {aors : IPAddressOrRanges}

theorem of_cons (h : Fit n (aor :: aors)) : Fit n aors :=
  fun p hp => h p (mem_cons_of_mem _ hp)

theorem head (h : Fit n (aor :: aors)) : ∃ min max, extractMinMax aor n = some (min, max) := by
  obtain ⟨ends, hends⟩ := Option.isSome_iff_exists.1 (h aor mem_cons_self)
  exact ⟨ends.1, ends.2, hends⟩

end Fit

/-! ### Canonical lists -/

theorem length_decrementRev (bs : Bytes) : (decrementRev bs).length = bs.length := by
  induction bs with
  | nil => rfl
  | cons b bs ih =>
    rw [decrementRev, length_cons, length_cons]
    split
    · rw [ih]
    · rfl

theorem length_decrement (addr : Bytes) : (decrement addr).length = addr.length := by
  rw [decrement, length_reverse, length_decrementRev, length_reverse]

theorem decode_decrementRev {bs : Bytes} (h : 0 < decode bs.reverse) :
    decode (decrementRev bs).reverse = decode bs.reverse - 1 := by
  induction bs with
  | nil => cases h
  | cons b bs ih =>
    rw [reverse_cons, decode_concat] at h
    rw [decrementRev, reverse_cons, reverse_cons, decode_concat, decode_concat]
    split
    · rename_i hb
      subst hb
      have hpos : 0 < decode bs.reverse := by
        simp only [UInt8.toNat_zero] at h
        omega
      have hborrow : ((0 : UInt8) - 1).toNat = 255 := rfl
      rw [UInt8.toNat_zero]
      omega
    · have hpos : 1 ≤ b := by grind
      rw [UInt8.toNat_sub_of_le _ _ hpos]
      have : 1 ≤ b.toNat := UInt8.le_iff_toNat_le.1 hpos
      have hone : (1 : UInt8).toNat = 1 := rfl
      omega

theorem decode_decrement (h : 0 < decode addr) : decode (decrement addr) = decode addr - 1 := by
  rw [decrement, decode_decrementRev (by rwa [reverse_reverse]), reverse_reverse]

theorem memcmp_lt {as bs : Bytes} (ha : as.length = n) (hb : bs.length = n) :
    memcmp as bs = .lt ↔ decode as < decode bs := by
  rw [memcmp_eq_compare (ha.trans hb.symm), Nat.compare_eq_lt]

theorem memcmp_gt {as bs : Bytes} (ha : as.length = n) (hb : bs.length = n) :
    memcmp as bs = .gt ↔ decode bs < decode as := by
  rw [memcmp_eq_compare (ha.trans hb.symm), Nat.compare_eq_gt]

/-- Neighbours in a canonical list are in order and leave an address out between them. -/
theorem pairCanonical_spec (h : pairCanonical n a b = true) :
    ∃ aMin aMax bMin bMax, extractMinMax a n = some (aMin, aMax) ∧
      extractMinMax b n = some (bMin, bMax) ∧ decode aMin ≤ decode aMax ∧
      decode aMax < Order.pred (decode bMin) := by
  unfold pairCanonical at h
  split at h
  · rename_i aMin aMax bMin bMax ha hb
    obtain ⟨haMin, haMax, _⟩ := extractMinMax_eq_some ha
    obtain ⟨hbMin, hbMax, _⟩ := extractMinMax_eq_some hb
    split at h
    · cases h
    rename_i hends
    split at h
    · cases h
    rename_i hgap
    rw [not_or, not_not, memcmp_lt haMin hbMin, memcmp_gt haMin haMax] at hends
    rw [not_not, memcmp_lt haMax ((length_decrement _).trans hbMin),
      decode_decrement (by omega)] at hgap
    refine ⟨aMin, aMax, bMin, bMax, ha, hb, by omega, ?_⟩
    exact hgap
  · cases h

theorem lastCanonical_spec (h : lastCanonical n a = true)
    (ha : extractMinMax a n = some (min, max)) : decode min ≤ decode max := by
  obtain ⟨hmin, hmax, hprefix⟩ := extractMinMax_eq_some ha
  unfold lastCanonical at h
  rw [ha] at h
  split at h
  · rename_i hrange
    exact hprefix (by simpa using hrange)
  · rw [Bool.not_eq_true', Bool.or_eq_false_iff, beq_eq_false_iff_ne, ne_eq,
      memcmp_gt hmin hmax] at h
    omega

/-- **A canonical list whose entries fit is separated.** The check itself does not look at the
length of a prefix that is the last entry. -/
theorem separated_of_aorsCanonical {aors : IPAddressOrRanges} (h : aorsCanonical n aors = true)
    (hfit : Fit n aors) : Separated (ranges n aors) := by
  induction aors with
  | nil => cases h
  | cons a aors ih =>
    cases aors with
    | nil =>
      obtain ⟨min, max, ha⟩ := hfit.head
      have hle := lastCanonical_spec h ha
      rw [ranges_cons ha]
      exact ⟨by simpa [ranges] using hle, by simp [ranges]⟩
    | cons b aors =>
      rw [aorsCanonical, Bool.and_eq_true] at h
      obtain ⟨aMin, aMax, bMin, bMax, ha, hb, hle, hgap⟩ := pairCanonical_spec h.1
      have hsep := ih h.2 hfit.of_cons
      rw [ranges_cons hb] at hsep
      rw [ranges_cons ha, ranges_cons hb]
      exact hsep.cons_cons hle hgap

variable {parent child rest : IPAddressOrRanges} {cMin cMax : Bytes}

/-- The inner loop skips what the walk over the intervals skips, and finds what the walk finds if
every parent fits. -/
theorem seekParent_spec (hcMin : cMin.length = n) (hcMax : cMax.length = n) :
    (∀ rest, seekParent n cMin cMax parent = some rest →
      ∃ p ps, (ranges n parent).dropWhile (fun q => decide (q.2 < decode cMax)) = p :: ps ∧
        ranges n rest = p :: ps ∧ p.1 ≤ decode cMin ∧ (Fit n parent → Fit n rest)) ∧
    (Fit n parent → seekParent n cMin cMax parent = none → ∀ p ps,
      (ranges n parent).dropWhile (fun q => decide (q.2 < decode cMax)) = p :: ps →
        decode cMin < p.1) := by
  induction parent with
  | nil => exact ⟨nofun, fun _ _ => nofun⟩
  | cons q parent ih =>
    rw [seekParent]
    cases hq : extractMinMax q n with
    | none =>
      refine ⟨nofun, fun hfit => ?_⟩
      obtain ⟨qMin, qMax, hends⟩ := hfit.head
      exact nomatch hq.symm.trans hends
    | some ends =>
      obtain ⟨hqMin, hqMax, _⟩ := extractMinMax_eq_some hq
      simp only [memcmp_lt hqMax hcMax, memcmp_gt hqMin hcMin]
      rw [ranges_cons hq]
      split
      · rename_i hlt
        rw [dropWhile_cons_of_pos (by simpa using hlt)]
        refine ⟨fun rest h => ?_, fun hfit => ih.2 hfit.of_cons⟩
        obtain ⟨p, ps, hdrop, hrest, hle, hfit⟩ := ih.1 rest h
        exact ⟨p, ps, hdrop, hrest, hle, fun h => hfit h.of_cons⟩
      rename_i hge
      rw [dropWhile_cons_of_neg (by simpa using hge)]
      split_ifs with hgt
      · refine ⟨nofun, ?_⟩
        rintro _ _ _ _ ⟨⟩
        exact hgt
      · refine ⟨?_, fun _ => nofun⟩
        rintro _ ⟨⟩
        exact ⟨_, _, rfl, ranges_cons hq _, not_lt.1 hgt, id⟩

/-- `addr_contains` decides that the ranges are covered. -/
theorem addrContains_spec :
    (addrContains n parent child = true → covers (ranges n parent) (ranges n child) = true) ∧
    (Fit n parent → Fit n child → covers (ranges n parent) (ranges n child) = true →
      addrContains n parent child = true) := by
  induction child generalizing parent with
  | nil => exact ⟨fun _ => rfl, fun _ _ _ => rfl⟩
  | cons c child ih =>
    rw [addrContains]
    cases hc : extractMinMax c n with
    | none =>
      refine ⟨nofun, fun _ hfit => ?_⟩
      obtain ⟨cMin, cMax, hends⟩ := hfit.head
      exact nomatch hc.symm.trans hends
    | some ends =>
      obtain ⟨hcMin, hcMax, _⟩ := extractMinMax_eq_some hc
      obtain ⟨hfound, hnone⟩ := @seekParent_spec n parent _ _ hcMin hcMax
      rw [ranges_cons hc, covers_cons]
      dsimp only
      cases hseek : seekParent n ends.1 ends.2 parent with
      | none =>
        refine ⟨nofun, fun hfit _ h => ?_⟩
        obtain ⟨p, ps, hdrop, hle, _⟩ := h
        exact absurd hle (not_le.2 (hnone hfit hseek p ps hdrop))
      | some rest =>
        obtain ⟨p, ps, hdrop, hrest, hle, hfit⟩ := hfound rest hseek
        refine ⟨fun h => ⟨p, ps, hdrop, hle, hrest ▸ ih.1 h⟩, fun hp hc h => ?_⟩
        obtain ⟨_, _, hdrop', _, hcov⟩ := h
        cases hdrop.symm.trans hdrop'
        exact ih.2 (hfit hp) hc.of_cons (hrest ▸ hcov)

/-- Whatever the lists are, what `addr_contains` accepts is contained. -/
theorem addresses_subset_of_addrContains (h : addrContains n parent child = true) :
    addresses n child ⊆ addresses n parent :=
  points_subset_of_covers (addrContains_spec.1 h)

/-- On canonical lists that fit it accepts all that is contained. -/
theorem addrContains_of_subset (hp : Fit n parent) (hc : Fit n child)
    (hsp : Separated (ranges n parent)) (hsc : Separated (ranges n child))
    (h : addresses n child ⊆ addresses n parent) : addrContains n parent child = true :=
  addrContains_spec.2 hp hc ((hsp.covers_iff hsc).2 h)

end QuicTls.X509
