import Mathlib.Algebra.Order.Ring.Int
import QuicTls.Ssl.Record.EarlyData
import QuicTls.Theory.Run

/-!
# When the allowance for skipped early data is exact

The limit and the overhead of a record are added as 32-bit numbers (`early_data_allowance_exact`).
-/

namespace QuicTls.Record

open Run

/-- A record that cannot be decrypted: the state afterwards and whether it was skipped. The length
field of a record has 16 bits. -/
def skip {σ : Type} (countOk : σ → BitVec 64 → BitVec 64 → Bool → Except Fatal σ) (s : σ)
    (length : BitVec 16) : σ × Bool :=
  match countOk s (length.setWidth 64) earlyDataCiphertextOverhead false with
  | .ok s' => (s', true)
  | .error _ => (s, false)

/-- A record is accepted if and only if it fits in the bound together with those accepted before,
which have `total` bytes. -/
def ExactFrom (bound : Nat) : Nat → List (BitVec 16 × Bool) → Prop
  | _, [] => True
  | total, (length, accepted) :: log =>
    (accepted = true ↔ total + length.toNat ≤ bound) ∧
      ExactFrom bound (if accepted then total + length.toNat else total) log

instance ExactFrom.decidable (bound total : Nat) (log : List (BitVec 16 × Bool)) :
    Decidable (ExactFrom bound total log) :=
  match log with
  | [] => .isTrue trivial
  | (_, _) :: log => @instDecidableAnd _ _ _ (ExactFrom.decidable bound _ log)

section Count

variable {k : Nat} {maxEarlyData : BitVec 32} {count : BitVec k}

/-- The allowance in unbounded arithmetic. -/
def allowance (maxEarlyData : BitVec 32) : Nat :=
  maxEarlyData.toNat + earlyDataCiphertextOverhead.toNat

theorem toNat_allowance :
    ((maxEarlyData.setWidth 64 + earlyDataCiphertextOverhead).setWidth 32).toNat =
      allowance maxEarlyData % 2 ^ 32 := by
  have hover : earlyDataCiphertextOverhead.toNat = 104 := rfl
  rw [BitVec.toNat_setWidth, BitVec.toNat_add, BitVec.toNat_setWidth,
    Nat.mod_eq_of_lt (a := maxEarlyData.toNat) (by omega),
    Nat.mod_eq_of_lt (b := 2 ^ 64) (by omega)]
  rfl

/-- A record is counted if the allowance does not wrap. -/
theorem earlyDataCountOk_spec (hk : 32 ≤ k) (hmax : maxEarlyData ≠ 0)
    (hwrap : allowance maxEarlyData < 2 ^ 32) (hcount : count.toNat ≤ allowance maxEarlyData)
    (length : BitVec 16) (send : Bool) :
    if count.toNat + length.toNat ≤ allowance maxEarlyData then
      ∃ count' : BitVec k, earlyDataCountOk maxEarlyData count (length.setWidth 64)
        earlyDataCiphertextOverhead send = .ok count' ∧ count'.toNat = count.toNat + length.toNat
    else
      ∃ e, earlyDataCountOk maxEarlyData count (length.setWidth 64)
        earlyDataCiphertextOverhead send = .error e := by
  have hwidth : 2 ^ 32 ≤ 2 ^ k := Nat.pow_le_pow_right Nat.two_pos hk
  have hlen64 : (length.setWidth 64).toNat = length.toNat := by
    rw [BitVec.toNat_setWidth, Nat.mod_eq_of_lt (by omega)]
  have hcount64 : (count.setWidth 64).toNat = count.toNat := by
    rw [BitVec.toNat_setWidth, Nat.mod_eq_of_lt (by omega)]
  have hsum : (count.setWidth 64 + length.setWidth 64).toNat = count.toNat + length.toNat := by
    rw [BitVec.toNat_add, hcount64, hlen64, Nat.mod_eq_of_lt (by omega)]
  have hbound : ((maxEarlyData.setWidth 64 + earlyDataCiphertextOverhead).setWidth 32).toNat =
      allowance maxEarlyData := by
    rw [toNat_allowance, Nat.mod_eq_of_lt hwrap]
  have hbound64 : (((maxEarlyData.setWidth 64 + earlyDataCiphertextOverhead).setWidth 32).setWidth
      64).toNat = allowance maxEarlyData := by
    rw [BitVec.toNat_setWidth, hbound, Nat.mod_eq_of_lt (by omega)]
  rw [earlyDataCountOk]
  simp only [BitVec.lt_def, hsum, hbound64]
  split
  · rename_i hle
    rw [if_neg (Nat.not_lt.2 hle)]
    refine ⟨_, rfl, ?_⟩
    rw [BitVec.toNat_add, BitVec.toNat_setWidth, hlen64, Nat.mod_eq_of_lt (a := length.toNat)
      (by omega), Nat.mod_eq_of_lt (by omega)]
  · rename_i hgt
    rw [if_pos (Nat.not_le.1 hgt)]
    exact ⟨_, rfl⟩

/-- A counter that is checked and advanced in this way skips the records that fit. -/
theorem exactFrom_skip (hk : 32 ≤ k) (hmax : maxEarlyData ≠ 0)
    (hwrap : allowance maxEarlyData < 2 ^ 32) {σ : Type} (P : σ → Prop) (count : σ → BitVec k)
    (set : σ → BitVec k → σ) {countOk : σ → BitVec 64 → BitVec 64 → Bool → Except Fatal σ}
    (heq : ∀ s, P s → ∀ length overhead send, countOk s length overhead send =
      (earlyDataCountOk maxEarlyData (count s) length overhead send).map (set s))
    (hset : ∀ s c, P s → P (set s c) ∧ count (set s c) = c) {s : σ} {total : Nat} (hs : P s)
    (htotal : (count s).toNat = total) (hle : total ≤ allowance maxEarlyData)
    (lengths : List (BitVec 16)) :
    ExactFrom (allowance maxEarlyData) total (run (skip countOk) s lengths).2 := by
  induction lengths generalizing s total with
  | nil => trivial
  | cons length lengths ih =>
    subst htotal
    have hspec := earlyDataCountOk_spec hk hmax hwrap hle length false
    split_ifs at hspec with hfits
    · obtain ⟨count', hok, hcount⟩ := hspec
      have hskip : skip countOk s length = (set s count', true) := by
        rw [skip, heq s hs, hok]
        rfl
      rw [run_cons, hskip]
      obtain ⟨hs', hcount'⟩ := hset s count' hs
      exact ⟨iff_of_true rfl hfits, ih hs' ((congrArg _ hcount').trans hcount) hfits⟩
    · obtain ⟨e, herror⟩ := hspec
      have hskip : skip countOk s length = (s, false) := by
        rw [skip, heq s hs, herror]
        rfl
      rw [run_cons, hskip]
      exact ⟨iff_of_false nofun hfits, ih hs rfl hle⟩

/-- The wrapped allowance is smaller than a record of 104 bytes. -/
theorem earlyDataCountOk_wrapped (hwrap : 2 ^ 32 ≤ allowance maxEarlyData) (send : Bool) :
    ∃ e, earlyDataCountOk maxEarlyData (0#k) ((104#16).setWidth 64) earlyDataCiphertextOverhead
      send = .error e := by
  have hover : earlyDataCiphertextOverhead.toNat = 104 := rfl
  have hzero : (0#k).setWidth 64 = 0#64 := by simp
  rw [earlyDataCountOk]
  split
  · exact ⟨_, rfl⟩
  rw [if_pos]
  · exact ⟨_, rfl⟩
  rw [BitVec.lt_def, BitVec.toNat_setWidth, toNat_allowance, hzero]
  have hmod : allowance maxEarlyData % 2 ^ 32 = allowance maxEarlyData - 2 ^ 32 := by
    rw [Nat.mod_eq_sub_mod hwrap]
    rw [allowance]
    omega
  rw [allowance] at *
  show _ < 104
  omega

end Count

/-- The records skipped by a new record layer with a limit. -/
def skippedByLayer (maxEarlyData : BitVec 32) (lengths : List (BitVec 16)) :
    List (BitVec 16 × Bool) :=
  (run (skip rlayerEarlyDataCountOk) ⟨maxEarlyData, 0⟩ lengths).2

/-- The records skipped by a connection. -/
def skippedByConnection (s : EarlyConnection) (lengths : List (BitVec 16)) :
    List (BitVec 16 × Bool) :=
  (run (skip osslEarlyDataCountOk) s lengths).2

/-- **The allowance is exact if and only if it does not wrap**, both in the record layer and in the
connection. -/
theorem early_data_allowance_exact {maxEarlyData : BitVec 32} (hmax : maxEarlyData ≠ 0) :
    (∀ lengths, ExactFrom (allowance maxEarlyData) 0 (skippedByLayer maxEarlyData lengths) ∧
      ∀ s, osslGetMaxEarlyData s = .ok maxEarlyData → s.earlyDataCount = 0 →
        ExactFrom (allowance maxEarlyData) 0 (skippedByConnection s lengths)) ↔
    maxEarlyData.toNat + earlyDataCiphertextOverhead.toNat < 2 ^ 32 := by
  constructor
  · intro h
    by_contra hwrap
    obtain ⟨e, herror⟩ := earlyDataCountOk_wrapped (Nat.not_lt.1 hwrap) false
    have hexact := (h [104#16]).1
    have hskip :
        skip rlayerEarlyDataCountOk ⟨maxEarlyData, 0⟩ 104#16 = (⟨maxEarlyData, 0⟩, false) :=
      by rw [skip, show rlayerEarlyDataCountOk _ _ _ _ = _ from congrArg (Except.map _) herror]; rfl
    rw [skippedByLayer, run_cons, hskip] at hexact
    have hfits : 0 + (104#16).toNat ≤ allowance maxEarlyData := by
      exact Nat.le_add_left _ _
    exact nomatch hexact.1.2 hfits
  · intro hwrap lengths
    constructor
    · refine exactFrom_skip (by decide) hmax hwrap (EarlyLayer.maxEarlyData · = maxEarlyData)
        EarlyLayer.earlyDataCount (fun rl c => { rl with earlyDataCount := c }) ?_
        (fun _ _ h => ⟨h, rfl⟩) (s := ⟨maxEarlyData, 0⟩) rfl rfl (Nat.zero_le _) lengths
      intro rl hrl length overhead send
      rw [rlayerEarlyDataCountOk, hrl]
    · intro s hs hcount
      refine exactFrom_skip (by decide) hmax hwrap (osslGetMaxEarlyData · = .ok maxEarlyData)
        EarlyConnection.earlyDataCount (fun s c => { s with earlyDataCount := c }) ?_
        (fun _ _ h => ⟨h, rfl⟩) hs (hcount ▸ rfl) (Nat.zero_le _) lengths
      intro s hs length overhead send
      rw [osslEarlyDataCountOk, hs]
      rfl

/-- The default limit, with records up to it and one beyond. -/
theorem early_data_allowance_exact_default :
    ExactFrom (allowance 16384#32) 0 (skippedByLayer 16384#32 [16000#16, 488#16, 1#16]) :=
  ((early_data_allowance_exact (by decide)).2 (by decide) _).1

/-- The largest limit that a server can configure: the bound wraps to 103. -/
theorem early_data_allowance_wraps :
    ¬ ExactFrom (allowance (BitVec.allOnes 32)) 0
      (skippedByLayer (BitVec.allOnes 32) [200#16]) := by
  decide

end QuicTls.Record
