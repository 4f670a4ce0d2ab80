import Mathlib.Data.Nat.ModEq
import QuicTls.Ssl.Record.Pad
import QuicTls.Verify.ConstantTime

/-!
# CBC padding is removed as specified

The loops of tls_pad.c compute the padding condition and the MAC that a direct reading of the record
gives (`cbc_remove_padding`).
-/

namespace QuicTls

open List

variable {recdata : List (BitVec 8)} {m n k start i r : Nat}
  {macSize macStart macEnd reclen origreclen blockSize : SizeT} {st : MacScan} {env : PadEnv}
  {randmac : Nat → BitVec 8}

theorem and_not_eq_allOnes {w : Nat} (a x : BitVec w) :
    a &&& ~~~x = BitVec.allOnes w ↔ a = BitVec.allOnes w ∧ x = 0 := by
  rw [BitVec.and_eq_allOnes_iff, ← BitVec.not_zero, BitVec.not_inj]
  rfl

/-- A padding byte is checked without a branch. -/
theorem checkStep_setWidth (reclen good : SizeT) (p : BitVec 8) (i : Nat) (hi : i < 2 ^ 64) :
    (checkStep recdata reclen (p.setWidth 64) good i).setWidth 8 = BitVec.allOnes 8 ↔
      good.setWidth 8 = BitVec.allOnes 8 ∧
      (i ≤ p.toNat → recdata.getD (reclen - 1 - BitVec.ofNat 64 i).toNat 0 = p) := by
  have hp : (p.setWidth 64).toNat = p.toNat := by
    simp
    omega
  have hle : BitVec.ofNat 64 i ≤ p.setWidth 64 ↔ i ≤ p.toNat := by
    rw [BitVec.le_def, hp, BitVec.toNat_ofNat, Nat.mod_eq_of_lt hi]
  unfold checkStep
  rw [constantTimeGe8_eq, BitVec.setWidth_and, BitVec.setWidth_not (by decide), and_not_eq_allOnes,
    BitVec.setWidth_and, BitVec.setWidth_xor]
  simp only [BitVec.setWidth_setWidth_of_le _ (show 8 ≤ 64 by decide), BitVec.setWidth_eq, hle,
    mask_and]
  refine and_congr_right fun _ => ?_
  by_cases h : i ≤ p.toNat
  · simp only [h, forall_const]
    exact BitVec.xor_eq_zero_iff.trans eq_comm
  · simp [h]

/-- The loop clears a bit of the lowest byte when a padding byte is wrong. -/
theorem checkPadding_setWidth (reclen good : SizeT) (p : BitVec 8) (hm : m ≤ 256) :
    ((List.range m).foldl (checkStep recdata reclen (p.setWidth 64)) good).setWidth 8
        = BitVec.allOnes 8 ↔
      good.setWidth 8 = BitVec.allOnes 8 ∧
      ∀ i < m, i ≤ p.toNat → recdata.getD (reclen - 1 - BitVec.ofNat 64 i).toNat 0 = p := by
  induction m with
  | zero => simp
  | succ m ih =>
    rw [range_succ, foldl_append, foldl_cons, foldl_nil,
      checkStep_setWidth _ _ _ _ (by omega), ih (by omega), Nat.forall_lt_succ_right, and_assoc]

theorem constantTimeEq_ff (good : SizeT) : constantTimeEq 0xff (good &&& 0xff)
    = mask 64 (decide (good.setWidth 8 = BitVec.allOnes 8)) := by
  have h : good &&& 0xff = (good.setWidth 8).setWidth 64 := by
    apply BitVec.eq_of_toNat_eq
    show good.toNat &&& (2 ^ 8 - 1) = _
    rw [Nat.and_two_pow_sub_one_eq_mod]
    simp
    omega
  have hff : (0xff : SizeT) = (BitVec.allOnes 8).setWidth 64 := by decide
  rw [constantTimeEq_eq, h, hff]
  congr 2
  refine propext ⟨fun h => ?_, fun h => by rw [h]⟩
  have := congrArg (BitVec.setWidth 8) h
  simpa using this.symm

/-! ### The position of the MAC -/

theorem ofNat_toNat_of_lt (h : n < 2 ^ 64) : (BitVec.ofNat 64 n).toNat = n := by
  rw [BitVec.toNat_ofNat, Nat.mod_eq_of_lt h]

theorem toNat_pos (hmac : macSize ≠ 0) : 0 < macSize.toNat :=
  Nat.pos_of_ne_zero fun h => hmac (BitVec.eq_of_toNat_eq h)

/-- The offset into the rotated MAC goes round. -/
theorem next_offset (hmac : macSize ≠ 0) :
    (BitVec.ofNat 64 (n % macSize.toNat) + 1) &&&
        constantTimeLt (BitVec.ofNat 64 (n % macSize.toNat) + 1) macSize
      = BitVec.ofNat 64 ((n + 1) % macSize.toNat) := by
  have hpos := toNat_pos hmac
  have hlt := Nat.mod_lt n hpos
  have hadd : BitVec.ofNat 64 (n % macSize.toNat) + 1
      = BitVec.ofNat 64 (n % macSize.toNat + 1) := by
    rw [BitVec.ofNat_add]
    rfl
  have hiff : BitVec.ofNat 64 (n % macSize.toNat + 1) < macSize
      ↔ n % macSize.toNat + 1 < macSize.toNat := by
    rw [BitVec.lt_def, ofNat_toNat_of_lt (by omega)]
  rw [constantTimeLt_eq, and_mask, hadd, ← Nat.mod_add_mod n]
  simp only [hiff]
  by_cases h : n % macSize.toNat + 1 < macSize.toNat
  · simp only [h, decide_true, if_true]
    rw [Nat.mod_eq_of_lt h]
  · rw [show n % macSize.toNat + 1 = macSize.toNat by omega]
    simp

theorem or_byte (r b : BitVec 8) (c : Bool) :
    (r.setWidth 64 ||| (b.setWidth 64 &&& mask 64 c)).setWidth 8 = r ||| if c then b else 0 := by
  rw [and_mask]
  cases c <;> simp

theorem add_mod_inj {d e : Nat} (hd : d < k) (he : e < k) (h : (m + d) % k = (m + e) % k) :
    d = e := by
  have : d ≡ e [MOD k] := Nat.ModEq.add_left_cancel' m h
  rwa [Nat.ModEq, Nat.mod_eq_of_lt hd, Nat.mod_eq_of_lt he] at this

/-- Before byte `i`, the loop has the bytes of the MAC so far, each at its rotated position. -/
structure Scanned (recdata : List (BitVec 8)) (start macStart macSize i : Nat) (st : MacScan) :
    Prop where
  inMac : st.inMac = mask 64 (decide (macStart < i ∧ i ≤ macStart + macSize))
  rotateOffset : st.rotateOffset
    = if macStart < i then BitVec.ofNat 64 ((macStart - start) % macSize) else 0
  j : st.j = BitVec.ofNat 64 ((i - start) % macSize)
  bytes : ∀ d < macSize, st.rotatedMac[(macStart - start + d) % macSize]?
    = some (if macStart + d < i then recdata.getD (macStart + d) 0 else 0)

/-- One byte of the record is scanned. -/
theorem Scanned.scanStep (h : Scanned recdata start macStart.toNat macSize.toNat i st)
    (hmac : macSize ≠ 0) (hend : macEnd.toNat = macStart.toNat + macSize.toNat)
    (hstart : start ≤ macStart.toNat) (hi : start ≤ i) (hlt : i < 2 ^ 64) :
    Scanned recdata start macStart.toNat macSize.toNat (i + 1)
      (scanStep recdata macStart macEnd macSize st i) := by
  have heq : BitVec.ofNat 64 i = macStart ↔ i = macStart.toNat := by
    rw [BitVec.toNat_eq, ofNat_toNat_of_lt hlt]
  have hltEnd : BitVec.ofNat 64 i < macEnd ↔ i < macStart.toNat + macSize.toNat := by
    rw [BitVec.lt_def, ofNat_toNat_of_lt hlt, hend]
  have hpos := toNat_pos hmac
  have hinMac : (st.inMac ||| constantTimeEq (BitVec.ofNat 64 i) macStart) &&&
      constantTimeLt (BitVec.ofNat 64 i) macEnd
      = mask 64 (decide (macStart.toNat < i + 1 ∧ i + 1 ≤ macStart.toNat + macSize.toNat)) := by
    rw [h.inMac, constantTimeEq_eq, constantTimeLt_eq, mask_or_mask, mask_and_mask]
    congr 1
    simp only [heq, hltEnd]
    grind
  refine ⟨hinMac, ?_, ?_, fun d hd => ?_⟩
  · show st.rotateOffset ||| (st.j &&& constantTimeEq (BitVec.ofNat 64 i) macStart) = _
    rw [h.rotateOffset, h.j, constantTimeEq_eq, and_mask]
    simp only [heq]
    rcases Nat.lt_trichotomy i macStart.toNat with hcmp | rfl | hcmp
    · simp [show ¬macStart.toNat < i by omega, show ¬macStart.toNat < i + 1 by omega,
        show i ≠ macStart.toNat by omega]
    · simp
    · simp [hcmp, show macStart.toNat < i + 1 by omega, show i ≠ macStart.toNat by omega]
  · show (st.j + 1) &&& constantTimeLt (st.j + 1) macSize = _
    rw [h.j, next_offset hmac, Nat.sub_add_comm hi]
  show (st.rotatedMac.modify st.j.toNat _)[_]? = _
  have hj : st.j.toNat = (i - start) % macSize.toNat := by
    rw [h.j, ofNat_toNat_of_lt (Nat.lt_trans (Nat.mod_lt _ hpos) macSize.isLt)]
  rw [hinMac, getElem?_modify, h.bytes d hd, hj]
  simp only [or_byte, Option.map_eq_map, Option.map_some, Option.some.injEq]
  by_cases hin : macStart.toNat ≤ i ∧ i < macStart.toNat + macSize.toNat
  · -- byte `i` is byte `i - macStart` of the MAC
    have hpos : (i - start) % macSize.toNat = (macStart.toNat - start + d) % macSize.toNat
        ↔ i = macStart.toNat + d := by
      have hi : i - start = macStart.toNat - start + (i - macStart.toNat) := by omega
      rw [hi]
      refine ⟨fun heq => ?_, fun heq => by rw [heq, Nat.add_sub_cancel_left]⟩
      have := add_mod_inj (by omega) hd heq
      omega
    have hwindow : macStart.toNat < i + 1 ∧ i + 1 ≤ macStart.toNat + macSize.toNat := by omega
    simp only [hpos, hwindow, and_self, decide_true, if_true]
    by_cases heq : i = macStart.toNat + d
    · rw [if_pos heq, if_neg (by omega), if_pos (by omega), ← heq]
      exact BitVec.zero_or
    · rw [if_neg heq]
      exact if_congr (by omega) rfl rfl
  · have hwindow : ¬(macStart.toNat < i + 1 ∧ i + 1 ≤ macStart.toNat + macSize.toNat) := by omega
    simp only [hwindow, decide_false, Bool.false_eq_true, if_false, BitVec.ofNat_eq_ofNat,
      BitVec.or_zero, ite_self]
    exact if_congr (by omega) rfl rfl

theorem Scanned.foldl (h : Scanned recdata start macStart.toNat macSize.toNat i st)
    (hmac : macSize ≠ 0) (hend : macEnd.toNat = macStart.toNat + macSize.toNat)
    (hstart : start ≤ macStart.toNat) (hi : start ≤ i) (hlt : i + n ≤ 2 ^ 64) :
    Scanned recdata start macStart.toNat macSize.toNat (i + n)
      ((List.range' i n).foldl (QuicTls.scanStep recdata macStart macEnd macSize) st) := by
  induction n generalizing i st with
  | zero => exact h
  | succ n ih =>
    rw [range'_succ, ← Nat.succ_add_eq_add_succ]
    exact ih (h.scanStep hmac hend hstart hi (by omega)) (by omega) (by omega)

theorem scanned_start {macStart macSize : Nat} (stack : Nat → BitVec 8) (hstart : start ≤ macStart)
    (hpos : 0 < macSize) (hmax : macSize ≤ evpMaxMdSize) :
    Scanned recdata start macStart macSize start
      ⟨0, 0, 0, (List.range evpMaxMdSize).map fun i => if i < macSize then 0 else stack i⟩ := by
  have hnot : ¬macStart < start := Nat.not_lt.2 hstart
  refine ⟨by simp [hnot], by simp [hnot], by simp, fun d _ => ?_⟩
  have hlt := Nat.mod_lt (macStart - start + d) hpos
  rw [getElem?_map, getElem?_range (by omega), if_neg (by omega)]
  simp [hlt]

/-- After the loop, byte `d` of the MAC is `d` places after the offset. -/
theorem scanMac_spec (env : PadEnv) (hmac : macSize ≠ 0) (hmax : macSize.toNat ≤ 64)
    (hfit : macSize.toNat ≤ reclen.toNat) (hle : reclen.toNat ≤ origreclen.toNat)
    (hwindow : origreclen.toNat ≤ reclen.toNat + 256) :
    let st := scanMac env origreclen recdata (reclen - macSize) reclen macSize
    ∃ r < macSize.toNat, st.rotateOffset = BitVec.ofNat 64 r ∧
      ∀ d < macSize.toNat, st.rotatedMac[(r + d) % macSize.toNat]?
        = some (recdata.getD (reclen.toNat - macSize.toNat + d) 0) := by
  have hpos := toNat_pos hmac
  have hsub : (reclen - macSize).toNat = reclen.toNat - macSize.toNat := by
    rw [toNat_sub_eq, if_neg (by omega)]
  have hoverhead : (macSize + 255 + 1).toNat = macSize.toNat + 256 := by
    simp only [BitVec.toNat_add, BitVec.ofNat_eq_ofNat, BitVec.toNat_ofNat]
    omega
  unfold scanMac
  generalize hscan : (if macSize + 255 + 1 < origreclen then origreclen - (macSize + 255 + 1)
    else 0) = scanStart
  have hstart : scanStart.toNat ≤ reclen.toNat - macSize.toNat := by
    rw [← hscan]
    split
    · rename_i hlt
      rw [BitVec.lt_def] at hlt
      rw [toNat_sub_eq, if_neg (by omega)]
      omega
    · exact Nat.zero_le _
  have hinit : Scanned recdata scanStart.toNat (reclen - macSize).toNat macSize.toNat
      scanStart.toNat ⟨0, 0, 0, _⟩ := scanned_start env.stack (by omega) hpos hmax
  have h := hinit.foldl (n := origreclen.toNat - scanStart.toNat) hmac
    (show reclen.toNat = _ by omega) (by omega) (Nat.le_refl _) (by omega)
  refine ⟨_, Nat.mod_lt _ hpos, h.rotateOffset.trans (if_pos (by omega)), fun d hd => ?_⟩
  rw [Nat.mod_add_mod, h.bytes d hd, if_pos (by omega), hsub]

/-- Of the two loads, the one at the offset is selected. -/
theorem select_loads (rotatedMac : List (BitVec 8)) (hr : r < 64) :
    constantTimeSelect8
        (constantTimeEq8 ((BitVec.ofNat 64 r &&& ~~~32).setWidth 32)
          ((BitVec.ofNat 64 r).setWidth 32))
        (rotatedMac.getD (BitVec.ofNat 64 r &&& ~~~32).toNat 0)
        (rotatedMac.getD (BitVec.ofNat 64 r ||| 32).toNat 0)
      = rotatedMac.getD r 0 := by
  have h : ∀ r < 64,
      if (BitVec.ofNat 64 r &&& ~~~32).setWidth 32 = (BitVec.ofNat 64 r).setWidth 32 then
        (BitVec.ofNat 64 r &&& ~~~32).toNat = r
      else (BitVec.ofNat 64 r ||| 32).toNat = r := by
    decide
  have := h r hr
  rw [constantTimeEq8_eq (by decide), constantTimeSelect8_mask]
  split_ifs at this with heq
  · simp only [heq, decide_true, if_true, this]
  · simp only [heq, decide_false, Bool.false_eq_true, if_false, this]

/-- The loop puts the bytes in order, or random bytes when the padding is wrong. -/
theorem foldl_rotateStep {rotatedMac : List (BitVec 8)} (c : Bool) (randmac mac : Nat → BitVec 8)
    (hmac : macSize ≠ 0) (hmax : macSize.toNat ≤ 64) (hr : r < macSize.toNat)
    (hn : n ≤ macSize.toNat)
    (hbytes : ∀ d < macSize.toNat, rotatedMac[(r + d) % macSize.toNat]? = some (mac d)) :
    (List.range n).foldl (rotateStep rotatedMac macSize (mask 64 c) randmac) (BitVec.ofNat 64 r, [])
      = (BitVec.ofNat 64 ((r + n) % macSize.toNat),
        (List.range n).map fun i => if c then mac i else randmac i) := by
  induction n with
  | zero => simp [Nat.mod_eq_of_lt hr]
  | succ n ih =>
    have hlt := Nat.mod_lt (r + n) (Nat.zero_lt_of_lt hr)
    have hgood : (mask 64 c &&& 0xff).setWidth 8 = mask 8 c := by
      cases c <;> decide
    rw [range_succ, foldl_append, ih (by omega), foldl_cons, map_append]
    unfold rotateStep
    dsimp only
    rw [next_offset hmac, select_loads _ (by omega), hgood, constantTimeSelect8_mask,
      getD_eq_getElem?_getD, hbytes n (by omega)]
    rfl

/-- The MAC is copied out, or a random one if the padding is bad. -/
theorem ssl3CbcCopyMac_eq (c : Bool) (hrand : env.rand = some randmac) (hmalloc : env.malloc = true)
    (hblock : blockSize ≠ 1) (hmac : macSize ≠ 0) (hmax : macSize.toNat ≤ 64)
    (hfit : macSize.toNat ≤ reclen.toNat) (hle : reclen.toNat ≤ origreclen.toNat)
    (hwindow : origreclen.toNat ≤ reclen.toNat + 256) :
    ssl3CbcCopyMac env reclen origreclen recdata true blockSize macSize (mask 64 c) =
      ⟨true, reclen - macSize, some ((List.range macSize.toNat).map fun i =>
        if c then recdata.getD (reclen.toNat - macSize.toNat + i) 0 else randmac i),
        some true⟩ := by
  obtain ⟨r, hr, hoff, hbytes⟩ := @scanMac_spec recdata _ _ _ env hmac hmax hfit hle hwindow
  have hassert : macSize ≤ origreclen ∧ macSize ≤ BitVec.ofNat 64 evpMaxMdSize :=
    ⟨BitVec.le_def.2 (by omega), BitVec.le_def.2 hmax⟩
  unfold ssl3CbcCopyMac
  rw [hrand, hmalloc]
  dsimp only
  rw [if_neg (not_not.2 hassert), if_neg hmac, if_neg hblock, hoff,
    foldl_rotateStep c randmac _ hmac hmax hr (Nat.le_refl _) hbytes]
  rfl

/-! ### Records -/

/-- The value of the last byte of a record. -/
def paddingLength (recdata : List (BitVec 8)) : Nat := (recdata.getD (recdata.length - 1) 0).toNat

/-- The record ends with a MAC and TLS padding: the padding bytes are all the same. -/
def TlsPadding (recdata : List (BitVec 8)) (macSize : Nat) : Prop :=
  paddingLength recdata + 1 + macSize ≤ recdata.length ∧
  ∀ b ∈ recdata.drop (recdata.length - (paddingLength recdata + 1)), b.toNat = paddingLength recdata

/-- The record ends with a MAC and SSLv3 padding: it is not longer than a block. -/
def Ssl3Padding (recdata : List (BitVec 8)) (blockSize macSize : Nat) : Prop :=
  paddingLength recdata + 1 ≤ blockSize ∧ paddingLength recdata + 1 + macSize ≤ recdata.length

instance (recdata : List (BitVec 8)) (macSize : Nat) : Decidable (TlsPadding recdata macSize) :=
  inferInstanceAs (Decidable (_ ∧ _))

/-- Padding and MAC have been removed from the record when the padding is good. Otherwise only the
MAC has, and in its place random bytes are returned. Without a MAC bad padding is an error, and
`*mac` is not set. -/
structure PadResult.Removed (recdata : List (BitVec 8)) (macSize : Nat) (randmac : Nat → BitVec 8)
    (valid : Prop) (r : PadResult) : Prop where
  good : valid → r.ret = true ∧
    r.reclen.toNat = recdata.length - paddingLength recdata - 1 - macSize ∧
    (0 < macSize → r.mac
      = some ((recdata.drop (recdata.length - paddingLength recdata - 1 - macSize)).take macSize))
  bad : ¬valid → r.ret = decide (0 < macSize) ∧ r.reclen.toNat = recdata.length - macSize ∧
    (0 < macSize → r.mac = some ((List.range macSize).map randmac))
  noMac : macSize = 0 → r.mac = none

theorem map_getD_eq (h : m + k ≤ recdata.length) :
    ((List.range k).map fun i => recdata.getD (m + i) 0) = (recdata.drop m).take k := by
  apply ext_getElem
  · simp
    omega
  · intro i hi _
    simp at hi
    simp [getElem?_eq_getElem (show m + i < recdata.length by omega)]

theorem toNat_sub_one {n : SizeT} (hn : 0 < n.toNat) : (n - 1).toNat = n.toNat - 1 := by
  have hone : (1 : SizeT).toNat = 1 := rfl
  rw [toNat_sub_eq, hone, if_neg (by omega)]

theorem toNat_paddingLength {n : SizeT} (hlen : recdata.length = n.toNat) (hn : 0 < n.toNat) :
    ((recdata.getD (n - 1).toNat 0).setWidth 64 + 1 : SizeT).toNat = paddingLength recdata + 1 ∧
    ((recdata.getD (n - 1).toNat 0).setWidth 64 : SizeT).toNat = paddingLength recdata := by
  rw [toNat_sub_one hn, ← hlen, paddingLength]
  simp only [BitVec.toNat_add, BitVec.toNat_setWidth, BitVec.ofNat_eq_ofNat, BitVec.toNat_ofNat]
  omega

/-- What is left when the padding and the MAC have been removed. -/
theorem removed_ssl3CbcCopyMac {valid : Prop} {n : SizeT} {c : Bool}
    (hlen : recdata.length = n.toNat) (hrand : env.rand = some randmac)
    (hmalloc : env.malloc = true) (hblock : blockSize ≠ 1) (hmax : macSize.toNat ≤ 64)
    (hn : macSize.toNat + 1 ≤ n.toNat) (hc : c = true ↔ valid)
    (hfit : valid → paddingLength recdata + 1 + macSize.toNat ≤ recdata.length) :
    (ssl3CbcCopyMac env (n - (mask 64 c &&& ((recdata.getD (n - 1).toNat 0).setWidth 64 + 1))) n
      recdata true blockSize macSize (mask 64 c)).Removed recdata macSize.toNat randmac valid := by
  obtain ⟨hone, hp⟩ := toNat_paddingLength hlen (by omega)
  have hplt : paddingLength recdata < 256 := (recdata.getD (recdata.length - 1) 0).isLt
  have hreclen : (n - (mask 64 c &&& ((recdata.getD (n - 1).toNat 0).setWidth 64 + 1))).toNat
      = if c then recdata.length - (paddingLength recdata + 1) else recdata.length := by
    rw [mask_and]
    cases c with
    | false => simp [hlen]
    | true =>
      have := hfit (hc.1 rfl)
      simp only [if_true]
      rw [toNat_sub_eq, hone, if_neg (by omega), hlen]
  generalize n - (mask 64 c &&& ((recdata.getD (n - 1).toNat 0).setWidth 64 + 1)) = reclen at *
  by_cases hmac : macSize = 0
  · have hres : ssl3CbcCopyMac env reclen n recdata true blockSize macSize (mask 64 c)
        = ⟨mask 64 c != 0, reclen, none, none⟩ := by
      subst hmac
      simp [ssl3CbcCopyMac]
    rw [hres, hmac]
    refine ⟨fun h => ?_, fun h => ?_, fun _ => rfl⟩
    · rw [hc.2 h] at hreclen ⊢
      exact ⟨rfl, hreclen, nofun⟩
    · rw [Bool.eq_false_iff.2 (mt hc.1 h)] at hreclen ⊢
      exact ⟨rfl, hreclen, nofun⟩
  have hpos := toNat_pos hmac
  have hle : macSize.toNat ≤ reclen.toNat ∧ reclen.toNat ≤ n.toNat ∧
      n.toNat ≤ reclen.toNat + 256 := by
    rw [hreclen]
    cases c with
    | false => simp; omega
    | true =>
      have := hfit (hc.1 rfl)
      simp; omega
  have hsub : (reclen - macSize).toNat = reclen.toNat - macSize.toNat := by
    rw [toNat_sub_eq, if_neg (by omega)]
  rw [ssl3CbcCopyMac_eq c hrand hmalloc hblock hmac hmax hle.1 hle.2.1 hle.2.2]
  refine ⟨fun h => ?_, fun h => ?_, fun h => absurd h hpos.ne'⟩
  · rw [hc.2 h] at hreclen ⊢
    simp only [if_true] at hreclen ⊢
    rw [hreclen]
    refine ⟨trivial, by omega, fun _ => ?_⟩
    rw [map_getD_eq (by omega), Nat.sub_sub _ (paddingLength recdata) 1]
  · rw [Bool.eq_false_iff.2 (mt hc.1 h)] at hreclen ⊢
    refine ⟨(decide_eq_true hpos).symm, hsub.trans (by rw [hreclen]; rfl), fun _ => rfl⟩

/-- The padding bytes, counted from the end of the record. -/
theorem forall_padding_iff {macSize : Nat}
    (h : paddingLength recdata + 1 + macSize ≤ recdata.length) :
    (∀ b ∈ recdata.drop (recdata.length - (paddingLength recdata + 1)),
      b.toNat = paddingLength recdata) ↔
    ∀ i ≤ paddingLength recdata, (recdata.getD (recdata.length - 1 - i) 0).toNat
      = paddingLength recdata := by
  constructor
  · intro hall i hi
    refine hall _ (mem_of_getElem? (i := paddingLength recdata - i) ?_)
    rw [getElem?_drop, getD_eq_getElem?_getD]
    rw [show recdata.length - (paddingLength recdata + 1) + (paddingLength recdata - i)
      = recdata.length - 1 - i by omega, getElem?_eq_getElem (by omega), Option.getD_some]
  · intro hall b hb
    obtain ⟨t, ht, rfl⟩ := getElem_of_mem hb
    rw [length_drop] at ht
    have := hall (paddingLength recdata - t) (Nat.sub_le ..)
    rwa [getD_eq_getElem?_getD, show recdata.length - 1 - (paddingLength recdata - t)
      = recdata.length - (paddingLength recdata + 1) + t by omega,
      getElem?_eq_getElem (by omega), ← getElem_drop] at this

/-- The loop over the padding computes the padding condition. -/
theorem padding_good {n : SizeT} (hlen : recdata.length = n.toNat) (hmax : macSize.toNat ≤ 64)
    (hn : macSize.toNat + 1 ≤ n.toNat) :
    let p : SizeT := (recdata.getD (n - 1).toNat 0).setWidth 64
    let toCheck : SizeT := if n < 256 then n else 256
    ((List.range toCheck.toNat).foldl (checkStep recdata n p)
        (constantTimeGe n (1 + macSize + p))).setWidth 8 = BitVec.allOnes 8 ↔
      TlsPadding recdata macSize.toNat := by
  obtain ⟨-, hp⟩ := toNat_paddingLength hlen (by omega)
  have hone : (1 : SizeT).toNat = 1 := rfl
  have hbyte : (recdata.getD (n - 1).toNat 0).toNat = paddingLength recdata := by
    rw [toNat_sub_one (by omega), ← hlen]
    rfl
  have hcheck : (if n < 256 then n else 256 : SizeT).toNat = min n.toNat 256 := by
    split_ifs with hlt
    · exact (Nat.min_eq_left (Nat.le_of_lt (BitVec.lt_def.1 hlt))).symm
    · exact (Nat.min_eq_right (Nat.le_of_not_lt (mt BitVec.lt_def.2 hlt))).symm
  have hsum (p : SizeT) (hp : p.toNat = paddingLength recdata) :
      1 + macSize + p ≤ n ↔ paddingLength recdata + 1 + macSize.toNat ≤ recdata.length := by
    rw [BitVec.le_def, BitVec.toNat_add, BitVec.toNat_add, hp]
    omega
  dsimp only
  rw [hcheck, checkPadding_setWidth _ _ _ (Nat.min_le_right ..), constantTimeGe_eq,
    setWidth_mask _ (by decide), TlsPadding, hbyte]
  simp only [hsum _ hp]
  by_cases hfit : paddingLength recdata + 1 + macSize.toNat ≤ recdata.length
  · rw [forall_padding_iff hfit]
    simp only [hfit, decide_true, mask_true, true_and]
    have hindex (i : Nat) (hi : i ≤ paddingLength recdata) :
        (n - 1 - BitVec.ofNat 64 i).toNat = recdata.length - 1 - i := by
      rw [toNat_sub_eq, ofNat_toNat_of_lt (by omega), toNat_sub_one (by omega), ← hlen,
        if_neg (by omega)]
    refine ⟨fun h i hi => ?_, fun h i _ hi => ?_⟩
    · rw [← hindex i hi, h i (by omega) hi, hbyte]
    · rw [BitVec.toNat_eq, hindex i hi, h i hi, hbyte]
  · simp only [hfit, false_and, iff_false, not_and]
    intro h
    exact absurd h (by decide)

/-- Removing the padding of a record of `n` bytes. -/
theorem cbc_remove_padding {env : PadEnv} {randmac : Nat → BitVec 8} {n blockSize macSize : SizeT}
    (hlen : recdata.length = n.toNat) (hrand : env.rand = some randmac)
    (hmalloc : env.malloc = true) (hblock : blockSize ≠ 1) (hmax : macSize.toNat ≤ 64)
    (hn : macSize.toNat + 1 ≤ n.toNat) :
    (tls1CbcRemovePaddingAndMac env n n recdata true blockSize macSize false).Removed recdata
        macSize.toNat randmac (TlsPadding recdata macSize.toNat) ∧
    (ssl3CbcRemovePaddingAndMac env n n recdata true blockSize macSize).Removed recdata
        macSize.toNat randmac (Ssl3Padding recdata blockSize.toNat macSize.toNat) := by
  have hoverhead : ¬n < 1 + macSize := by
    have hone : (1 : SizeT).toNat = 1 := rfl
    rw [BitVec.lt_def, BitVec.toNat_add]
    omega
  constructor
  · unfold tls1CbcRemovePaddingAndMac
    rw [if_neg hblock, if_neg hoverhead, if_neg hblock]
    dsimp only
    rw [constantTimeEq_ff]
    refine removed_ssl3CbcCopyMac hlen hrand hmalloc hblock hmax hn ?_ fun h => h.1
    exact decide_eq_true_iff.trans (padding_good hlen hmax hn)
  · unfold ssl3CbcRemovePaddingAndMac
    dsimp only
    rw [if_neg hoverhead, constantTimeGe_eq, constantTimeGe_eq, mask_and_mask]
    refine removed_ssl3CbcCopyMac hlen hrand hmalloc hblock hmax hn ?_ fun h => h.2
    obtain ⟨hsucc, hp⟩ := toNat_paddingLength hlen (by omega)
    have hplt : paddingLength recdata < 256 := (recdata.getD (recdata.length - 1) 0).isLt
    have hone : (1 : SizeT).toNat = 1 := rfl
    rw [Bool.and_eq_true, decide_eq_true_iff, decide_eq_true_iff, and_comm, BitVec.le_def, hsucc,
      BitVec.le_def, BitVec.toNat_add, BitVec.toNat_add, hone]
    exact and_congr_right fun _ => by omega

/-- A byte of data, a MAC of one byte and two bytes of padding. -/
theorem cbc_remove_padding_short :
    let r := tls1CbcRemovePaddingAndMac ⟨some fun _ => 0, true, fun _ => 0⟩ 4 4 [7, 9, 1, 1] true 16
      1 false
    r.ret = true ∧ r.reclen.toNat = 1 ∧ r.mac = some [9] := by
  obtain ⟨hret, hlen, hmac⟩ := (@cbc_remove_padding [7, 9, 1, 1] ⟨some fun _ => 0, true, fun _ => 0⟩
    (fun _ => 0) 4 16 1 rfl rfl rfl (by decide) (by decide) (by decide)).1.good (by decide)
  exact ⟨hret, hlen, hmac (by decide)⟩

/-- Without a MAC, bad padding makes the call fail. -/
theorem cbc_remove_padding_no_mac :
    (tls1CbcRemovePaddingAndMac ⟨some fun _ => 0, true, fun _ => 0⟩ 1 1 [5] true 16 0 false).ret
      = false := by
  decide

end QuicTls
