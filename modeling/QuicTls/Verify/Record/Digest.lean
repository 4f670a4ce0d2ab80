import QuicTls.Ssl.Record.Cbc
import QuicTls.Verify.ConstantTime

/-!
# The constant-time MAC is HMAC

The blocks that `ssl3_cbc_digest_record` builds with masks are the blocks of the padded message, up
to the block that has the length. The state after that one is the inner hash (`cbc_digest_is_hmac`).
-/

namespace QuicTls

open MerkleDamgard CbcMdParams List

/-- The block and length sizes of the hashes. -/
theorem CbcMd.params_cases (md : CbcMd) :
    md.params.mdBlockSize = 64 ∧ md.params.mdLengthSize = 8 ∧ 16 ≤ md.params.mdSize ∧
      md.params.mdSize ≤ 64 ∧ md.params.rawSize ≤ 64 ∨
    md.params.mdBlockSize = 128 ∧ md.params.mdLengthSize = 16 ∧ 48 ≤ md.params.mdSize ∧
      md.params.mdSize ≤ 64 ∧ md.params.rawSize ≤ 64 := by
  cases md <;> decide

/-- What the offsets of a TLS record are: the data ends at byte `c` of block `indexA`, and the
length is in block `indexB`. -/
structure CbcSizes.Tls (md : CbcMdParams) (dataSize : Nat) (s : CbcSizes) : Prop where
  headerLength : s.headerLength = 13
  macEnd : 13 + dataSize = md.mdBlockSize * s.indexA + s.c
  c_lt : s.c < md.mdBlockSize
  indexB : s.indexB = if s.c + md.mdLengthSize < md.mdBlockSize then s.indexA else s.indexA + 1
  last : s.indexB + 1 = (13 + dataSize + md.mdLengthSize) / md.mdBlockSize + 1
  starting : md.mdBlockSize * s.numStartingBlocks ≤ 13 + dataSize
  starting_le : s.numStartingBlocks ≤ s.indexB
  variance : s.indexB ≤ s.numStartingBlocks + s.varianceBlocks
  variance_lt : s.numStartingBlocks + s.varianceBlocks < 2 ^ 32
  bits : s.bits = 8 * (md.mdBlockSize * 1 + (13 + dataSize))
  bits_lt : s.bits < 2 ^ 32
  indexB_lt : s.indexB < 2 ^ 32

/-- The sizes of a record whose padding has at most 256 bytes. -/
theorem cbcSizes_tls (md : CbcMd) {dataSize total secretLength : Nat} (htotal : total < 2 ^ 20)
    (hlo : dataSize + md.params.mdSize + 1 ≤ total)
    (hhi : total ≤ dataSize + md.params.mdSize + 256) :
    (cbcSizes md.params dataSize total secretLength false).Tls md.params dataSize := by
  rcases md.params_cases with ⟨hB, hL, hmin, hmax, -⟩ | ⟨hB, hL, hmin, hmax, -⟩
  all_goals
    refine ⟨rfl, ?_, ?_, ?_, ?_, ?_, ?_, ?_, ?_, ?_, ?_, ?_⟩
    all_goals
      simp only [cbcSizes, hB, Bool.false_eq_true, if_false]
      first | omega | (split <;> omega)

/-- The length field of the hash. -/
theorem cbcLengthBytes_eq (md : CbcMd) {bits n : Nat} (hbits : bits = 8 * n)
    (hlt : bits < 2 ^ 32) : cbcLengthBytes md.params bits = md.params.lengthField n := by
  have hdiv : bits / 256 ^ 4 = 0 := Nat.div_eq_of_lt (by omega)
  have hbyte (k : Nat) : BitVec.ofNat 8 (bits >>> k) = (UInt8.ofNat (bits / 2 ^ k)).toBitVec := by
    rw [Nat.shiftRight_eq_div_pow]
    rfl
  have hlow : BigEndian.encode 4 bits = [UInt8.ofNat (bits / 2 ^ 24), UInt8.ofNat (bits / 2 ^ 16),
      UInt8.ofNat (bits / 2 ^ 8), UInt8.ofNat (bits / 2 ^ 0)] := by
    simp [BigEndian.encode, Nat.div_div_eq_div_mul]
  have hhigh (k : Nat) : (BigEndian.encode (k + 4) bits).map UInt8.toBitVec =
      List.replicate k (0 : BitVec 8) ++ [BitVec.ofNat 8 (bits >>> 24),
        BitVec.ofNat 8 (bits >>> 16), BitVec.ofNat 8 (bits >>> 8),
        BitVec.ofNat 8 (bits >>> 0)] := by
    rw [BigEndian.encode_add, hdiv, BigEndian.encode_zero, hlow, map_append, map_replicate]
    simp only [hbyte]
    rfl
  unfold lengthField cbcLengthBytes
  rw [← hbits]
  cases md with
  | md5 =>
    have := hhigh 4
    dsimp only [CbcMd.params]
    rw [this]
    rfl
  | _ => exact (hhigh _).symm

/-! ### The bytes of the last blocks -/

variable {md : CbcMdParams} {s : CbcSizes} {header data lengthBytes : List (BitVec 8)}
  {j i dataSize : Nat} {secret : List (BitVec 8)}

theorem constantTimeGe8_ofNat {c : Nat} (hj : j < 2 ^ 64) (hc : c < 2 ^ 64) :
    constantTimeGe8 (BitVec.ofNat 64 j) (BitVec.ofNat 64 c) = mask 8 (decide (c ≤ j)) := by
  rw [constantTimeGe8_eq]
  simp only [BitVec.le_def, BitVec.toNat_ofNat, Nat.mod_eq_of_lt hj, Nat.mod_eq_of_lt hc]

theorem constantTimeEq8_ofNat (hi : i < 2 ^ 64) (hj : j < 2 ^ 64) :
    constantTimeEq8 (BitVec.ofNat 64 i) (BitVec.ofNat 64 j) = mask 8 (decide (i = j)) := by
  rw [constantTimeEq8_eq (by decide)]
  simp only [BitVec.toNat_eq, BitVec.toNat_ofNat, Nat.mod_eq_of_lt hi, Nat.mod_eq_of_lt hj]

theorem cbcByte_eq (a b : Bool) (k : Nat) (hj : j < 2 ^ 32) (hc : s.c < 2 ^ 32) :
    cbcByte s header data md lengthBytes (mask 8 a) (mask 8 b) k j =
      if md.mdBlockSize - md.mdLengthSize ≤ j ∧ b = true then
        lengthBytes.getD (j - (md.mdBlockSize - md.mdLengthSize)) 0
      else if b = true ∧ a = false then 0
      else if a = true ∧ s.c + 1 ≤ j then 0
      else if a = true ∧ s.c ≤ j then 0x80
      else if k < s.headerLength then header.getD k 0
      else if k < data.length + s.headerLength then data.getD (k - s.headerLength) 0
      else 0 := by
  unfold cbcByte
  rw [constantTimeGe8_ofNat (by omega) (by omega), constantTimeGe8_ofNat (by omega) (by omega)]
  simp only [mask_and_mask, constantTimeSelect8_mask, not_mask, mask_or_mask]
  simp only [and_mask]
  grind

theorem getElem?_message {k : Nat} (hheader : header.length = 13) (hdata : dataSize ≤ data.length)
    (hk : k < 13 + dataSize) :
    (header ++ data.take dataSize)[k]?
      = some (if k < 13 then header.getD k 0
        else if k < data.length + 13 then data.getD (k - 13) 0 else 0) := by
  rcases Nat.lt_or_ge k 13 with hlt | hge
  · rw [getElem?_append_left (by omega), if_pos hlt, getD_eq_getElem?_getD,
      getElem?_eq_getElem (by omega), Option.getD_some]
  · rw [getElem?_append_right (by omega), getElem?_take_of_lt (by omega),
      if_neg (by omega), if_pos (by omega), getD_eq_getElem?_getD, hheader,
      getElem?_eq_getElem (by omega), Option.getD_some]

/-- What is known about a TLS record and its offsets. -/
structure CbcSizes.TlsRecord (md : CbcMdParams) (header data : List (BitVec 8)) (dataSize : Nat)
    (s : CbcSizes) : Prop extends s.Tls md dataSize where
  header : header.length = 13
  data : dataSize ≤ data.length
  header_le : 13 ≤ md.mdBlockSize
  raw_le : md.rawSize ≤ md.mdBlockSize

theorem CbcSizes.TlsRecord.length_message (hs : s.TlsRecord md header data dataSize) :
    (header ++ data.take dataSize).length = 13 + dataSize := by
  rw [length_append, length_take, hs.header, Nat.min_eq_left hs.data]

variable {σ : Type} (f : Compression σ md.rawSize)

/-- The message with its padding, as it follows the block of the masked key. -/
def paddedMessage (header data : List (BitVec 8)) (dataSize : Nat) : List (BitVec 8) :=
  header ++ data.take dataSize
    ++ (hash f).padding (md.mdBlockSize * 1 + (13 + dataSize))

variable (hs : s.TlsRecord md header data dataSize)
  (hlength : lengthBytes = md.lengthField (md.mdBlockSize * 1 + (13 + dataSize)))
include hs hlength

/-- Up to the one with the length, the blocks of the loop are the blocks of the padded message. -/
theorem cbcBlock_eq (hi : i ≤ s.indexB) :
    ((List.range md.mdBlockSize).map fun j =>
      cbcByte s header data md lengthBytes (mask 8 (decide (i = s.indexA)))
        (mask 8 (decide (i = s.indexB))) (md.mdBlockSize * i + j) j)
    = (hash f).block (paddedMessage f header data dataSize) i := by
  have hheader := hs.header
  have hdata := hs.data
  have hlen := hs.length_message
  obtain ⟨hhl, hend, hc, hib, hlast, -⟩ := hs.toTls
  refine ext_getElem? fun j => ?_
  rcases Nat.lt_or_ge j md.mdBlockSize with hj | hj
  · have hpad := (hash f).getElem?_append_padding (header ++ data.take dataSize) 1
      (md.mdBlockSize * i + j)
    rw [hlen] at hpad
    rw [getElem?_map, getElem?_range hj, Option.map_some, Hash.getElem?_block _ _ hj]
    refine Eq.trans ?_ hpad.symm
    have hnum : (hash f).numBlocks (13 + dataSize) = s.indexB + 1 := hlast.symm
    have hL := md.lengthSize_lt
    have hlb := md.length_lengthField (md.mdBlockSize * 1 + (13 + dataSize))
    rw [hnum, cbcByte_eq _ _ _ (by omega) (by omega), hhl]
    simp only [decide_eq_true_eq, decide_eq_false_iff_not]
    show _ = if _ then _ else if _ then some 0x80
      else if md.mdBlockSize * i + j < md.mdBlockSize * (s.indexB + 1) - md.mdLengthSize then some 0
      else (md.lengthField (md.mdBlockSize * 1 + (13 + dataSize)))[md.mdBlockSize * i + j -
        (md.mdBlockSize * (s.indexB + 1) - md.mdLengthSize)]?
    rw [Nat.mul_succ, ← hlength]
    rw [← hlength] at hlb
    -- where the byte is, in terms of the block and the offset in it
    have hmul {a b : Nat} (h : a < b) :
        md.mdBlockSize * a + md.mdBlockSize ≤ md.mdBlockSize * b := Nat.mul_le_mul_left _ h
    have hcmp : md.mdBlockSize * i + j < 13 + dataSize ↔ i < s.indexA ∨ i = s.indexA ∧ j < s.c := by
      rcases Nat.lt_trichotomy i s.indexA with h | rfl | h
      · have := hmul h
        omega
      · omega
      · have := hmul h
        omega
    have heq : md.mdBlockSize * i + j = 13 + dataSize ↔ i = s.indexA ∧ j = s.c := by
      rcases Nat.lt_trichotomy i s.indexA with h | rfl | h
      · omega
      · omega
      · have := hmul h
        omega
    have hlast : md.mdBlockSize * i + j
          < md.mdBlockSize * s.indexB + md.mdBlockSize - md.mdLengthSize ↔
        ¬(i = s.indexB ∧ md.mdBlockSize - md.mdLengthSize ≤ j) := by
      rcases Nat.eq_or_lt_of_le hi with rfl | h
      · omega
      · have := hmul h
        omega
    by_cases hlen : i = s.indexB ∧ md.mdBlockSize - md.mdLengthSize ≤ j
    · have hj : md.mdBlockSize * i + j
          - (md.mdBlockSize * s.indexB + md.mdBlockSize - md.mdLengthSize)
          = j - (md.mdBlockSize - md.mdLengthSize) := by
        rw [hlen.1]
        omega
      rw [if_pos hlen.symm, if_neg (by rw [hcmp]; split at hib <;> omega),
        if_neg (by rw [heq]; split at hib <;> omega), if_neg (by rw [hlast]; exact not_not.2 hlen),
        hj, getD_eq_getElem?_getD, getElem?_eq_getElem (by omega), Option.getD_some]
    rw [if_neg (mt And.symm hlen)]
    by_cases hbefore : i < s.indexA ∨ i = s.indexA ∧ j < s.c
    · rw [if_pos (hcmp.2 hbefore), getElem?_message hheader hdata (hcmp.2 hbefore),
        if_neg (by split at hib <;> omega), if_neg (by omega), if_neg (by omega)]
    simp only [hcmp, hlast, hlen, hbefore, not_false_eq_true, if_true, if_false]
    rcases Nat.eq_or_lt_of_le (show s.indexA ≤ i by omega) with rfl | hgt
    · grind
    · rw [if_pos (by split at hib <;> omega), if_neg (by omega)]
  · rw [getElem?_eq_none (by simpa using hj), Hash.block, getElem?_eq_none]
    rw [length_take]
    exact Nat.le_trans (Nat.min_le_left ..) hj

/-! ### The loop -/

/-- Before block `i`, the loop has absorbed the blocks before it, and the hash is in `mac_out` once
the block with the length has been absorbed. -/
structure CbcLoop.Absorbed (f : Compression σ md.rawSize) (s : CbcSizes) (st₀ : σ)
    (t : List (BitVec 8)) (i : Nat) (l : CbcLoop σ) : Prop where
  k : l.k = md.mdBlockSize * i
  st : i ≤ s.indexB + 1 → l.st = (hash f).absorb st₀ t i
  macOut : ∀ j < md.mdSize, l.macOut[j]? = some (if s.indexB < i then
    (f.finalRaw ((hash f).absorb st₀ t (s.indexB + 1))).getD j 0 else 0)

variable {f} {st₀ : σ} {l : CbcLoop σ}

/-- One round of the loop absorbs a block. -/
theorem CbcLoop.Absorbed.cbcStep
    (h : l.Absorbed f s st₀ (paddedMessage f header data dataSize) i) (hi : i < 2 ^ 64) :
    (cbcStep f s header data lengthBytes l i).Absorbed f s st₀
      (paddedMessage f header data dataSize) (i + 1) := by
  have hindexB := hs.indexB_lt
  have hindexA : s.indexA ≤ s.indexB := by
    rw [hs.indexB]
    split <;> omega
  unfold QuicTls.cbcStep
  rw [constantTimeEq8_ofNat hi (by omega), constantTimeEq8_ofNat hi (by omega), h.k]
  dsimp only
  have hst (hle : i ≤ s.indexB) := cbcBlock_eq f hs hlength hle
  generalize hblock : (List.range md.mdBlockSize).map _ = block at hst ⊢
  have hlen : block.length = md.mdBlockSize := by
    rw [← hblock, length_map, length_range]
  have hnext (hle : i ≤ s.indexB) :
      f.transform l.st block
        = (hash f).absorb st₀ (paddedMessage f header data dataSize) (i + 1) := by
    rw [Hash.absorb_succ, ← hst hle, h.st (by omega)]
    rfl
  refine ⟨(Nat.mul_succ ..).symm, fun hle => hnext (by omega), fun j hj => ?_⟩
  have hover : (overwrite block 0 (f.finalRaw (f.transform l.st block))).getD j 0
      = (f.finalRaw (f.transform l.st block)).getD j 0 := by
    have hlength := f.length_finalRaw (f.transform l.st block)
    have hraw := hs.raw_le
    have hmd := md.mdSize_le
    rw [getD_eq_getElem?_getD, getElem?_overwrite (by omega), if_pos (by omega), Nat.sub_zero,
      getD_eq_getElem?_getD]
  dsimp only
  rw [getElem?_mapIdx, h.macOut j hj, Option.map_some, if_pos hj, hover, and_mask]
  congr 1
  rcases Nat.lt_trichotomy i s.indexB with hlt | rfl | hgt
  · simp [Nat.lt_asymm hlt, Nat.ne_of_lt hlt, show ¬s.indexB < i + 1 by omega]
  · simp [hnext (Nat.le_refl _)]
  · simp [hgt, Nat.ne_of_gt hgt, Nat.lt_succ_of_lt hgt]

theorem CbcLoop.Absorbed.foldl {n : Nat}
    (h : l.Absorbed f s st₀ (paddedMessage f header data dataSize) i) (hi : i + n ≤ 2 ^ 64) :
    ((List.range' i n).foldl (QuicTls.cbcStep f s header data lengthBytes) l).Absorbed f s st₀
      (paddedMessage f header data dataSize) (i + n) := by
  induction n generalizing i l with
  | zero => exact h
  | succ n ih =>
    rw [range'_succ, ← Nat.succ_add_eq_add_succ]
    exact ih (h.cbcStep hs hlength (by omega)) (by omega)

omit hlength in
/-- The blocks before the loop are absorbed directly. -/
theorem cbcStartingBlocks_eq :
    cbcStartingBlocks f s header data false st₀ = some ((hash f).absorb st₀
      (paddedMessage f header data dataSize) s.numStartingBlocks) := by
  have hblock (i : Nat) (hi : i < s.numStartingBlocks) :
      (hash f).block (header ++ data) i
        = (hash f).block (paddedMessage f header data dataSize) i := by
    refine Hash.block_congr fun j hj => ?_
    have hlt : md.mdBlockSize * i + j < 13 + dataSize := by
      have hmul : md.mdBlockSize * i + md.mdBlockSize ≤ md.mdBlockSize * s.numStartingBlocks :=
        Nat.mul_le_mul_left _ hi
      have hstart := hs.starting
      have : j < md.mdBlockSize := hj
      omega
    have htake : header ++ data.take dataSize = (header ++ data).take (13 + dataSize) := by
      rw [← hs.header, take_length_add_append]
    show _ = (header ++ data.take dataSize ++ _)[md.mdBlockSize * i + j]?
    have hlen := hs.length_message
    refine Eq.trans ?_ (getElem?_append_left (by omega)).symm
    rw [htake, getElem?_take_of_lt hlt]
    rfl
  have hpos : 0 < md.mdBlockSize := Nat.zero_lt_of_lt md.lengthSize_lt
  have hle := hs.header_le
  rw [← Hash.absorb_congr hblock, cbcStartingBlocks]
  cases hn : s.numStartingBlocks with
  | zero => rfl
  | succ n =>
    have hfirst : (hash f).block (header ++ data) 0
        = header.take 13 ++ data.take (md.mdBlockSize - 13) := by
      show ((header ++ data).drop (md.mdBlockSize * 0)).take md.mdBlockSize = _
      rw [Nat.mul_zero, drop_zero, take_append, hs.header,
        take_of_length_le (by rw [hs.header]; exact hle),
        take_of_length_le (Nat.le_of_eq hs.header)]
    have hrest (m : Nat) : (List.range' 1 m).foldl (fun st i => f.transform st
          ((data.drop (md.mdBlockSize * i - 13)).take md.mdBlockSize))
        (f.transform st₀ (header.take 13 ++ data.take (md.mdBlockSize - 13)))
        = (hash f).absorb st₀ (header ++ data) (m + 1) := by
      induction m with
      | zero =>
        rw [Hash.absorb_succ, hfirst]
        rfl
      | succ m ih =>
        have hmul : md.mdBlockSize ≤ md.mdBlockSize * (m + 1) :=
          Nat.le_mul_of_pos_right _ m.succ_pos
        rw [range'_1_concat, foldl_append, ih, Hash.absorb_succ _ _ (m + 1), Nat.add_comm 1]
        show f.transform _ _ =
          f.transform _ (((header ++ data).drop (md.mdBlockSize * (m + 1))).take md.mdBlockSize)
        have hdrop : header.drop (md.mdBlockSize * (m + 1)) = [] :=
          drop_of_length_le (by rw [hs.header]; omega)
        rw [drop_append, hdrop, hs.header]
        rfl
    dsimp only
    rw [if_neg (Nat.mul_ne_zero hpos.ne' n.succ_ne_zero), if_neg Bool.false_ne_true,
      Nat.mul_div_cancel_left _ hpos, Nat.add_sub_cancel, hrest]

/-- What the loop leaves in `mac_out` is the inner hash. -/
theorem inner_digest {pad : List (BitVec 8)} (hpad : pad.length = md.mdBlockSize)
    (hmd : md.mdSize ≤ evpMaxMdSize) :
    ((List.range' s.numStartingBlocks (s.varianceBlocks + 1)).foldl
        (cbcStep f s header data lengthBytes)
        ⟨(hash f).absorb (f.transform f.init pad) (paddedMessage f header data dataSize)
          s.numStartingBlocks, md.mdBlockSize * s.numStartingBlocks,
          List.replicate evpMaxMdSize 0⟩).macOut.take md.mdSize
      = (hash f).digest (pad ++ (header ++ data.take dataSize)) := by
  have hlen := hs.length_message
  have hlast := hs.variance
  have hlt := hs.variance_lt
  have hstart := hs.starting_le
  have hinit : CbcLoop.Absorbed f s (f.transform f.init pad) (paddedMessage f header data dataSize)
      s.numStartingBlocks ⟨(hash f).absorb (f.transform f.init pad)
        (paddedMessage f header data dataSize) s.numStartingBlocks,
        md.mdBlockSize * s.numStartingBlocks, List.replicate evpMaxMdSize 0⟩ := by
    refine ⟨rfl, fun _ => rfl, fun j hj => ?_⟩
    rw [if_neg (by omega)]
    exact getElem?_replicate_of_lt (Nat.lt_of_lt_of_le hj hmd)
  have h := (hinit.foldl (n := s.varianceBlocks + 1) hs hlength (by omega)).macOut
  have hdigest := (hash f).digest_append (hpad.trans (Nat.mul_one _).symm)
    (header ++ data.take dataSize)
  rw [hlen, Hash.absorb_one (h := hash f) hpad] at hdigest
  have hnum : (hash f).numBlocks (13 + dataSize) = s.indexB + 1 := hs.last.symm
  rw [hdigest, hnum]
  show _ = (f.finalRaw ((hash f).absorb (f.transform f.init pad)
    (paddedMessage f header data dataSize) (s.indexB + 1))).take md.mdSize
  refine ext_getElem? fun j => ?_
  rcases Nat.lt_or_ge j md.mdSize with hj | hj
  · have hraw := f.length_finalRaw ((hash f).absorb (f.transform f.init pad)
      (paddedMessage f header data dataSize) (s.indexB + 1))
    have hle := md.mdSize_le
    rw [getElem?_take_of_lt hj, getElem?_take_of_lt hj, h j hj, if_pos (by omega),
      getD_eq_getElem?_getD, getElem?_eq_getElem (by omega), Option.getD_some]
  · rw [getElem?_eq_none (Nat.le_trans (length_take_le ..) hj),
      getElem?_eq_none (Nat.le_trans (length_take_le ..) hj)]

omit hs hlength

theorem hmacPad_eq (h : secret.length ≤ md.mdBlockSize) :
    hmacPad md secret
      = (secret ++ List.replicate (md.mdBlockSize - secret.length) 0).map (· ^^^ 0x36) := by
  rw [hmacPad, take_append, take_of_length_le h, take_replicate, Nat.min_eq_left (Nat.sub_le ..)]

theorem length_digest (m : List (BitVec 8)) : ((hash f).digest m).length = md.mdSize := by
  show (List.take md.mdSize (f.finalRaw _)).length = _
  rw [length_take, f.length_finalRaw, Nat.min_eq_left md.mdSize_le]

/-- With all allocations, the digest of the blocks is the HMAC. -/
theorem cbcDigestBlocks_eq (md : CbcMd) (f : Compression σ md.params.rawSize)
    (hs : s.TlsRecord md.params header data dataSize)
    (hsecret : secret.length ≤ md.params.mdBlockSize) :
    cbcDigestBlocks f ⟨true, true, true, true⟩ s header data secret false =
      ⟨true, some ((hash f).hmac (· ^^^ 0x36) (· ^^^ 0x5c) secret
        (header ++ data.take dataSize)), some md.params.mdSize⟩ := by
  have hcases := md.params_cases
  have hpad : (hmacPad md.params secret).length = md.params.mdBlockSize := by
    rw [hmacPad_eq hsecret, length_map, length_append, length_replicate]
    omega
  have hinner := inner_digest (f := f) hs (cbcLengthBytes_eq md hs.bits hs.bits_lt) hpad
    (by unfold evpMaxMdSize; omega)
  have houter : (hmacPad md.params secret).map (· ^^^ 0x6a)
      = (secret ++ List.replicate (md.params.mdBlockSize - secret.length) 0).map (· ^^^ 0x5c) := by
    rw [hmacPad_eq hsecret, map_map]
    refine map_congr_left fun b _ => ?_
    show b ^^^ 0x36 ^^^ 0x6a = b ^^^ 0x5c
    rw [BitVec.xor_assoc]
    rfl
  unfold cbcDigestBlocks
  dsimp only
  rw [if_neg Bool.false_ne_true, cbcStartingBlocks_eq hs]
  dsimp only
  rw [hinner, length_digest, houter, hmacPad_eq hsecret]
  rfl

/-- The MAC of the record is HMAC of the header and of the data, for every hash. -/
theorem cbcDigestRecord_eq (md : CbcMd) (f : Compression σ md.params.rawSize)
    (hheader : header.length = 13) (hdata : data.length < 2 ^ 20)
    (hsecret : secret.length ≤ md.params.mdBlockSize)
    (hlo : dataSize + md.params.mdSize + 1 ≤ data.length)
    (hhi : data.length ≤ dataSize + md.params.mdSize + 256) :
    cbcDigestRecord f ⟨true, true, true, true⟩ header data dataSize secret false =
      ⟨true, some ((hash f).hmac (· ^^^ 0x36) (· ^^^ 0x5c) secret
        (header ++ data.take dataSize)), some md.params.mdSize⟩ := by
  have hcases := md.params_cases
  have hassert : md.params.mdLengthSize ≤ maxHashBitCountBytes ∧
      md.params.mdBlockSize ≤ maxHashBlockSize ∧ md.params.mdSize ≤ evpMaxMdSize := by
    unfold maxHashBitCountBytes maxHashBlockSize evpMaxMdSize
    omega
  rw [cbcDigestRecord, if_neg (not_not.2 hassert), if_neg (by unfold maxHashBlockSize; omega)]
  exact cbcDigestBlocks_eq md f { cbcSizes_tls md hdata hlo hhi with
    header := hheader, data := by omega, header_le := by omega, raw_le := by omega } hsecret

/-- `ssl3_cbc_digest_record` computes HMAC for every supported hash, whatever follows the data. -/
theorem cbc_digest_is_hmac (f : (md : CbcMd) → Compression σ md.params.rawSize) (md : CbcMd)
    {secret : List (BitVec 8)} {dataSize : Nat} (hheader : header.length = 13)
    (hdata : data.length < 2 ^ 20) (hsecret : secret.length ≤ md.params.mdBlockSize)
    (hlo : dataSize + md.params.mdSize + 1 ≤ data.length)
    (hhi : data.length ≤ dataSize + md.params.mdSize + 256) :
    ssl3CbcDigestRecord f (some md) ⟨true, true, true, true⟩ header data dataSize secret false =
        ⟨true, some ((hash (f md)).hmac (· ^^^ 0x36) (· ^^^ 0x5c) secret
          (header ++ data.take dataSize)), some md.params.mdSize⟩ ∧
    ∀ data', data'.length = data.length → data'.take dataSize = data.take dataSize →
      ssl3CbcDigestRecord f (some md) ⟨true, true, true, true⟩ header data' dataSize secret false
        = ssl3CbcDigestRecord f (some md) ⟨true, true, true, true⟩ header data dataSize secret
          false := by
  have h {data' : List (BitVec 8)} (hlen : data'.length = data.length) :
      ssl3CbcDigestRecord f (some md) ⟨true, true, true, true⟩ header data' dataSize secret false =
        ⟨true, some ((hash (f md)).hmac (· ^^^ 0x36) (· ^^^ 0x5c) secret
          (header ++ data'.take dataSize)), some md.params.mdSize⟩ := by
    rw [ssl3CbcDigestRecord, if_neg (by omega)]
    exact cbcDigestRecord_eq md (f md) hheader (by omega) hsecret (by omega) (by omega)
  refine ⟨h rfl, fun data' hlen htake => ?_⟩
  rw [h hlen, h rfl, htake]

/-- A polynomial in the bytes, as a compression function. -/
def polynomial (md : CbcMd) : Compression Nat md.params.rawSize where
  init := 1
  transform s block := block.foldl (fun s b => (33 * s + b.toNat) % 2 ^ 32) s
  finalRaw s := (List.range md.params.rawSize).map fun i => BitVec.ofNat 8 (s >>> i)
  length_finalRaw _ := by simp

/-- Data of 500 bytes, 16 bytes of MAC and 84 of padding. The first four blocks are absorbed in any
case, and which one of the others is the last is kept secret. -/
theorem cbc_digest_is_hmac_long :
    let data := (List.range 500).map (BitVec.ofNat 8)
    let digest (rest : List (BitVec 8)) := ssl3CbcDigestRecord polynomial (some .md5)
      ⟨true, true, true, true⟩ (List.replicate 13 7) (data ++ rest) 500 [1, 2, 3] false
    let mac := digest (List.replicate 100 83)
    mac = ⟨true, some [0x98, 0x4c, 0xa6, 0xd3, 0x69, 0xb4, 0x5a, 0xad, 0x56, 0xab, 0x55, 0x2a, 0x95,
        0xca, 0xe5, 0xf2], some 16⟩ ∧
      digest (List.replicate 100 0) = mac := by
  intro data digest mac
  have hdata : (data ++ List.replicate 100 83).length = 600 := by simp [data]
  have htake (rest : List (BitVec 8)) : (data ++ rest).take 500 = data := by simp [data]
  obtain ⟨hmac, hrest⟩ := @cbc_digest_is_hmac (List.replicate 13 7)
    (data ++ List.replicate 100 83) Nat polynomial .md5 [1, 2, 3] 500 rfl (by omega) (by decide)
    (by rw [hdata]; decide) (by rw [hdata]; decide)
  refine ⟨hmac.trans ?_, hrest _ (by simp) (by rw [htake, htake])⟩
  rw [htake]
  decide +kernel

end QuicTls
