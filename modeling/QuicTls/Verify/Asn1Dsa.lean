import QuicTls.Crypto.Asn1Dsa
import QuicTls.Theory.DerValue

/-!
# Signatures of DSA and ECDSA (crypto/asn1_dsa.c)

The encoder writes DER. The decoder reads it back, but takes a length also when it is written longer
than it needs to be, so a signature has encodings that are not DER (`dsa_sig_der_iff`).
-/

namespace QuicTls.Asn1Dsa

open Der TwosComplement List

/-! ### Lengths -/

variable {n : Nat}

theorem derLength_of_lt (h : n < 65536) :
    derLength n = if n > 0xff then 0x82 :: BigEndian.encode 2 n
      else (if n > 0x7f then [0x81] else []) ++ [UInt8.ofNat n] := by
  unfold derLength
  by_cases hbig : n > 0xff
  · have hlog : Nat.log 256 n = 1 := (Nat.log_eq_iff (by omega)).2 ⟨by omega, by omega⟩
    rw [if_neg (by omega), if_pos hbig, hlog]
    rfl
  have hlog : Nat.log 256 n = 0 := Nat.log_of_lt (by omega)
  rw [hlog]
  split <;> rename_i hsmall
  · rw [if_neg (by omega), nil_append]
  · rw [if_pos (by omega)]
    rfl

theorem osslEncodeDerLength_eq (n : Nat) :
    osslEncodeDerLength n = if n < 65536 then some (derLength n) else none := by
  unfold osslEncodeDerLength
  by_cases h : n < 65536
  · rw [if_neg (by omega), derLength_of_lt h]
    split <;> rfl
  · rw [if_pos (by omega), if_neg h]

theorem getBytes_iff {pkt sub rest : Packet} :
    pkt.getBytes n = some (sub, rest) ↔ sub.length = n ∧ pkt = sub ++ rest := by
  unfold Packet.getBytes
  constructor
  · intro h
    split at h
    · cases h
    · cases h
      exact ⟨length_take_of_le (by omega), (take_append_drop n pkt).symm⟩
  · rintro ⟨rfl, rfl⟩
    simp

variable {b : UInt8}

/-- The three forms of a length, with the number of octets that it announces. -/
theorem osslDecodeDerLength_short (h : b < 0x80) (pkt : Packet) :
    osslDecodeDerLength (b :: pkt) = pkt.getBytes b.toNat := by
  have hmax : ¬ sizeMax / 2 < b.toNat := by
    have := b.toNat_lt
    unfold sizeMax
    omega
  rw [osslDecodeDerLength, if_pos h, Packet.getSubPacket, if_neg hmax]
  rfl

theorem osslDecodeDerLength_long1 (b : UInt8) (pkt : Packet) :
    osslDecodeDerLength (0x81 :: b :: pkt) = pkt.getBytes b.toNat := by
  simp [osslDecodeDerLength, Packet.getLengthPrefixed1, Packet.getLengthPrefixed, Packet.getNet,
    BigEndian.decode]

theorem osslDecodeDerLength_long2 (h l : UInt8) (pkt : Packet) :
    osslDecodeDerLength (0x82 :: h :: l :: pkt) = pkt.getBytes (h.toNat * 256 + l.toNat) := by
  have htwo : ¬ pkt.length + 1 + 1 < 2 := by omega
  simp [osslDecodeDerLength, Packet.getLengthPrefixed2, Packet.getLengthPrefixed, Packet.getNet,
    BigEndian.decode, htwo]

theorem osslDecodeDerLength_derLength (h : n < 65536) (pkt : Packet) :
    osslDecodeDerLength (derLength n ++ pkt) = pkt.getBytes n := by
  rw [derLength_of_lt h]
  split
  · have hval : (UInt8.ofNat (n / 256)).toNat * 256 + (UInt8.ofNat n).toNat = n := by
      simp only [UInt8.toNat_ofNat']
      omega
    exact (osslDecodeDerLength_long2 _ _ pkt).trans (by rw [hval])
  have hval : (UInt8.ofNat n).toNat = n := Nat.mod_eq_of_lt (by omega)
  split
  · exact (osslDecodeDerLength_long1 _ pkt).trans (by rw [hval])
  · have hlt : UInt8.ofNat n < 0x80 := by
      rw [UInt8.lt_iff_toNat_lt, hval]
      exact show n < 128 by omega
    exact (osslDecodeDerLength_short hlt pkt).trans (by rw [hval])

/-- A length that is taken is one of DER, or it is longer than it needs to be. -/
theorem readLength_of_osslDecodeDerLength {pkt sub rest : Packet}
    (h : osslDecodeDerLength pkt = some (sub, rest)) :
    sub.length < 65536 ∧
      ((readLength pkt).isSome = true → readLength pkt = some (sub.length, sub ++ rest)) := by
  rcases pkt with _ | ⟨byte, pkt⟩
  · cases h
  by_cases hshort : byte < 0x80
  · rw [osslDecodeDerLength_short hshort] at h
    obtain ⟨hlen, rfl⟩ := getBytes_iff.1 h
    have hb : byte.toNat < 128 := hshort
    rw [readLength, if_pos hb, hlen]
    exact ⟨by omega, fun _ => rfl⟩
  by_cases h81 : byte = 0x81
  · rcases pkt with _ | ⟨b, pkt⟩
    · rw [h81] at h
      cases h
    · rw [h81, osslDecodeDerLength_long1] at h
      obtain ⟨hlen, rfl⟩ := getBytes_iff.1 h
      have hb := b.toNat_lt
      refine ⟨by omega, ?_⟩
      simp [h81, readLength, hlen, BigEndian.decode]
  by_cases h82 : byte = 0x82
  · rcases pkt with _ | ⟨high, _ | ⟨low, pkt⟩⟩
    · rw [h82] at h
      cases h
    · rw [h82] at h
      cases h
    rw [h82, osslDecodeDerLength_long2] at h
    obtain ⟨hlen, rfl⟩ := getBytes_iff.1 h
    have hhigh := high.toNat_lt
    have hlow := low.toNat_lt
    refine ⟨by omega, ?_⟩
    simp [h82, readLength, hlen, BigEndian.decode]
  · rw [osslDecodeDerLength, if_neg hshort, if_neg h81, if_neg h82] at h
    cases h

/-- As long as the length is not longer than it needs to be, the value is DER. -/
theorem tlv_of_osslDecodeDerLength {pkt sub rest : Packet} (tag : UInt8)
    (h : osslDecodeDerLength pkt = some (sub, rest)) (hread : (readLength pkt).isSome = true) :
    tag :: pkt = tlv tag sub ++ rest := by
  have hpkt := derLength_of_readLength ((readLength_of_osslDecodeDerLength h).2 hread)
  rw [hpkt, tlv, cons_append, append_assoc]

theorem readLength_tlv {tag : UInt8} {contents : Bytes} (h : contents.length < 65536)
    (rest : Bytes) :
    readLength (tlv tag contents ++ rest).tail = some (contents.length, contents ++ rest) := by
  rw [tlv, cons_append, append_assoc]
  exact readLength_derLength (h.trans (by norm_num)) _

theorem osslDecodeDerLength_tlv (tag : UInt8) {contents : Bytes}
    (h : contents.length < 65536) (rest : Bytes) :
    osslDecodeDerLength (tlv tag contents ++ rest).tail = some (contents, rest) := by
  rw [tlv, cons_append, tail_cons, append_assoc, osslDecodeDerLength_derLength h]
  exact getBytes_iff.2 ⟨rfl, rfl⟩

/-! ### Integers -/

theorem fits_natCast {v : Nat} : Fits v (n + 1) ↔ 2 * v < 256 ^ (n + 1) := by
  rw [fits_iff (Nat.succ_pos n)]
  omega

variable {bs : Bytes}

theorem fits_decode_cons :
    Fits (BigEndian.decode (b :: bs) : Nat) (bs.length + 1) ↔ b &&& 0x80 = 0 := by
  have hlt := BigEndian.decode_lt bs
  rw [fits_natCast, BigEndian.decode_cons, and_top_eq_zero_iff]
  constructor
  · intro h
    by_contra hbig
    have := Nat.mul_le_mul_right (256 ^ bs.length) (show 128 ≤ b.toNat by omega)
    omega
  · intro h
    have := Nat.mul_le_mul_right (256 ^ bs.length) (show b.toNat ≤ 127 by omega)
    omega

theorem not_fits_decode_cons (hb : b ≠ 0) (bs : Bytes) :
    ¬ Fits (BigEndian.decode (b :: bs) : Nat) bs.length := by
  have hpos : 1 ≤ b.toNat := by
    by_contra h
    exact hb (UInt8.toNat_inj.1 (show b.toNat = 0 by omega))
  cases bs with
  | nil => exact not_fits_zero _
  | cons d bs =>
    have := Nat.mul_le_mul_right (256 ^ (d :: bs).length) hpos
    rw [length_cons] at this ⊢
    rw [fits_natCast, BigEndian.decode_cons, length_cons]
    omega

theorem positive_iff_fits : positive (b :: bs) = true ↔
    Fits (BigEndian.decode (b :: bs) : Nat) (bs.length + 1) ∧
      ¬ Fits (BigEndian.decode (b :: bs) : Nat) bs.length := by
  rw [fits_decode_cons]
  by_cases htop : b &&& 0x80 = 0
  · by_cases hb : b = 0
    · subst hb
      cases bs with
      | nil => simp [positive, not_fits_zero]
      | cons d bs =>
        have hzero : BigEndian.decode (0 :: d :: bs) = BigEndian.decode (d :: bs) := by
          simp [BigEndian.decode_cons]
        rw [hzero, length_cons, fits_decode_cons]
        simp [positive]
    · simp [positive, hb, not_fits_decode_cons hb]
  · simp [positive, htop]

/-- What passes the peek is the shortest two's complement of its value. -/
theorem positive_iff : positive bs = true ↔ integerBytes (BigEndian.decode bs : Nat) = bs := by
  have hlen : positive bs = true ↔ integerLen (BigEndian.decode bs : Nat) = bs.length := by
    cases bs with
    | nil => simp [positive, integerLen]
    | cons b bs =>
      rw [positive_iff_fits, fits_iff_integerLen, fits_iff_integerLen, length_cons]
      omega
  rw [hlen]
  constructor
  · intro h
    rw [integerBytes_natCast, h, BigEndian.encode_decode]
  · intro h
    rw [← length_integerBytes, h]

theorem osslEncodeDerInteger_eq (v : Nat) : osslEncodeDerInteger v =
    if integerLen v < 65536 then some (tlv 0x02 (integerBytes v)) else none := by
  rw [osslEncodeDerInteger, if_neg (by omega), Int.natAbs_natCast, ← integerLen_natCast]
  dsimp only
  rw [osslEncodeDerLength_eq, ← integerBytes_natCast, tlv, length_integerBytes]
  split <;> rfl

/-- An INTEGER is read exactly when its contents are the shortest ones for a natural number. -/
theorem osslDecodeDerInteger_iff {pkt rest : Packet} {v : Nat} :
    osslDecodeDerInteger pkt = some (v, rest) ↔ ∃ pkt', pkt = 0x02 :: pkt' ∧
      osslDecodeDerLength pkt' = some (integerBytes v, rest) := by
  rcases pkt with _ | ⟨tag, pkt⟩
  · simp [osslDecodeDerInteger]
  by_cases htag : tag = 0x02
  · rw [htag, osslDecodeDerInteger, if_neg (not_not.2 rfl), Option.bind_eq_some_iff]
    constructor
    · rintro ⟨⟨contents, rest'⟩, hlength, h⟩
      obtain ⟨hpos, h⟩ := Option.ite_none_right_eq_some.1 h
      cases h
      rw [positive_iff.1 hpos]
      exact ⟨pkt, rfl, hlength⟩
    · rintro ⟨_, ⟨⟩, hlength⟩
      have hval : BigEndian.decode (integerBytes v) = v := by
        rw [integerBytes_natCast, BigEndian.decode_encode (lt_pow_integerLen v)]
      refine ⟨_, hlength, ?_⟩
      dsimp only
      rw [hval, if_pos (positive_iff.2 (by rw [hval]))]
  · simp [osslDecodeDerInteger, htag]

/-! ### Signatures -/

/-- What the decoder accepts: a SEQUENCE of two INTEGERs and nothing else in it. -/
theorem osslDecodeDerDsaSig_iff {r s k : Nat} :
    osslDecodeDerDsaSig bs = some (r, s, k) ↔ bs.length ≤ sizeMax / 2 ∧
      ∃ pkt contents rest members, bs = 0x30 :: pkt ∧
        osslDecodeDerLength pkt = some (contents, rest) ∧
        osslDecodeDerInteger contents = some (r, members) ∧
        osslDecodeDerInteger members = some (s, []) ∧ k = bs.length - rest.length := by
  unfold osslDecodeDerDsaSig
  rcases bs with _ | ⟨tag, pkt⟩
  · simp
  constructor
  · intro h
    obtain ⟨hmax, h⟩ := Option.ite_none_left_eq_some.1 h
    obtain ⟨htag, h⟩ := Option.ite_none_left_eq_some.1 h
    obtain ⟨⟨contents, rest⟩, hlength, h⟩ := Option.bind_eq_some_iff.1 h
    obtain ⟨⟨r', members⟩, hr, h⟩ := Option.bind_eq_some_iff.1 h
    obtain ⟨⟨s', tail⟩, hs, h⟩ := Option.bind_eq_some_iff.1 h
    obtain ⟨hend, h⟩ := Option.ite_none_left_eq_some.1 h
    obtain rfl := not_not.1 hend
    cases h
    exact ⟨by omega, pkt, contents, rest, members, by rw [not_not.1 htag], hlength, hr, hs, rfl⟩
  · rintro ⟨hmax, _, contents, rest, members, ⟨⟩, hlength, hr, hs, rfl⟩
    rw [if_neg (by omega)]
    simp [hlength, hr, hs]

/-- The contents of a signature. -/
def contents (r s : Nat) : Bytes := tlv 0x02 (integerBytes r) ++ tlv 0x02 (integerBytes s)

theorem length_contents (r s : Nat) : integerLen r + integerLen s < (contents r s).length := by
  have hr := length_lt_tlv 0x02 (integerBytes r)
  have hs := length_lt_tlv 0x02 (integerBytes s)
  rw [length_integerBytes] at hr hs
  rw [contents, length_append]
  omega

theorem length_integerBytes_lt {r s : Nat} (h : (contents r s).length < 65536) :
    (integerBytes r).length < 65536 ∧ (integerBytes s).length < 65536 := by
  have hlen := length_contents r s
  rw [length_integerBytes, length_integerBytes]
  omega

theorem osslEncodeDerDsaSig_eq (r s : Nat) : osslEncodeDerDsaSig r s =
    if (contents r s).length < 65536 then some (tlv 0x30 (contents r s)) else none := by
  have hlen := length_contents r s
  by_cases h : (contents r s).length < 65536
  · rw [osslEncodeDerDsaSig, osslEncodeDerInteger_eq, if_pos (by omega), osslEncodeDerInteger_eq,
      if_pos (by omega), if_pos h, Option.bind_some, Option.bind_some, osslEncodeDerLength_eq,
      ← contents, if_pos h]
    rfl
  rw [osslEncodeDerDsaSig, osslEncodeDerInteger_eq, osslEncodeDerInteger_eq]
  split
  · split
    · rw [Option.bind_some, Option.bind_some, osslEncodeDerLength_eq, ← contents, if_neg h]
      rfl
    · rfl
  · rfl

/-- The three lengths are as short as they can be. -/
def shortest (bs : Bytes) : Bool :=
  ((readLength bs.tail).bind fun (n, rest) => (readLength (rest.take n).tail).bind fun (n, rest) =>
    readLength (rest.drop n).tail).isSome

theorem shortest_tlv {r s : Nat} (h : (contents r s).length < 65536) (rest : Bytes) :
    shortest (tlv 0x30 (contents r s) ++ rest) = true := by
  obtain ⟨hr, hs⟩ := length_integerBytes_lt h
  rw [shortest, readLength_tlv h, Option.bind_some]
  dsimp only
  rw [take_left, contents, readLength_tlv hr, Option.bind_some]
  rw [drop_left, ← append_nil (tlv 0x02 (integerBytes s)), readLength_tlv hs]
  rfl

/-- A signature whose lengths are all in their shortest form is the encoding of its numbers. -/
theorem eq_tlv_of_shortest {pkt rest rpkt spkt : Packet} {r s : Nat}
    (hlength : osslDecodeDerLength pkt = some (0x02 :: rpkt, rest))
    (hr : osslDecodeDerLength rpkt = some (integerBytes r, 0x02 :: spkt))
    (hs : osslDecodeDerLength spkt = some (integerBytes s, []))
    (h : shortest (0x30 :: pkt) = true) :
    0x02 :: rpkt = contents r s ∧ 0x30 :: pkt = tlv 0x30 (contents r s) ++ rest := by
  rw [shortest, tail_cons] at h
  cases hpkt : readLength pkt with
  | none => simp [hpkt] at h
  | some p =>
    have hp := (readLength_of_osslDecodeDerLength hlength).2 (by rw [hpkt, Option.isSome_some])
    rw [hp, Option.bind_some] at h
    dsimp only at h
    rw [take_left, tail_cons] at h
    cases hrpkt : readLength rpkt with
    | none => simp [hrpkt] at h
    | some q =>
      have hq := (readLength_of_osslDecodeDerLength hr).2 (by rw [hrpkt, Option.isSome_some])
      rw [hq, Option.bind_some] at h
      rw [drop_left] at h
      have hmembers : 0x02 :: rpkt = contents r s := by
        rw [tlv_of_osslDecodeDerLength 0x02 hr (by rw [hq, Option.isSome_some]),
          tlv_of_osslDecodeDerLength 0x02 hs h, append_nil, contents]
      rw [tlv_of_osslDecodeDerLength 0x30 hlength (by rw [hp, Option.isSome_some]), hmembers]
      exact ⟨rfl, rfl⟩

theorem osslDecodeDerDsaSig_tlv {r s : Nat} (h : (contents r s).length < 65536) :
    osslDecodeDerDsaSig (tlv 0x30 (contents r s)) =
      some (r, s, (tlv 0x30 (contents r s)).length) := by
  obtain ⟨hr, hs⟩ := length_integerBytes_lt h
  have hlength := osslDecodeDerLength_tlv 0x30 h []
  rw [append_nil] at hlength
  refine osslDecodeDerDsaSig_iff.2 ⟨?_, _, contents r s, [], tlv 0x02 (integerBytes s), rfl,
    hlength, ?_, ?_, rfl⟩
  · have hoctets : (derLength (contents r s).length).length ≤ 3 := by
      rw [derLength_of_lt h]
      split_ifs <;> simp
    rw [tlv, length_cons, length_append, sizeMax]
    omega
  · exact osslDecodeDerInteger_iff.2 ⟨_, rfl, osslDecodeDerLength_tlv 0x02 hr _⟩
  · rw [← append_nil (tlv 0x02 (integerBytes s))]
    exact osslDecodeDerInteger_iff.2 ⟨_, rfl, osslDecodeDerLength_tlv 0x02 hs _⟩

/-- A signature that fits is written as DER and read back; one that is read is the one that would be
written if the lengths in it are as short as they can be, and only then. -/
theorem dsa_sig_der_iff (r s : Nat) (bs : Bytes) (k : Nat) :
    ((contents r s).length ≤ 65535 →
      osslEncodeDerDsaSig r s = some (tlv 0x30 (contents r s)) ∧
        osslDecodeDerDsaSig (tlv 0x30 (contents r s)) =
          some (r, s, (tlv 0x30 (contents r s)).length)) ∧
    (osslDecodeDerDsaSig bs = some (r, s, k) →
      (osslEncodeDerDsaSig r s = some (bs.take k) ↔ shortest bs = true)) := by
  constructor
  · intro hlen
    rw [osslEncodeDerDsaSig_eq, if_pos (by omega)]
    exact ⟨rfl, osslDecodeDerDsaSig_tlv (by omega)⟩
  intro h
  obtain ⟨-, pkt, cont, rest, members, rfl, hlength, hr, hs, rfl⟩ := osslDecodeDerDsaSig_iff.1 h
  obtain ⟨spkt, rfl, hslength⟩ := osslDecodeDerInteger_iff.1 hs
  obtain ⟨rpkt, rfl, hrlength⟩ := osslDecodeDerInteger_iff.1 hr
  rw [osslEncodeDerDsaSig_eq]
  constructor
  · intro henc
    obtain ⟨hfits, henc⟩ := Option.ite_none_right_eq_some.1 henc
    rw [← take_append_drop _ (0x30 :: pkt), ← Option.some.inj henc]
    exact shortest_tlv hfits _
  · intro hshort
    obtain ⟨hmembers, hder⟩ := eq_tlv_of_shortest hlength hrlength hslength hshort
    have hfits := (readLength_of_osslDecodeDerLength hlength).1
    rw [hmembers] at hfits
    rw [if_pos hfits, hder, take_left' (by simp)]

theorem dsa_sig_der_iff_small : osslEncodeDerDsaSig 1 200 = some [0x30, 7, 2, 1, 1, 2, 2, 0, 200] :=
  ((dsa_sig_der_iff 1 200 [0x30, 7, 2, 1, 1, 2, 2, 0, 200] 9).2 (by decide)).2 (by decide)

/-- Both numbers are one, and the length of the sequence takes an octet too many. -/
theorem dsa_sig_long_length :
    osslDecodeDerDsaSig [0x30, 0x81, 6, 2, 1, 1, 2, 1, 1] = some (1, 1, 9) ∧
      osslEncodeDerDsaSig 1 1 = some [0x30, 6, 2, 1, 1, 2, 1, 1] := by
  decide

end QuicTls.Asn1Dsa
