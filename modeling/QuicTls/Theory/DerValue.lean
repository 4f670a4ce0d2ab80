import QuicTls.Theory.Der
import QuicTls.Theory.TwosComplement
import Mathlib.Data.Nat.Size

/-!
# Values and their distinguished encoding

A value has one encoding: lengths are definite and as short as possible, integers are the shortest
two's complement. The reader accepts nothing else.
-/

namespace QuicTls.Der

open TwosComplement List

/-! ### Identifiers -/

/-- The octets of a tag number of 31 or more: seven bits each, the last without the top bit. -/
def readTag : Bytes → Option (Bytes × Bytes)
  | [] => none
  | b :: bs =>
    if b.toNat < 128 then some ([b], bs)
    else (readTag bs).map fun (tag, rest) => (b :: tag, rest)

/-- The tag number begins with zero bits, or has no need of octets of its own. -/
def TagTooLong (tag : Bytes) : Prop := tag.headD 0 = 0x80 ∨ (tag.headD 0).toNat < 31

instance (tag : Bytes) : Decidable (TagTooLong tag) := inferInstanceAs (Decidable (_ ∨ _))

/-- The octets that identify a value, if there are no more of them than necessary. -/
def readIdentifier : Bytes → Option (Bytes × Bytes)
  | [] => none
  | b :: bs =>
    if b &&& 0x1f = 0x1f then
      match readTag bs with
      | none => none
      | some (tag, rest) => if TagTooLong tag then none else some (b :: tag, rest)
    else some ([b], bs)

theorem readTag_spec {bs tag rest : Bytes} (h : readTag bs = some (tag, rest)) :
    bs = tag ++ rest ∧ ∀ more, readTag (tag ++ more) = some (tag, more) := by
  induction bs generalizing tag with
  | nil => cases h
  | cons b bs ih =>
    rw [readTag] at h
    split_ifs at h with hlast
    · cases h
      refine ⟨rfl, fun more => ?_⟩
      rw [singleton_append, readTag, if_pos hlast]
    obtain ⟨⟨tag', rest'⟩, htail, heq⟩ := Option.map_eq_some_iff.1 h
    cases heq
    obtain ⟨hsplit, hread⟩ := ih htail
    refine ⟨by rw [hsplit, cons_append], fun more => ?_⟩
    rw [cons_append, readTag, if_neg hlast, hread, Option.map_some]

theorem readIdentifier_spec {bs octets rest : Bytes} (h : readIdentifier bs = some (octets, rest)) :
    bs = octets ++ rest ∧ ∀ more, readIdentifier (octets ++ more) = some (octets, more) := by
  cases bs with
  | nil => cases h
  | cons b bs =>
    rw [readIdentifier] at h
    split at h
    · rename_i hlong
      cases htag : readTag bs with
      | none =>
        rw [htag] at h
        cases h
      | some r =>
        rw [htag] at h
        dsimp only at h
        split at h
        · cases h
        rename_i hmin
        cases h
        obtain ⟨hsplit, hread⟩ := readTag_spec htag
        refine ⟨by rw [hsplit, cons_append], fun more => ?_⟩
        rw [cons_append, readIdentifier, if_pos hlong, hread]
        dsimp only
        rw [if_neg hmin]
    · rename_i hshort
      cases h
      refine ⟨rfl, fun more => ?_⟩
      rw [singleton_append, readIdentifier, if_neg hshort]

/-- Octets that identify a value. -/
structure Identifier where
  octets : Bytes
  read : readIdentifier octets = some (octets, [])

namespace Identifier

/-- The bit that tells constructed from primitive values. -/
def isConstructed (id : Identifier) : Bool := id.octets.headD 0 &&& 0x20 ≠ 0

def ofOctet (b : UInt8) (h : b &&& 0x1f ≠ 0x1f) : Identifier :=
  ⟨[b], by rw [readIdentifier, if_neg h]⟩

theorem read_append (id : Identifier) (more : Bytes) :
    readIdentifier (id.octets ++ more) = some (id.octets, more) :=
  (readIdentifier_spec id.read).2 more

theorem length_pos (id : Identifier) : 0 < id.octets.length := by
  rw [length_pos_iff]
  intro hnil
  have hread := id.read
  rw [hnil] at hread
  cases hread

end Identifier

/-- A value; an integer is known by its identifier. -/
inductive Value where
  | integer (n : Int)
  | primitive (id : Identifier) (hp : id.isConstructed = false) (hi : id.octets ≠ [2])
      (contents : Bytes)
  | constructed (id : Identifier) (hc : id.isConstructed = true) (children : List Value)

/-- The length of the shortest two's complement. -/
def integerLen (n : Int) : Nat := (if 0 ≤ n then n.toNat else (-n - 1).toNat).size / 8 + 1

/-- The shortest two's complement, most significant byte first. -/
def integerBytes (n : Int) : Bytes :=
  (leBytes (integerLen n) (n % (256 ^ integerLen n : Nat)).toNat).reverse

namespace Value

def id : Value → Identifier
  | integer _ => .ofOctet 2 (by decide)
  | primitive id _ _ _ => id
  | constructed id _ _ => id

mutual

def contents : Value → Bytes
  | integer n => integerBytes n
  | primitive _ _ _ contents => contents
  | constructed _ _ children => encodeAll children

def encodeAll : List Value → Bytes
  | [] => []
  | v :: vs => (v.id.octets ++ (derLength v.contents.length ++ v.contents)) ++ encodeAll vs

end

def encode (v : Value) : Bytes :=
  v.id.octets ++ (derLength v.contents.length ++ v.contents)

end Value

/-- A definite length, if it is as short as possible. -/
def readLength : Bytes → Option (Nat × Bytes)
  | [] => none
  | b :: bs =>
    if b.toNat < 128 then some (b.toNat, bs)
    else
      let octets := bs.take (b.toNat - 128)
      let n := BigEndian.decode octets
      if octets.length < b.toNat - 128 ∨ octets.headD 0 = 0 ∨ n < 128 then none
      else some (n, bs.drop (b.toNat - 128))

/-- An identifier, and what follows it. -/
def identify (bs : Bytes) : Option (Identifier × Bytes) :=
  match h : readIdentifier bs with
  | none => none
  | some (octets, rest) =>
    some (⟨octets, by simpa using (readIdentifier_spec h).2 []⟩, rest)

/-- The value with this identifier and these contents; an integer must not fit in fewer bytes. -/
def valueOf (id : Identifier) (contents : Bytes) (children : Option (List Value)) : Option Value :=
  if hp : id.isConstructed = false then
    if hi : id.octets = [2] then
      let n := signed contents.reverse
      if contents = [] ∨ Fits n (contents.length - 1) then none
      else some (.integer n)
    else some (.primitive id hp hi contents)
  else children.map (.constructed id (Bool.of_not_eq_false hp))

mutual

/-- One value, and what follows it. -/
def parse : Nat → Bytes → Option (Value × Bytes)
  | 0, _ => none
  | fuel + 1, bs =>
    match identify bs with
    | none => none
    | some (id, bs) =>
      match readLength bs with
      | none => none
      | some (n, bs) =>
        if bs.length < n then none
        else (valueOf id (bs.take n) (parseAll fuel (bs.take n))).map (·, bs.drop n)

/-- All values of a string. -/
def parseAll : Nat → Bytes → Option (List Value)
  | _, [] => some []
  | 0, _ :: _ => none
  | fuel + 1, b :: bs =>
    match parse fuel (b :: bs) with
    | none => none
    | some (v, rest) => (parseAll fuel rest).map (v :: ·)

end

/-- The value of a string, with nothing left over. -/
def decode (bs : Bytes) : Option Value :=
  match parse bs.length bs with
  | some (v, []) => some v
  | _ => none

/-! ### Integers -/

theorem fits_iff_integerLen {n : Int} {k : Nat} : Fits n k ↔ integerLen n ≤ k := by
  have hsize (v : Nat) : v.size / 8 + 1 ≤ k ↔ 0 < k ∧ v < 2 ^ (8 * k - 1) := by
    rw [← Nat.size_le]
    omega
  rw [integerLen, hsize]
  by_cases hn : 0 ≤ n
  · have hcast : n.toNat < 2 ^ (8 * k - 1) ↔ n < 2 ^ (8 * k - 1) := by
      rw [← Int.ofNat_lt, Int.toNat_of_nonneg hn]
      norm_cast
    rw [if_pos hn, hcast]
    constructor
    · rintro ⟨hk, _, hup⟩
      exact ⟨hk, hup⟩
    · rintro ⟨hk, hup⟩
      exact ⟨hk, by omega, hup⟩
  · have hcast : (-n - 1).toNat < 2 ^ (8 * k - 1) ↔ -n - 1 < 2 ^ (8 * k - 1) := by
      rw [← Int.ofNat_lt, Int.toNat_of_nonneg (by omega)]
      norm_cast
    rw [if_neg hn]
    constructor
    · rintro ⟨hk, hlow, _⟩
      exact ⟨hk, by omega⟩
    · rintro ⟨hk, hlow⟩
      exact ⟨hk, by omega, by omega⟩

theorem integerLen_pos (n : Int) : 0 < integerLen n := Nat.succ_pos _

theorem length_integerBytes (n : Int) : (integerBytes n).length = integerLen n := by
  simp [integerBytes]

theorem signed_integerBytes (n : Int) : signed (integerBytes n).reverse = n := by
  have hpow : (0 : Int) < (256 ^ integerLen n : Nat) := by positivity
  have hnonneg := Int.emod_nonneg n hpow.ne'
  rw [integerBytes, reverse_reverse]
  apply signed_of_fits
  · rw [length_leBytes, fits_iff_integerLen]
  · rw [length_leBytes, leVal_leBytes, Nat.mod_eq_of_lt, Int.toNat_of_nonneg hnonneg]
    omega

theorem integerLen_natCast (v : Nat) : integerLen v = v.size / 8 + 1 := by
  rw [integerLen, if_pos (Int.natCast_nonneg v), Int.toNat_natCast]

theorem lt_pow_integerLen (v : Nat) : v < 256 ^ integerLen v := by
  rw [integerLen_natCast, ← Nat.pow_mul 2 8]
  exact Nat.size_le.1 (by omega)

theorem integerBytes_natCast (v : Nat) : integerBytes v = BigEndian.encode (integerLen v) v := by
  rw [integerBytes, ← Int.natCast_mod, Int.toNat_natCast, Nat.mod_eq_of_lt (lt_pow_integerLen v),
    reverse_leBytes]

/-- The bytes of a natural number, and a zero in front if its top bit is set. -/
theorem integerBytes_eq_append (v : Nat) :
    integerBytes v = (if v / 256 ^ Nat.log 256 v < 128 then [] else [0]) ++
      BigEndian.encode (Nat.log 256 v + 1) v := by
  have hpow : v < 256 ^ (Nat.log 256 v + 1) := Nat.lt_pow_succ_log_self (by decide) v
  have htop : v / 256 ^ Nat.log 256 v < 128 ↔ v.size ≤ 8 * Nat.log 256 v + 7 := by
    rw [Nat.size_le, Nat.div_lt_iff_lt_mul (by positivity), Nat.pow_add, Nat.pow_mul]
    rw [Nat.mul_comm]
  have hsize : v.size ≤ 8 * (Nat.log 256 v + 1) := by
    rw [Nat.size_le, Nat.pow_mul]
    exact hpow
  have hlow : v ≠ 0 → 8 * Nat.log 256 v < v.size := by
    intro hv
    rw [Nat.lt_size, Nat.pow_mul]
    exact Nat.pow_log_le_self 256 hv
  rw [integerBytes_natCast, integerLen_natCast]
  split_ifs with hsmall
  · have hlen : v.size / 8 + 1 = Nat.log 256 v + 1 := by
      by_cases hv : v = 0
      · rw [hv, Nat.size_zero, Nat.log_zero_right]
      · omega
    rw [hlen, nil_append]
  · have hlen : v.size / 8 + 1 = 1 + (Nat.log 256 v + 1) := by omega
    rw [hlen, BigEndian.encode_add, Nat.div_eq_of_lt hpow]
    rfl

/-- The shortest form of a length is read back. -/
theorem readLength_derLength {n : Nat} (hn : n < 256 ^ 126) (rest : Bytes) :
    readLength (derLength n ++ rest) = some (n, rest) := by
  have hlog : Nat.log 256 n < 126 := Nat.log_lt_of_lt_pow' (by decide) hn
  rw [derLength]
  split
  · have hoctet : (UInt8.ofNat n).toNat = n := Nat.mod_eq_of_lt (by omega)
    rw [cons_append, nil_append, readLength, hoctet, if_pos (by omega)]
  have hoctet : (UInt8.ofNat (0x80 + (Nat.log 256 n + 1))).toNat = 128 + (Nat.log 256 n + 1) :=
    Nat.mod_eq_of_lt (by omega)
  have hpow : n < 256 ^ (Nat.log 256 n + 1) := Nat.lt_pow_succ_log_self (by decide) n
  have hle : 256 ^ Nat.log 256 n ≤ n := Nat.pow_log_le_self 256 (by omega)
  have htake : (BigEndian.encode (Nat.log 256 n + 1) n ++ rest).take (Nat.log 256 n + 1) =
      BigEndian.encode (Nat.log 256 n + 1) n := take_left' (by simp)
  have hdrop : (BigEndian.encode (Nat.log 256 n + 1) n ++ rest).drop (Nat.log 256 n + 1) =
      rest := drop_left' (by simp)
  -- the first octet is not zero, since the length has as many octets as it needs
  have hhead : (BigEndian.encode (Nat.log 256 n + 1) n).headD 0 ≠ 0 := by
    rw [Nat.add_comm, BigEndian.encode_add]
    have hdiv : n / 256 ^ Nat.log 256 n < 256 := by
      rw [Nat.div_lt_iff_lt_mul (by positivity), Nat.mul_comm]
      exact hpow
    have hpos : 0 < n / 256 ^ Nat.log 256 n := Nat.div_pos hle (by positivity)
    intro h
    have hnat := congrArg UInt8.toNat h
    have hval : (UInt8.ofNat (n / 256 ^ Nat.log 256 n)).toNat = n / 256 ^ Nat.log 256 n :=
      Nat.mod_eq_of_lt hdiv
    have hzero : (UInt8.ofNat (n / 256 ^ Nat.log 256 n)).toNat = 0 := hnat
    omega
  rw [cons_append, readLength, hoctet, if_neg (by omega), Nat.add_sub_cancel_left]
  dsimp only
  rw [htake, hdrop, BigEndian.decode_encode hpow, BigEndian.length_encode, if_neg]
  rintro (hlen | hzero | hlt)
  · omega
  · exact hhead hzero
  · omega

/-- A length that is read was in its shortest form. -/
theorem derLength_of_readLength {bs rest : Bytes} {n : Nat}
    (h : readLength bs = some (n, rest)) : bs = derLength n ++ rest := by
  cases bs with
  | nil => cases h
  | cons b bs =>
    have hb := b.toNat_lt
    rw [readLength] at h
    split at h
    · cases h
      have hoctet : UInt8.ofNat b.toNat = b := UInt8.ofNat_toNat
      rw [derLength, if_pos (by omega), hoctet]
      rfl
    dsimp only at h
    split at h
    · cases h
    rename_i hmin
    rw [not_or, not_or] at hmin
    obtain ⟨hlen, hhead, hlarge⟩ := hmin
    obtain ⟨hn, hrest⟩ := Prod.mk.inj (Option.some.inj h)
    have hsplit := take_append_drop (b.toNat - 128) bs
    have hle := length_take_le (b.toNat - 128) bs
    rw [hn] at hlarge
    rw [hrest] at hsplit
    rw [← hsplit]
    cases hoctets : bs.take (b.toNat - 128) with
    | nil =>
      rw [hoctets] at hhead
      exact absurd rfl hhead
    | cons c octets =>
      rw [hoctets] at hlen hhead hn hle
      rw [length_cons] at hlen hle
      have hc : 0 < c.toNat := by
        rw [Nat.pos_iff_ne_zero]
        intro hzero
        exact hhead (UInt8.toNat_inj.1 hzero)
      -- the first octet decides the size of the length
      have hlog : Nat.log 256 n = octets.length := by
        have hbound := BigEndian.decode_lt octets
        have hc256 := c.toNat_lt
        rw [← hn, BigEndian.decode_cons]
        apply Nat.log_eq_of_pow_le_of_lt_pow
        · have hmul : 1 * 256 ^ octets.length ≤ c.toNat * 256 ^ octets.length :=
            Nat.mul_le_mul_right _ hc
          omega
        · have hmul : (c.toNat + 1) * 256 ^ octets.length ≤ 256 * 256 ^ octets.length :=
            Nat.mul_le_mul_right _ hc256
          rw [Nat.add_mul] at hmul
          omega
      have hencode := BigEndian.encode_decode (c :: octets)
      rw [hn, length_cons] at hencode
      have hoctet : UInt8.ofNat (0x80 + (octets.length + 1)) = b := by
        apply UInt8.toNat_inj.1
        show (0x80 + (octets.length + 1)) % 256 = b.toNat
        omega
      rw [derLength, if_neg (by omega), hlog, hencode, hoctet]
      rfl

/-! ### Values -/

theorem identify_append (id : Identifier) (more : Bytes) :
    identify (id.octets ++ more) = some (id, more) := by
  have hread := id.read_append more
  unfold identify
  split
  · rename_i hnone
    rw [hnone] at hread
    cases hread
  · rename_i octets rest hsome
    rw [hsome] at hread
    cases hread
    rfl

variable {id : Identifier}

open Value

theorem length_contents_lt (v : Value) : v.contents.length + 2 ≤ v.encode.length := by
  have hid := v.id.length_pos
  have hlen := length_derLength_pos v.contents.length
  rw [encode, length_append, length_append]
  omega

theorem encodeAll_cons (v : Value) (vs : List Value) :
    encodeAll (v :: vs) = v.encode ++ encodeAll vs := by
  rw [encodeAll, encode]

variable {children : Option (List Value)}

/-- The contents of a value are read as that value. -/
theorem valueOf_contents (v : Value)
    (hchildren : ∀ id hc vs, v = .constructed id hc vs → children = some vs) :
    valueOf v.id v.contents children = some v := by
  cases v with
  | integer n =>
    have hne : integerBytes n ≠ [] := by
      rw [← length_pos_iff, length_integerBytes]
      exact integerLen_pos n
    have hmin : ¬ Fits n ((integerBytes n).length - 1) := by
      have := integerLen_pos n
      rw [fits_iff_integerLen, length_integerBytes]
      omega
    have hp : (integer n).id.isConstructed = false := by
      show decide ((2 : UInt8) &&& 0x20 ≠ 0) = false
      decide
    have hi : (integer n).id.octets = [2] := rfl
    rw [contents, valueOf, dif_pos hp, dif_pos hi]
    rw [signed_integerBytes, if_neg (by simp [hne, hmin])]
  | primitive id hp hi bytes => rw [contents, Value.id, valueOf, dif_pos hp, dif_neg hi]
  | constructed id hc vs =>
    rw [Value.id, valueOf, dif_neg (by simp [hc]), hchildren id hc vs rfl]
    rfl

variable {v : Value}

mutual

/-- What was written is read back, whatever follows. -/
theorem parse_encode (v : Value) {fuel : Nat} (hfuel : v.encode.length ≤ fuel)
    (hsize : v.encode.length < 256 ^ 126) (rest : Bytes) :
    parse fuel (v.encode ++ rest) = some (v, rest) := by
  have hlt := length_contents_lt v
  cases fuel with
  | zero => omega
  | succ fuel =>
    have hread := readLength_derLength (n := v.contents.length) (by omega) (v.contents ++ rest)
    rw [encode, append_assoc, append_assoc, parse, identify_append]
    dsimp only
    rw [hread]
    dsimp only
    rw [length_append, if_neg (by omega), take_left, drop_left, valueOf_contents v, Option.map_some]
    rintro id hc vs rfl
    rw [contents] at hlt ⊢
    exact parseAll_encodeAll vs (by omega) (by omega)

/-- A sequence of encodings is read back. -/
theorem parseAll_encodeAll (vs : List Value) {fuel : Nat} (hfuel : (encodeAll vs).length < fuel)
    (hsize : (encodeAll vs).length < 256 ^ 126) : parseAll fuel (encodeAll vs) = some vs := by
  cases vs with
  | nil => rw [encodeAll, parseAll]
  | cons v vs =>
    have hlt := length_contents_lt v
    rw [encodeAll_cons] at hfuel hsize ⊢
    rw [length_append] at hfuel hsize
    cases fuel with
    | zero => omega
    | succ fuel =>
      have hhead := parse_encode v (show v.encode.length ≤ fuel by omega) (by omega) (encodeAll vs)
      have htail := parseAll_encodeAll vs (show (encodeAll vs).length < fuel by omega) (by omega)
      cases hbytes : v.encode ++ encodeAll vs with
      | nil =>
        have hnil := (append_eq_nil_iff.1 hbytes).1
        rw [hnil, length_nil] at hlt
        omega
      | cons b bs =>
        rw [hbytes] at hhead
        rw [parseAll, hhead]
        dsimp only
        rw [htail, Option.map_some]

end

theorem decode_encode (hsize : v.encode.length < 256 ^ 126) : decode v.encode = some v := by
  have h := parse_encode v (Nat.le_refl _) hsize []
  rw [append_nil] at h
  rw [decode, h]

end QuicTls.Der
