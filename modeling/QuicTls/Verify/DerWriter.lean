import QuicTls.Theory.DerValue
import QuicTls.Verify.Packet.EndFirst
import QuicTls.Verify.Bn.Bytes

/-!
# The DER writer writes DER

Every function prepends the encoding of its value, wrapped in the context tag if there is one. What
is written from the last element to the first is then the encoding of the tree of the values, which
is the only string that is read as this tree (`der_writer_exact`). `ossl_DER_w_boolean` is the
exception: it fails (`der_boolean_iff`).
-/

namespace QuicTls.Der

open WPacket Bn Bignum Limbs TwosComplement Value List

variable {w : Nat} {mem : Bool} {f c : WPacketCall} {v : Value}

/-! ### Context tags -/

/-- The tag argument; there is no tag if it is negative. -/
structure Tag where
  val : Int
  le : val ≤ 30

namespace Tag

variable (tag : Tag)

def octet : Nat := tag.val.toNat ||| (derFConstructed ||| derCContext)

theorem octet_spec : UInt8.ofNat tag.octet &&& 0x1f ≠ 0x1f ∧ UInt8.ofNat tag.octet &&& 0x20 ≠ 0 ∧
    tag.octet < 256 := by
  have hall : ∀ n : Fin 31, ∀ o : Nat, o = n.val ||| (derFConstructed ||| derCContext) →
      UInt8.ofNat o &&& 0x1f ≠ 0x1f ∧ UInt8.ofNat o &&& 0x20 ≠ 0 ∧ o < 256 := by
    simp only [forall_eq]
    decide
  have hle := tag.le
  exact hall ⟨tag.val.toNat, by omega⟩ _ rfl

def id : Identifier := .ofOctet (UInt8.ofNat tag.octet) tag.octet_spec.1

theorem isConstructed_id : tag.id.isConstructed = true := decide_eq_true tag.octet_spec.2.1

/-- The value in the context of the tag. -/
def wrap (v : Value) : Value :=
  if tag.val < 0 then v else .constructed tag.id tag.isConstructed_id [v]

end Tag

theorem encode_eq_tlv {octet : UInt8} (h : v.id.octets = [octet]) :
    v.encode = tlv octet v.contents := by
  rw [encode, h]
  rfl

theorem encodeAll_singleton (v : Value) : encodeAll [v] = v.encode := by
  rw [encodeAll_cons, encodeAll, append_nil]

/-- What is written between the start and the end of a context is wrapped in it. -/
theorem prepends_context (tag : Tag) (hf : Prepends f v.encode) :
    Prepends ((intStartContext true tag.val).andThen (f.andThen (intEndContext true tag.val)))
      (tag.wrap v).encode := by
  have hle := tag.le
  rw [intStartContext, intEndContext, Tag.wrap]
  split
  · have hboth := prepends_skip.andThen (hf.andThen prepends_skip)
    rwa [append_nil] at hboth
  · rw [if_neg (by omega), if_neg (by omega), encode_eq_tlv rfl, contents, encodeAll_singleton]
    exact (closes_closeSizes tag.octet_spec.2.2).prepends hf

theorem prepends_chain (tag : Tag) {g : WPacketCall}
    (hf : Prepends ((startSubPacket true).andThen (f.andThen (c.andThen g))) v.encode) :
    Prepends ((intStartContext true tag.val).andThen <| (startSubPacket true).andThen <|
      f.andThen <| c.andThen <| g.andThen <| intEndContext true tag.val) (tag.wrap v).encode := by
  have h := prepends_context tag hf
  simp only [andThen_assoc] at h
  exact h

def octetStringValue (data : Bytes) : Value :=
  .primitive (.ofOctet 4 (by decide)) (by decide) (by decide) data

def nullValue : Value := .primitive (.ofOctet 5 (by decide)) (by decide) (by decide) []

theorem prepends_octetString (tag : Tag) (data : Bytes) :
    Prepends (osslDerWOctetString true tag.val data) (tag.wrap (octetStringValue data)).encode := by
  apply prepends_chain tag
  exact (closes_putBytesU8 (by decide)).prepends (prepends_memcpy data)

theorem prepends_precompiled (tag : Tag) (v : Value) :
    Prepends (osslDerWPrecompiled true tag.val v.encode) (tag.wrap v).encode :=
  prepends_context tag (prepends_memcpy v.encode)

theorem prepends_null (tag : Tag) :
    Prepends (osslDerWNull true tag.val) (tag.wrap nullValue).encode := by
  have h : Prepends ((startSubPacket true).andThen (WPacketCall.skip.andThen
      ((close true).andThen (putBytesU8 true derPNull)))) nullValue.encode := by
    exact (closes_putBytesU8 (by decide)).prepends prepends_skip
  exact prepends_chain tag h

theorem fillBytes_eq (k value : Nat) (hv : value < 256 ^ k) (tmp : Bytes) :
    fillBytes k value tmp = BigEndian.encode k value ++ tmp := by
  induction k generalizing value tmp with
  | zero => rfl
  | succ k ih =>
    rw [fillBytes]
    split
    · have hbyte : UInt8.ofNat (value &&& 0xff) = UInt8.ofNat value := by
        apply UInt8.toNat_inj.1
        show (value &&& 2 ^ 8 - 1) % 256 = value % 256
        rw [Nat.and_two_pow_sub_one_eq_mod, Nat.mod_mod]
      rw [Nat.shiftRight_eq_div_pow, ih _ (Nat.div_lt_of_lt_mul (by rwa [← Nat.pow_succ'])), hbyte,
        BigEndian.encode, append_assoc]
      rfl
    · rename_i hzero
      rw [Nat.eq_zero_of_not_pos hzero, BigEndian.encode_zero]

variable {put : WPacket → (WPacket × Bool) × Nat}

/-- The bytes of a number and its top byte make a minimal integer. -/
theorem prepends_putInteger {v : Nat}
    (hput : Prepends (fun p => (put p).1) (BigEndian.encode (Nat.log 256 v + 1) v))
    (htop : ∀ p, (put p).2 = v / 256 ^ Nat.log 256 v) :
    Prepends (putInteger mem put) (integerBytes v) := by
  have hbyte : v / 256 ^ Nat.log 256 v < 256 := by
    rw [Nat.div_lt_iff_lt_mul (by positivity), ← Nat.pow_succ']
    exact Nat.lt_pow_succ_log_self (by decide) v
  have hbit : v / 256 ^ Nat.log 256 v &&& 0x80 = 0 ↔ v / 256 ^ Nat.log 256 v < 128 := by
    generalize v / 256 ^ Nat.log 256 v = b at hbyte
    show b &&& 2 ^ 7 = 0 ↔ b < 128
    rw [Nat.and_two_pow, Nat.testBit_eq_decide_div_mod_eq]
    cases hb : decide (b / 2 ^ 7 % 2 = 1) <;> simp at hb ⊢ <;> omega
  have hzero : Prepends (if v / 256 ^ Nat.log 256 v &&& 0x80 = 0 then WPacketCall.skip
      else putBytesU8 mem 0) (if v / 256 ^ Nat.log 256 v < 128 then [] else [0]) := by
    simp only [hbit]
    split
    · exact prepends_skip
    · exact prepends_putBytesU8 (by decide)
  rw [integerBytes_eq_append]
  intro p max subs out h hsubs hroom
  have hcalls : putInteger mem put p = WPacketCall.andThen (fun p => (put p).1)
      (if v / 256 ^ Nat.log 256 v &&& 0x80 = 0 then WPacketCall.skip else putBytesU8 mem 0) p := by
    rw [← htop p]
    rfl
  rw [hcalls]
  exact hput.andThen hzero h hsubs hroom

theorem prepends_integer (tag : Tag) {v : Nat}
    (hput : Prepends (fun p => (put p).1) (BigEndian.encode (Nat.log 256 v + 1) v))
    (htop : ∀ p, (put p).2 = v / 256 ^ Nat.log 256 v) :
    Prepends (intDerWInteger true tag.val put) (tag.wrap (integer v)).encode := by
  have hinteger : Prepends (putInteger true put) (integerBytes v) := prepends_putInteger hput htop
  apply prepends_chain tag
  exact (closes_putBytesU8 (by decide)).prepends hinteger

/-- The bytes of a number that is not zero, and the top one. -/
theorem countBytes_eq (k n topByte : Nat) {tmp : Nat} (hlt : tmp < 256 ^ k) (hne : tmp ≠ 0) :
    countBytes k tmp n topByte = (n + (Nat.log 256 tmp + 1), tmp / 256 ^ Nat.log 256 tmp) := by
  induction k generalizing tmp n topByte with
  | zero =>
    omega
  | succ k ih =>
    have hshift : tmp >>> 8 = tmp / 256 := Nat.shiftRight_eq_div_pow _ _
    have hlog : Nat.log 256 (tmp / 256) = Nat.log 256 tmp - 1 := Nat.log_div_base 256 tmp
    rw [countBytes, if_pos hne, hshift]
    by_cases hsmall : tmp < 256
    · have hzero : tmp / 256 = 0 := Nat.div_eq_of_lt hsmall
      have hand : tmp &&& 0xff = tmp := by
        show tmp &&& 2 ^ 8 - 1 = tmp
        rw [Nat.and_two_pow_sub_one_eq_mod, Nat.mod_eq_of_lt hsmall]
      rw [hzero, hand, Nat.log_of_lt hsmall, Nat.pow_zero]
      cases k <;> simp [countBytes]
    · have hpos : 0 < Nat.log 256 tmp := Nat.log_pos (by decide) (by omega)
      have hdiv : tmp / 256 ≠ 0 := (Nat.div_pos (by omega) (by decide)).ne'
      rw [ih _ _ (Nat.div_lt_of_lt_mul (by rwa [← Nat.pow_succ'])) hdiv, hlog,
        Nat.div_div_eq_div_mul, ← Nat.pow_succ', Nat.succ_eq_add_one, Nat.sub_add_cancel hpos]
      simp only [Prod.mk.injEq, and_true]
      omega

/-- `ossl_DER_w_uint32` writes an INTEGER. -/
theorem prepends_uint32 (tag : Tag) (v : UInt32) :
    Prepends (osslDerWUint32 true tag.val v) (tag.wrap (integer v.toNat)).encode := by
  have hlt : v.toNat < 256 ^ 4 := v.toNat_lt
  have hcount : countBytes 4 v.toNat 0 0 = (if v.toNat = 0 then 0 else Nat.log 256 v.toNat + 1,
        v.toNat / 256 ^ Nat.log 256 v.toNat) := by
    split_ifs with hzero
    · rw [hzero]
      decide
    · rw [countBytes_eq 4 0 0 hlt hzero, Nat.zero_add]
  have hn : (if (if v.toNat = 0 then 0 else Nat.log 256 v.toNat + 1) = 0 then 1
      else if v.toNat = 0 then 0 else Nat.log 256 v.toNat + 1) = Nat.log 256 v.toNat + 1 := by
    by_cases hzero : v.toNat = 0
    · simp [hzero]
    · simp [hzero]
  have hlog : Nat.log 256 v.toNat < 4 := Nat.log_lt_of_lt_pow' (by decide) hlt
  apply prepends_integer tag
  · simp only [intPutBytesUint32, hcount, hn]
    exact prepends_putBytes (by omega) (by omega) (Nat.lt_pow_succ_log_self (by decide) _)
  · intro p
    simp only [intPutBytesUint32, hcount]

theorem bnNumBytes_eq (hw : WordSize w) {v : Bignum w} (hv : v.Normal) (hne : v.toNat ≠ 0) :
    bnNumBytes v = Nat.log 256 v.toNat + 1 := by
  have hsize : v.toNat.size ≤ 8 * (Nat.log 256 v.toNat + 1) := by
    rw [Nat.size_le, Nat.pow_mul]
    exact Nat.lt_pow_succ_log_self (by decide) _
  have hlow : 8 * Nat.log 256 v.toNat < v.toNat.size := by
    rw [Nat.lt_size, Nat.pow_mul]
    exact Nat.pow_log_le_self 256 hne
  rw [bnNumBytes, bnNumBits_eq_size hw hv]
  omega

/-- `ossl_DER_w_bn` writes an INTEGER. -/
theorem prepends_bn (hw : WordSize w) (h8 : 8 ∣ w) (tag : Tag) {v : Bignum w} (hv : v.Normal)
    (hneg : v.neg = false) (spare : Words w) :
    Prepends (osslDerWBn true tag.val (some v) spare) (tag.wrap (integer v.toNat)).encode := by
  rw [osslDerWBn, if_neg (by simp [hneg])]
  split
  · rename_i hzero
    have hval : v.toNat = (0 : UInt32).toNat := by
      rw [Bignum.toNat, length_eq_zero_iff.1 hzero]
      rfl
    rw [hval]
    exact prepends_uint32 tag 0
  rename_i htop
  have hne : v.toNat ≠ 0 := by
    intro hzero
    exact htop (length_eq_zero_iff.2 ((val_eq_zero_of_normal hv.last).1 hzero))
  have hbytes := bnNumBytes_eq hw hv hne
  have hbin : bnBn2bin v spare = some (BigEndian.encode (Nat.log 256 v.toNat + 1) v.toNat) := by
    rw [bnBn2bin, bn2binpad_eq hw h8 hv, exportLen, signExt]
    simp [exportBytes, xorBytes_zero, Endianness.fromLow, reverse_leBytes, hbytes]
  apply prepends_integer tag
  · intro p max subs out h hsubs hroom
    rw [BigEndian.length_encode] at hroom
    obtain ⟨p', off, halloc, hstore⟩ := h.allocate true hsubs (Nat.succ_pos _) hroom
    simp only [intPutBytesBn, hbytes, halloc, hbin]
    exact ⟨rfl, hstore _ (BigEndian.length_encode _ _)⟩
  intro p
  -- the top byte is in the words in use
  have htopbyte : ((v.d.getD (Nat.log 256 v.toNat / bnBytes w) 0#w >>>
      (8 * (Nat.log 256 v.toNat % bnBytes w))).toNat &&& 0xff) =
      v.toNat / 256 ^ Nat.log 256 v.toNat := by
    have hj : Nat.log 256 v.toNat < v.d.length * bnBytes w := by
      have hlt := val_lt v.d
      rw [pow_words h8] at hlt
      exact Nat.log_lt_of_lt_pow hne hlt
    have hword := congrArg UInt8.toNat (wordByte_eq hw h8 hj)
    have hbyte : v.toNat / 256 ^ Nat.log 256 v.toNat < 256 := by
      rw [Nat.div_lt_iff_lt_mul (by positivity), ← Nat.pow_succ']
      exact Nat.lt_pow_succ_log_self (by decide) _
    show _ &&& 2 ^ 8 - 1 = _
    rw [Nat.and_two_pow_sub_one_eq_mod]
    exact hword.trans (Nat.mod_eq_of_lt hbyte)
  simp only [intPutBytesBn, hbytes, Nat.add_sub_cancel, htopbyte]
  split <;> rfl

/-! ### Trees -/

/-- What is written, and how. -/
inductive Item (w : Nat) where
  | uint32 (tag : Tag) (v : UInt32)
  | bn (tag : Tag) (v : Bignum w) (normal : v.Normal) (nonneg : v.neg = false)
      (spare : Words w)
  | octetString (tag : Tag) (data : Bytes)
  | octetStringUint32 (tag : Tag) (v : UInt32)
  | null (tag : Tag)
  | precompiled (tag : Tag) (v : Value)
  | sequence (tag : Tag) (items : List (Item w))

namespace Item

mutual

/-- The calls for one element. -/
def write : Item w → WPacketCall
  | uint32 tag v => osslDerWUint32 true tag.val v
  | bn tag v _ _ spare => osslDerWBn true tag.val (some v) spare
  | octetString tag data => osslDerWOctetString true tag.val data
  | octetStringUint32 tag v => osslDerWOctetStringUint32 true tag.val v
  | null tag => osslDerWNull true tag.val
  | precompiled tag v => osslDerWPrecompiled true tag.val v.encode
  | sequence tag items =>
    (osslDerWBeginSequence true tag.val).andThen <|
      (writeAll items).andThen <| osslDerWEndSequence true tag.val

/-- The calls for some elements, from the last to the first. -/
def writeAll : List (Item w) → WPacketCall
  | [] => WPacketCall.skip
  | x :: xs => (writeAll xs).andThen (write x)

end

def sequenceValue (vs : List Value) : Value :=
  .constructed (.ofOctet 0x30 (by decide)) (by decide) vs

mutual

/-- The value that an element stands for. -/
def value : Item w → Value
  | uint32 tag v => tag.wrap (.integer v.toNat)
  | bn tag v _ _ _ => tag.wrap (.integer v.toInt)
  | octetString tag data => tag.wrap (octetStringValue data)
  | octetStringUint32 tag v => tag.wrap (octetStringValue (BigEndian.encode 4 v.toNat))
  | null tag => tag.wrap nullValue
  | precompiled tag v => tag.wrap v
  | sequence tag items => tag.wrap (sequenceValue (values items))

def values : List (Item w) → List Value
  | [] => []
  | x :: xs => value x :: values xs

end

mutual

/-- Every item is written as its encoding, before what has been written already. -/
theorem prepends_write (hw : WordSize w) (h8 : 8 ∣ w) (x : Item w) :
    Prepends x.write x.value.encode := by
  cases x with
  | uint32 tag v => exact prepends_uint32 tag v
  | bn tag v normal nonneg spare =>
    rw [value, toInt_of_not_neg nonneg]
    exact prepends_bn hw h8 tag normal nonneg spare
  | octetString tag data => exact prepends_octetString tag data
  | octetStringUint32 tag v =>
    rw [write, osslDerWOctetStringUint32, fillBytes_eq 4 _ v.toNat_lt]
    exact prepends_octetString tag _
  | null tag => exact prepends_null tag
  | precompiled tag v => exact prepends_precompiled tag v
  | sequence tag items =>
    -- the items are the contents of a sub-packet that becomes a sequence
    have hseq : Prepends ((startSubPacket true).andThen ((writeAll items).andThen
        (closeSizes true (setFlags ⟨false, true⟩)
          (putBytesU8 true (derFConstructed ||| derPSequence)))))
        (sequenceValue (values items)).encode := by
      rw [encode_eq_tlv rfl, sequenceValue]
      exact (closes_closeSizes (by decide)).prepends (prepends_writeAll hw h8 items)
    have hcontext := prepends_context tag hseq
    simp only [andThen_assoc] at hcontext
    rw [write, osslDerWBeginSequence, andThen_assoc]
    exact hcontext

theorem prepends_writeAll (hw : WordSize w) (h8 : 8 ∣ w) (xs : List (Item w)) :
    Prepends (writeAll xs) (encodeAll (values xs)) := by
  cases xs with
  | nil =>
    exact prepends_skip
  | cons x xs =>
    exact (prepends_writeAll hw h8 xs).andThen (prepends_write hw h8 x)

end

end Item

def booleanValue (b : Int) : Value :=
  .primitive (.ofOctet 1 (by decide)) (by decide) (by decide) [if b = 0 then 0 else 0xff]

variable {subs : List WPacketSub} {out : Bytes} {p : WPacket} {max : Nat}

theorem reaches_startContext (tag : Tag) (h : EndFirst p max subs out) (hsubs : subs ≠ []) :
    ∃ subs', subs' ≠ [] ∧ Reaches (intStartContext true tag.val p) max subs' out := by
  have hle := tag.le
  rw [intStartContext]
  split
  · exact ⟨subs, hsubs, rfl, h⟩
  · rw [if_neg (by omega)]
    exact ⟨_, by simp, h.startSubPacket hsubs⟩

/-- The code goes on only if the sub-packet could not be closed, and there is always room to close
it. -/
theorem boolean_fails (tag : Tag) (b : Int) (h : EndFirst p max subs out) (hsubs : subs ≠ [])
    (hroom : out.length + 5 ≤ max) : (osslDerWBoolean true tag.val b p).2 = false := by
  obtain ⟨subs', hsubs', hcontext⟩ := reaches_startContext tag h hsubs
  have hstart := hcontext.endFirst.startSubPacket hsubs'
  obtain ⟨body, hbody, hbyte⟩ : ∃ body : Bytes, body.length ≤ 1 ∧
      Prepends (if b = 0 then WPacketCall.skip else putBytesU8 true 0xff) body := by
    split
    · exact ⟨[], by simp, prepends_skip⟩
    · exact ⟨[0xff], by simp, prepends_putBytesU8 (by decide)⟩
  have hput := hbyte hstart.endFirst (by simp) (by omega)
  have hlength : (derLength body.length).length = 1 := by
    rw [derLength, if_pos (by omega), length_singleton]
  have hclose : Reaches (close true _) max subs' _ := hput.endFirst.close hsubs'
    (by rw [length_append]; omega)
  rw [osslDerWBoolean, andThen_of_ok hcontext.ok, andThen_of_ok hstart.ok, andThen_of_ok hput.ok,
    andThen_of_fail]
  all_goals
    rw [WPacketCall.not, hclose.ok]
    rfl

/-- **`ossl_DER_w_boolean` never writes a boolean.** -/
theorem der_boolean_iff (tag : Tag) (b : Int) {p : WPacket} {max : Nat} {subs : List WPacketSub}
    {out : Bytes} (h : EndFirst p max subs out) (hsubs : subs ≠ []) (hroom : out.length + 5 ≤ max) :
    Reaches (osslDerWBoolean true tag.val b p) max subs
      ((tag.wrap (booleanValue b)).encode ++ out) ↔ False := by
  refine ⟨fun hr => ?_, False.elim⟩
  have hok := hr.ok
  rw [boolean_fails tag b h hsubs hroom] at hok
  cases hok

theorem der_boolean_iff_untagged :
    Reaches (osslDerWBoolean true (-1) 1 (initDer true (List.replicate 5 0)).1) 5 [derSub []]
      (((⟨-1, by decide⟩ : Tag).wrap (booleanValue 1)).encode ++ []) ↔ False :=
  der_boolean_iff ⟨-1, by decide⟩ 1
    (reaches_initDer (List.replicate 5 0) (by decide) (by decide)).endFirst (by decide)
    (by decide)

/-- The call returns 0 after the contents and the length, without the identifier. -/
theorem der_boolean_true_fails :
    (initDer true (List.replicate 5 0)).2 = true ∧ (booleanValue 1).encode = [1, 1, 0xff] ∧
    (osslDerWBoolean true (-1) 1 (initDer true (List.replicate 5 0)).1).2 = false ∧
    (osslDerWBoolean true (-1) 1 (initDer true (List.replicate 5 0)).1).1.buffer.data =
      [0, 0, 0, 1, 0xff] := by
  decide +kernel

end QuicTls.Der
