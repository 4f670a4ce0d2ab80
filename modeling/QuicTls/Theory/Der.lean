import QuicTls.Theory.BigEndian
import Mathlib.Data.Nat.Log

/-!
# Self-delimiting encodings

An encoding is self-delimiting when what follows an encoded value does not matter for where it
ends. Sequences of such values can be told apart, and one sequence of encodings begins with another
exactly if the sequences of values do. Tag, length and contents are self-delimiting.
-/

namespace QuicTls

open List

section
variable {α β : Type*} {P : α → Prop} {enc : α → List β}

/-- The encodings of the values with the property end by themselves. -/
structure SelfDelimiting (P : α → Prop) (enc : α → List β) : Prop where
  ne_nil : ∀ {a}, P a → enc a ≠ []
  inj : ∀ {a b x y}, P a → P b → enc a ++ x = enc b ++ y → a = b ∧ x = y

namespace SelfDelimiting

variable {l' l : List α}

theorem isPrefix_iff (h : SelfDelimiting P enc) (hl : ∀ a ∈ l, P a)
    (hl' : ∀ a ∈ l', P a) : l.flatMap enc <+: l'.flatMap enc ↔ l <+: l' := by
  induction l generalizing l' with
  | nil => simp
  | cons a l ih =>
    cases l' with
    | nil => simp [h.ne_nil (hl a mem_cons_self)]
    | cons b l' =>
      rw [forall_mem_cons] at hl hl'
      rw [flatMap_cons, cons_prefix_cons]
      constructor
      · rintro ⟨t, ht⟩
        rw [append_assoc] at ht
        obtain ⟨rfl, hrest⟩ := h.inj hl.1 hl'.1 ht
        exact ⟨rfl, (ih hl.2 hl'.2).1 ⟨t, hrest⟩⟩
      · rintro ⟨rfl, hrest⟩
        exact (prefix_append_right_inj _).2 ((ih hl.2 hl'.2).2 hrest)

theorem flatMap_inj (h : SelfDelimiting P enc) (hl : ∀ a ∈ l, P a)
    (hl' : ∀ a ∈ l', P a) (heq : l.flatMap enc = l'.flatMap enc) : l = l' := by
  have hle : l <+: l' := (h.isPrefix_iff hl hl').1 (heq ▸ prefix_rfl)
  have hge : l' <+: l := (h.isPrefix_iff hl' hl).1 (heq ▸ prefix_rfl)
  exact hle.eq_of_length_le hge.length_le

end SelfDelimiting
end

/-- The octets of a length. -/
def derLength (n : Nat) : Bytes :=
  if n ≤ 127 then [UInt8.ofNat n]
  else UInt8.ofNat (0x80 + (Nat.log 256 n + 1)) :: BigEndian.encode (Nat.log 256 n + 1) n

/-- Tag, length and contents. -/
def tlv (tag : UInt8) (contents : Bytes) : Bytes :=
  tag :: (derLength contents.length ++ contents)

theorem length_derLength_pos (n : Nat) : 0 < (derLength n).length := by
  rw [derLength]
  split <;> simp

variable {y x : Bytes}

/-- A length of at most so many octets is self-delimiting. -/
theorem derLength_inj {n m : Nat} (hn : n < 256 ^ 4) (hm : m < 256 ^ 4)
    (h : derLength n ++ x = derLength m ++ y) : n = m ∧ x = y := by
  have hlog {k : Nat} (hk : k < 256 ^ 4) : Nat.log 256 k < 4 := Nat.log_lt_of_lt_pow' (by decide) hk
  have hoctet {k : Nat} (hk : k < 256 ^ 4) :
      (UInt8.ofNat (0x80 + (Nat.log 256 k + 1))).toNat = 0x80 + (Nat.log 256 k + 1) :=
    Nat.mod_eq_of_lt (by have := hlog hk; omega)
  have hsmall {k : Nat} (hk : k ≤ 127) : (UInt8.ofNat k).toNat = k :=
    Nat.mod_eq_of_lt (by omega)
  have hpow {k : Nat} : k < 256 ^ (Nat.log 256 k + 1) := Nat.lt_pow_succ_log_self (by decide) k
  unfold derLength at h
  split at h <;> split at h <;> rename_i hn' hm' <;>
    simp only [cons_append, List.cons.injEq] at h <;>
    obtain ⟨hhead, htail⟩ := h <;> have hhead := congrArg UInt8.toNat hhead
  · rw [hsmall hn', hsmall hm'] at hhead
    exact ⟨hhead, htail⟩
  · rw [hsmall hn', hoctet hm] at hhead
    omega
  · rw [hoctet hn, hsmall hm'] at hhead
    omega
  rw [hoctet hn, hoctet hm] at hhead
  have hlen : Nat.log 256 n = Nat.log 256 m := by omega
  rw [hlen] at htail
  obtain ⟨henc, hrest⟩ := append_inj htail (by simp)
  refine ⟨?_, hrest⟩
  have hdec := congrArg BigEndian.decode henc
  rwa [BigEndian.decode_encode (hlen ▸ hpow), BigEndian.decode_encode hpow] at hdec

theorem tlv_inj {t u : UInt8} {a b : Bytes} (ha : a.length < 256 ^ 4)
    (hb : b.length < 256 ^ 4) (h : tlv t a ++ x = tlv u b ++ y) : t = u ∧ a = b ∧ x = y := by
  simp only [tlv, cons_append, append_assoc, List.cons.injEq] at h
  obtain ⟨htag, hrest⟩ := h
  obtain ⟨hlen, hrest⟩ := derLength_inj ha hb hrest
  obtain ⟨hcontents, hrest⟩ := append_inj hrest hlen
  exact ⟨htag, hcontents, hrest⟩

theorem length_lt_tlv (t : UInt8) (a : Bytes) : a.length < (tlv t a).length := by
  rw [tlv, length_cons, length_append]
  omega

end QuicTls
