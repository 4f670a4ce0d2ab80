import QuicTls.Theory.BigEndian
import Mathlib.Data.Nat.Bitwise
import Mathlib.Tactic.Linarith

/-!
# Bytes, least significant byte first, as unsigned and as signed numbers
-/

namespace QuicTls.TwosComplement

open List

/-- The number of a byte string, least significant byte first. -/
def leVal : Bytes → Nat
  | [] => 0
  | b :: bs => b.toNat + 256 * leVal bs

/-- The lowest `n` bytes of a number, least significant byte first. -/
def leBytes : Nat → Nat → Bytes
  | 0, _ => []
  | n + 1, v => UInt8.ofNat v :: leBytes n (v / 256)

/-- The number of a byte string read as two's complement. -/
def signed (bs : Bytes) : Int :=
  if 2 * leVal bs < 256 ^ bs.length then leVal bs else (leVal bs : Int) - (256 ^ bs.length : Nat)

/-- The numbers that have a two's complement of `n` bytes. -/
def Fits (v : Int) (n : Nat) : Prop :=
  0 < n ∧ -(2 : Int) ^ (8 * n - 1) ≤ v ∧ v < 2 ^ (8 * n - 1)

instance (v : Int) (n : Nat) : Decidable (Fits v n) := inferInstanceAs (Decidable (_ ∧ _ ∧ _))

@[simp] theorem leVal_nil : leVal [] = 0 := rfl

@[simp] theorem leVal_cons (b : UInt8) (bs : Bytes) :
    leVal (b :: bs) = b.toNat + 256 * leVal bs := rfl

theorem leVal_append (as bs : Bytes) :
    leVal (as ++ bs) = leVal as + 256 ^ as.length * leVal bs := by
  induction as with
  | nil => simp
  | cons a as ih =>
    rw [cons_append, leVal_cons, ih, leVal_cons, length_cons]
    ring

theorem leVal_lt (bs : Bytes) : leVal bs < 256 ^ bs.length := by
  induction bs with
  | nil => exact Nat.one_pos
  | cons b bs ih =>
    have hb := b.toNat_lt
    rw [leVal_cons, length_cons]
    omega

@[simp] theorem length_leBytes (n v : Nat) : (leBytes n v).length = n := by
  induction n generalizing v with
  | zero => rfl
  | succ n ih => rw [leBytes, length_cons, ih]

theorem reverse_leBytes (n v : Nat) : (leBytes n v).reverse = BigEndian.encode n v := by
  induction n generalizing v with
  | zero => rfl
  | succ n ih => rw [leBytes, reverse_cons, ih, BigEndian.encode]

theorem leVal_leBytes (n v : Nat) : leVal (leBytes n v) = v % 256 ^ n := by
  induction n generalizing v with
  | zero => simp [leBytes, Nat.mod_one]
  | succ n ih =>
    have hbyte : (UInt8.ofNat v).toNat = v % 256 := rfl
    rw [leBytes, leVal_cons, ih, hbyte, Nat.pow_succ', Nat.mod_mul]

theorem leBytes_leVal (bs : Bytes) : leBytes bs.length (leVal bs) = bs := by
  induction bs with
  | nil => rfl
  | cons b bs ih =>
    have hb := b.toNat_lt
    have hdiv : (b.toNat + 256 * leVal bs) / 256 = leVal bs := by omega
    have hbyte : UInt8.ofNat (b.toNat + 256 * leVal bs) = b := by
      apply UInt8.toNat_inj.mp
      show (b.toNat + 256 * leVal bs) % 256 = b.toNat
      omega
    rw [length_cons, leBytes, leVal_cons, hdiv, ih, hbyte]

variable {bs : Bytes}

/-- Byte strings of one length are determined by their number. -/
theorem leVal_inj {as : Bytes} (hlen : as.length = bs.length) (h : leVal as = leVal bs) :
    as = bs := by
  rw [← leBytes_leVal as, ← leBytes_leVal bs, hlen, h]

theorem leVal_eq_zero_iff : leVal bs = 0 ↔ ∀ b ∈ bs, b = 0 := by
  induction bs with
  | nil => simp
  | cons b bs ih =>
    have hb : b.toNat = 0 ↔ b = 0 := UInt8.toNat_inj (b := 0)
    rw [leVal_cons, forall_mem_cons, ← ih, ← hb]
    omega

theorem toNat_xor_max (b : UInt8) : (b ^^^ 0xff).toNat = 255 - b.toNat := by
  have hmax : (0xff : UInt8) = -1 := rfl
  rw [hmax, UInt8.xor_neg_one, UInt8.toNat_not]
  rfl

theorem and_top_eq_zero_iff (b : UInt8) : b &&& 0x80 = 0 ↔ b.toNat < 128 := by
  obtain ⟨⟨b⟩⟩ := b
  revert b
  decide +kernel

/-- The byte on top decides in which half the number lies. -/
theorem top_bit_iff (bs : Bytes) (b : UInt8) :
    128 ≤ b.toNat ↔ 256 ^ (bs ++ [b]).length ≤ 2 * leVal (bs ++ [b]) := by
  have hlt := leVal_lt bs
  rw [leVal_append, length_append, length_singleton, Nat.pow_succ, leVal_cons, leVal_nil,
    Nat.add_zero]
  generalize 256 ^ bs.length = p at hlt ⊢
  constructor
  · intro h
    have hmul : p * 128 ≤ p * b.toNat := Nat.mul_le_mul_left p h
    omega
  · by_contra hb
    have hmul : p * b.toNat ≤ p * 127 := Nat.mul_le_mul_left p (by omega)
    omega

theorem leVal_replicate_max (n : Nat) : leVal (List.replicate n 0xff) + 1 = 256 ^ n := by
  induction n with
  | zero => rfl
  | succ n ih =>
    have hmax : (0xff : UInt8).toNat = 255 := rfl
    rw [replicate_succ, leVal_cons, hmax]
    omega

theorem leVal_replicate_zero (n : Nat) : leVal (List.replicate n 0) = 0 := by
  rw [leVal_eq_zero_iff]
  intro b hb
  exact (mem_replicate.1 hb).2

theorem fits_iff {v : Int} {n : Nat} (hn : 0 < n) :
    Fits v n ↔ -(256 ^ n : Nat) ≤ 2 * v ∧ 2 * v < (256 ^ n : Nat) := by
  have hpow : ((256 ^ n : Nat) : Int) = 2 * 2 ^ (8 * n - 1) := by
    have h : (256 : Int) ^ n = 2 ^ (8 * n - 1 + 1) := by
      rw [Nat.sub_add_cancel (by omega), pow_mul]
      norm_num
    rw [Nat.cast_pow, Nat.cast_ofNat, h, pow_succ']
  constructor
  · rintro ⟨_, hlow, hup⟩
    constructor <;> omega
  · rintro ⟨hlow, hup⟩
    refine ⟨hn, ?_, ?_⟩ <;> omega

theorem not_fits_zero (v : Int) : ¬ Fits v 0 := fun h => Nat.lt_irrefl 0 h.1

/-- What is read back from `n` bytes fits in `n` bytes. -/
theorem fits_signed (hne : bs ≠ []) : Fits (signed bs) bs.length := by
  have hlt := leVal_lt bs
  rw [fits_iff (length_pos_iff.2 hne), signed]
  split <;> omega

/-- A number that fits is read back from its bytes modulo `256 ^ n`. -/
theorem signed_of_fits {v : Int} (h : Fits v bs.length)
    (hval : (leVal bs : Int) = v % (256 ^ bs.length : Nat)) : signed bs = v := by
  obtain ⟨hlow, hup⟩ := (fits_iff h.1).1 h
  have hpos : 0 < 256 ^ bs.length := by positivity
  rw [signed]
  generalize 256 ^ bs.length = p at hval hlow hup hpos ⊢
  rcases Int.lt_or_le v 0 with hneg | hnn
  · have hmod : v % (p : Int) = v + p := by
      rw [← Int.add_emod_right, Int.emod_eq_of_lt (by omega) (by omega)]
    omega
  · have hmod : v % (p : Int) = v := Int.emod_eq_of_lt hnn (by omega)
    rw [hmod] at hval
    rw [if_pos (by omega)]
    exact hval

end QuicTls.TwosComplement
