import QuicTls.Theory.CTypes
import Mathlib.Data.List.Induction
import Mathlib.Tactic.Ring

/-!
# Numbers as bytes, most significant byte first

`encode` writes a number with a given number of bytes, and `decode` reads it.
-/

namespace QuicTls.BigEndian

open List

/-- The lowest `n` bytes of a number. -/
def encode : Nat → Nat → Bytes
  | 0, _ => []
  | n + 1, v => encode n (v / 256) ++ [UInt8.ofNat v]

def decode (bs : Bytes) : Nat := bs.foldl (fun v b => v * 256 + b.toNat) 0

@[simp] theorem length_encode (n v : Nat) : (encode n v).length = n := by
  induction n generalizing v with
  | zero => rfl
  | succ n ih => rw [encode, length_append, ih, length_singleton]

theorem decode_concat (bs : Bytes) (b : UInt8) :
    decode (bs ++ [b]) = decode bs * 256 + b.toNat := by
  rw [decode, foldl_append]
  rfl

theorem decode_cons (b : UInt8) (bs : Bytes) :
    decode (b :: bs) = b.toNat * 256 ^ bs.length + decode bs := by
  induction bs using List.reverseRecOn with
  | nil => simp [decode]
  | append_singleton bs c ih =>
    rw [← cons_append, decode_concat, ih, decode_concat, length_append, length_singleton]
    ring

theorem decode_append (as bs : Bytes) :
    decode (as ++ bs) = decode as * 256 ^ bs.length + decode bs := by
  induction as with
  | nil => simp [decode]
  | cons a as ih =>
    rw [cons_append, decode_cons, decode_cons, ih, length_append]
    ring

theorem decode_lt (bs : Bytes) : decode bs < 256 ^ bs.length := by
  induction bs using List.reverseRecOn with
  | nil => exact Nat.one_pos
  | append_singleton bs b ih =>
    rw [decode_concat, length_append, length_singleton]
    have hb := b.toNat_lt
    omega

/-- The lowest bytes come last. -/
theorem encode_add (n m v : Nat) : encode (n + m) v = encode n (v / 256 ^ m) ++ encode m v := by
  induction m generalizing v with
  | zero => simp [encode]
  | succ m ih =>
    rw [← Nat.add_assoc, encode, ih, encode, append_assoc, Nat.div_div_eq_div_mul, ← Nat.pow_succ']

theorem encode_zero (n : Nat) : encode n 0 = List.replicate n 0 := by
  induction n with
  | zero => rfl
  | succ n ih =>
    rw [encode, ih, replicate_succ']
    rfl

theorem decode_replicate_zero (n : Nat) : decode (List.replicate n 0) = 0 := by
  induction n with
  | zero => rfl
  | succ n ih =>
    rw [replicate_succ', decode_concat, ih]
    rfl

/-- What was written can be read back. -/
theorem decode_encode {n v : Nat} (h : v < 256 ^ n) : decode (encode n v) = v := by
  induction n generalizing v with
  | zero =>
    rw [Nat.pow_zero, Nat.lt_one_iff] at h
    subst h
    rfl
  | succ n ih =>
    have hdiv : v / 256 < 256 ^ n := Nat.div_lt_of_lt_mul (by rwa [Nat.mul_comm])
    have hbyte : (UInt8.ofNat v).toNat = v % 256 := rfl
    rw [encode, decode_concat, ih hdiv]
    omega

/-- What was read can be written back. -/
theorem encode_decode (bs : Bytes) : encode bs.length (decode bs) = bs := by
  induction bs using List.reverseRecOn with
  | nil => rfl
  | append_singleton bs b ih =>
    have hb := b.toNat_lt
    have hdiv : (decode bs * 256 + b.toNat) / 256 = decode bs := by omega
    have hbyte : UInt8.ofNat (decode bs * 256 + b.toNat) = b := by
      apply UInt8.toNat_inj.mp
      show (decode bs * 256 + b.toNat) % 256 = b.toNat
      omega
    rw [length_append, length_singleton, encode, decode_concat, hdiv, ih, hbyte]

end QuicTls.BigEndian
