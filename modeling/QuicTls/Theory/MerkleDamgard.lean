import Mathlib.Data.List.Basic

/-!
# Hash functions that iterate a compression function

`Hash` is the Merkle–Damgård construction over an arbitrary compression function: a message is
followed by a terminator, zeros and its length, such that it fills whole blocks, and the blocks are
absorbed one after the other. `hmac` is HMAC for a key of at most one block.
-/

namespace QuicTls.MerkleDamgard

open List

/-- A compression function with the parameters of its padding. -/
structure Hash (σ β : Type*) where
  blockSize : Nat
  lengthSize : Nat
  init : σ
  transform : σ → List β → σ
  output : σ → List β
  zero : β
  terminator : β
  /-- how the length of a message is written -/
  lengthBytes : Nat → List β
  length_lengthBytes : ∀ n, (lengthBytes n).length = lengthSize
  lengthSize_lt : lengthSize < blockSize

namespace Hash

variable {σ β : Type*} (h : Hash σ β) {m a : List β}

/-- Block `i` of a message. -/
def block (m : List β) (i : Nat) : List β := (m.drop (h.blockSize * i)).take h.blockSize

/-- Absorb the first `n` blocks of a message. -/
def absorb (s : σ) (m : List β) (n : Nat) : σ :=
  (List.range n).foldl (fun s i => h.transform s (h.block m i)) s

/-- The least number of blocks with room for `n` bytes, the terminator and the length. -/
def numBlocks (n : Nat) : Nat := (n + h.lengthSize) / h.blockSize + 1

/-- What follows a message of `n` bytes. -/
def padding (n : Nat) : List β :=
  h.terminator :: (List.replicate (h.blockSize * h.numBlocks n - (n + 1 + h.lengthSize)) h.zero
    ++ h.lengthBytes n)

def digest (m : List β) : List β :=
  h.output (h.absorb h.init (m ++ h.padding m.length) (h.numBlocks m.length))

/-- HMAC, where `inner` and `outer` mask the key. -/
def hmac (inner outer : β → β) (key m : List β) : List β :=
  let key := key ++ List.replicate (h.blockSize - key.length) h.zero
  h.digest (key.map outer ++ h.digest (key.map inner ++ m))

variable {h}

theorem getElem?_block (m : List β) (i : Nat) {j : Nat} (hj : j < h.blockSize) :
    (h.block m i)[j]? = m[h.blockSize * i + j]? := by
  rw [block, getElem?_take_of_lt hj, getElem?_drop]

theorem block_congr {m' : List β} {i : Nat}
    (heq : ∀ j < h.blockSize, m[h.blockSize * i + j]? = m'[h.blockSize * i + j]?) :
    h.block m i = h.block m' i := by
  refine ext_getElem? fun j => ?_
  rcases Nat.lt_or_ge j h.blockSize with hj | hj
  · rw [getElem?_block m i hj, getElem?_block m' i hj, heq j hj]
  · have hlen (m : List β) : (h.block m i).length ≤ j :=
      Nat.le_trans (length_take_le ..) hj
    rw [getElem?_eq_none (hlen m), getElem?_eq_none (hlen m')]

theorem blockSize_pos : 0 < h.blockSize := Nat.zero_lt_of_lt h.lengthSize_lt

/-- The padding fits. -/
theorem le_blockSize_mul_numBlocks (n : Nat) :
    n + 1 + h.lengthSize ≤ h.blockSize * h.numBlocks n := by
  have := Nat.lt_mul_div_succ (n + h.lengthSize) h.blockSize_pos
  rw [numBlocks]
  omega

/-- Full blocks in front of a message are so many blocks more. -/
theorem numBlocks_mul_add (q n : Nat) : h.numBlocks (h.blockSize * q + n) = q + h.numBlocks n := by
  rw [numBlocks, numBlocks, Nat.add_assoc, Nat.mul_add_div blockSize_pos, Nat.add_assoc]

/-- The bytes of a padded message. The length that is written is that of the message with `q` blocks
in front. -/
theorem getElem?_append_padding (m : List β) (q k : Nat) :
    (m ++ h.padding (h.blockSize * q + m.length))[k]? =
      if k < m.length then m[k]?
      else if k = m.length then some h.terminator
      else if k < h.blockSize * h.numBlocks m.length - h.lengthSize then some h.zero
      else (h.lengthBytes (h.blockSize * q + m.length))[
        k - (h.blockSize * h.numBlocks m.length - h.lengthSize)]? := by
  have hle := h.le_blockSize_mul_numBlocks m.length
  rcases Nat.lt_or_ge k m.length with hk | hk
  · rw [if_pos hk, getElem?_append_left hk]
  rw [if_neg (Nat.not_lt.2 hk), getElem?_append_right hk, padding, numBlocks_mul_add, Nat.mul_add]
  rcases Nat.eq_or_lt_of_le hk with rfl | hlt
  · rw [if_pos rfl, Nat.sub_self, getElem?_cons_zero]
  rw [if_neg (Nat.ne_of_gt hlt), show k - m.length = k - m.length - 1 + 1 by omega,
    getElem?_cons_succ]
  split
  · rw [getElem?_append_left (by rw [length_replicate]; omega), getElem?_replicate_of_lt (by omega)]
  · rw [getElem?_append_right (by rw [length_replicate]; omega), length_replicate]
    congr 1
    omega

theorem absorb_zero (s : σ) (m : List β) : h.absorb s m 0 = s := rfl

theorem absorb_succ (s : σ) (m : List β) (n : Nat) :
    h.absorb s m (n + 1) = h.transform (h.absorb s m n) (h.block m n) := by
  rw [absorb, range_succ, foldl_append]
  rfl

/-- Only the blocks matter. -/
theorem absorb_congr {s : σ} {m' : List β} {n : Nat} (heq : ∀ i < n, h.block m i = h.block m' i) :
    h.absorb s m n = h.absorb s m' n := by
  induction n with
  | zero => rfl
  | succ n ih =>
    rw [absorb_succ, absorb_succ, ih fun i hi => heq i (Nat.lt_succ_of_lt hi),
      heq n (Nat.lt_succ_self n)]

section
variable {q : Nat} (ha : a.length = h.blockSize * q)
include ha

theorem block_append (i : Nat) : h.block (a ++ m) (q + i) = h.block m i := by
  rw [block, block, Nat.mul_add, ← ha, drop_length_add_append]

/-- Absorbing whole blocks and a message. -/
theorem absorb_append (s : σ) (m : List β) (n : Nat) :
    h.absorb s (a ++ m) (q + n) = h.absorb (h.absorb s a q) m n := by
  induction n with
  | zero =>
    refine absorb_congr fun i hi => block_congr fun j hj => getElem?_append_left ?_
    have := Nat.mul_le_mul_left h.blockSize (show i + 1 ≤ q from hi)
    rw [Nat.mul_succ] at this
    omega
  | succ n ih => rw [← Nat.add_assoc, absorb_succ, ih, block_append ha, absorb_succ]

/-- The digest of a message that starts with whole blocks. -/
theorem digest_append (m : List β) :
    h.digest (a ++ m) = h.output (h.absorb (h.absorb h.init a q)
      (m ++ h.padding (h.blockSize * q + m.length)) (h.numBlocks m.length)) := by
  rw [digest, length_append, ha, numBlocks_mul_add, append_assoc, absorb_append ha]

end

theorem absorb_one {s : σ} (ha : a.length = h.blockSize) : h.absorb s a 1 = h.transform s a := by
  rw [absorb_succ, absorb_zero, block, Nat.mul_zero, drop_zero, ← ha, take_length]

end Hash

end QuicTls.MerkleDamgard
