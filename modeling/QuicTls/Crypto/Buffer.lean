import QuicTls.Theory.Overwrite

/-!
# `BUF_MEM` (crypto/buffer/buffer.c)

A growable buffer. The model keeps the first `length` bytes and the capacity; what lies behind
`length` is never read again, since `bufMemGrow` clears it before it becomes part of the contents.
-/

namespace QuicTls

open List

/-- What a memory cell holds. The code's cells are bytes; cells that carry a tag besides their
byte behave the same way, since the code only looks at `val`. -/
class Cell (β : Type) where
  val : β → UInt8
  zero : β

instance : Cell UInt8 := ⟨id, 0⟩

structure BufMem (β : Type) where
  data : List β
  max : Nat
  length_le_max : data.length ≤ max

namespace BufMem

variable {β : Type}

/-- `BUF_MEM_new`, when the allocation succeeds. -/
def bufMemNew : BufMem β := ⟨[], 0, Nat.le_refl 0⟩

/-- `str->length = 0` -/
def clear (str : BufMem β) : BufMem β := ⟨[], str.max, Nat.zero_le _⟩

@[simp] theorem data_clear (str : BufMem β) : str.clear.data = [] := rfl

/-- `memcpy(str->data + off, src, len)`, within the contents. -/
def write (str : BufMem β) (off : Nat) (src : List β) : BufMem β :=
  ⟨(str.data.take off ++ src ++ str.data.drop (off + src.length)).take str.data.length, str.max,
    Nat.le_trans (List.length_take_le ..) str.length_le_max⟩

@[simp] theorem length_write (str : BufMem β) (off : Nat) (src : List β) :
    (str.write off src).data.length = str.data.length := by
  show ((str.data.take off ++ src ++ str.data.drop (off + src.length)).take _).length = _
  simp only [length_take, length_append, length_drop]
  omega

theorem data_write_eq_overwrite {str : BufMem β} {off : Nat} {src : List β}
    (h : off + src.length ≤ str.data.length) :
    (str.write off src).data = overwrite str.data off src := by
  change (overwrite str.data off src).take str.data.length = _
  rw [← length_overwrite h, take_length]

theorem data_write {str : BufMem β} {off : Nat} {src : List β}
    (h : off + src.length = str.data.length) :
    (str.write off src).data = str.data.take off ++ src := by
  rw [data_write_eq_overwrite (Nat.le_of_eq h), overwrite, h, drop_length, append_nil]

def limitBeforeExpansion : Nat := 0x5ffffffc

variable [Cell β]

/-- Cut the contents to `len` bytes, or extend them with zeros. -/
def resize (str : BufMem β) (len max : Nat) (h : len ≤ max) : BufMem β :=
  ⟨str.data.take len ++ List.replicate (len - str.data.length) Cell.zero, max, by
    rw [List.length_append, List.length_take, List.length_replicate]; omega⟩

/-- `BUF_MEM_grow`: the new buffer and the return value, zero for failure. `realloc` says whether
the allocation, if one is made, succeeds. -/
def bufMemGrow (realloc : Bool) (str : BufMem β) (len : Nat) : BufMem β × Nat :=
  if h : len ≤ str.data.length then
    (str.resize len str.max (Nat.le_trans h str.length_le_max), len)
  else if h : len ≤ str.max then
    (str.resize len str.max h, len)
  else if limitBeforeExpansion < len then
    (str, 0)
  else if realloc then
    (str.resize len ((len + 3) / 3 * 4) (by omega), len)
  else
    (str, 0)

variable {str : BufMem β} {realloc : Bool} {len : Nat}

/-- The contents after a successful `bufMemGrow`. -/
theorem data_bufMemGrow (h : (bufMemGrow realloc str len).2 ≠ 0) :
    (bufMemGrow realloc str len).1.data =
      str.data.take len ++ List.replicate (len - str.data.length) Cell.zero := by
  unfold bufMemGrow at h ⊢
  split
  · rfl
  split
  · rfl
  · split
    · simp_all
    · split
      · rfl
      · simp_all

theorem length_bufMemGrow (h : (bufMemGrow realloc str len).2 ≠ 0) :
    (bufMemGrow realloc str len).1.data.length = len := by
  rw [data_bufMemGrow h, length_append, length_take, length_replicate]
  omega

theorem max_le_bufMemGrow : str.max ≤ (bufMemGrow realloc str len).1.max := by
  unfold bufMemGrow
  split_ifs
  · exact Nat.le_refl _
  · exact Nat.le_refl _
  · exact Nat.le_refl _
  · show str.max ≤ (len + 3) / 3 * 4
    omega
  · exact Nat.le_refl _

/-- A failed `bufMemGrow` changes nothing. -/
theorem bufMemGrow_of_eq_zero (hlen : 0 < len) (h : (bufMemGrow realloc str len).2 = 0) :
    (bufMemGrow realloc str len).1 = str := by
  unfold bufMemGrow at h ⊢
  grind

/-- With memory available, `bufMemGrow` fails only beyond the limit. -/
theorem bufMemGrow_ne_zero (hlen : 0 < len) (hlim : len ≤ limitBeforeExpansion) :
    (bufMemGrow true str len).2 ≠ 0 := by
  unfold bufMemGrow
  grind

end BufMem
end QuicTls
