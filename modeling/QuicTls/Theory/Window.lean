import Mathlib.Data.Set.Insert

/-!
# Sliding windows over sequence numbers

The numbers that were recorded are a set. A number is accepted when it is not among them and not
`width` or more below the largest. `Represents` is the usual implementation: the largest number, and
one bit for each of the `width` numbers that end with it.
-/

namespace QuicTls.Window

variable {width max s : Nat} {recorded : Set Nat} {bit bit' : Nat → Prop}

/-- The number is new, and in the window or above it. -/
def Accepts (width : Nat) (recorded : Set Nat) (s : Nat) : Prop :=
  s ∉ recorded ∧ ∀ m ∈ recorded, m < s + width

/-- Bit `k` stands for the number `max - k`; without any recorded number `max` is zero. -/
structure Represents (width : Nat) (recorded : Set Nat) (max : Nat) (bit : Nat → Prop) : Prop where
  le : ∀ m ∈ recorded, m ≤ max
  largest : max ∈ recorded ∨ recorded = ∅ ∧ max = 0
  bit_iff : ∀ k < width, bit k ↔ ∃ m ∈ recorded, m + k = max

theorem Represents.empty (hbit : ∀ k < width, ¬bit k) : Represents width ∅ 0 bit := by
  refine ⟨nofun, .inr ⟨rfl, rfl⟩, fun k hk => ⟨fun hb => absurd hb (hbit k hk), ?_⟩⟩
  rintro ⟨m, hm, -⟩
  cases hm

/-- What an implementation has to test. -/
theorem Represents.accepts_iff (h : Represents width recorded max bit) (hw : 0 < width) :
    Accepts width recorded s ↔ max < s ∨ max - s < width ∧ ¬bit (max - s) := by
  constructor
  · intro ⟨hnew, hwindow⟩
    rcases Nat.lt_or_ge max s with hs | hs
    · exact .inl hs
    have hk : max - s < width := by
      rcases h.largest with hmax | ⟨-, hzero⟩
      · have := hwindow max hmax
        omega
      · omega
    refine .inr ⟨hk, fun hbit => hnew ?_⟩
    obtain ⟨m, hm, heq⟩ := (h.bit_iff _ hk).1 hbit
    have : m = s := by omega
    exact this ▸ hm
  · intro hs
    refine ⟨fun hm => ?_, fun m hm => ?_⟩
    · have := h.le s hm
      obtain ⟨hk, hbit⟩ := hs.resolve_left (by omega)
      exact hbit ((h.bit_iff _ hk).2 ⟨s, hm, by omega⟩)
    · have := h.le m hm
      rcases hs with hs | ⟨hk, -⟩ <;> omega

/-- A number above the window is recorded: the window moves. -/
theorem Represents.advance (h : Represents width recorded max bit) (hs : max < s)
    (hbit : ∀ k < width, bit' k ↔ k = 0 ∨ s - max ≤ k ∧ bit (k - (s - max))) :
    Represents width (insert s recorded) s bit' := by
  refine ⟨?_, .inl (Set.mem_insert ..), fun k hk => ?_⟩
  · rintro m (rfl | hm)
    · exact Nat.le_refl _
    · have := h.le m hm
      omega
  rw [hbit k hk]
  constructor
  · rintro (rfl | ⟨hshift, hb⟩)
    · exact ⟨s, Set.mem_insert .., rfl⟩
    · obtain ⟨m, hm, heq⟩ := (h.bit_iff _ (by omega)).1 hb
      exact ⟨m, Set.mem_insert_of_mem _ hm, by omega⟩
  · rintro ⟨m, rfl | hm, heq⟩
    · exact .inl (by omega)
    · have := h.le m hm
      exact .inr ⟨by omega, (h.bit_iff _ (by omega)).2 ⟨m, hm, by omega⟩⟩

/-- A number in the window is recorded: its bit is set. -/
theorem Represents.mark (h : Represents width recorded max bit) (hs : s ≤ max)
    (hbit : ∀ k < width, bit' k ↔ bit k ∨ k = max - s) :
    Represents width (insert s recorded) max bit' := by
  refine ⟨?_, ?_, fun k hk => ?_⟩
  · rintro m (rfl | hm)
    · exact hs
    · exact h.le m hm
  · rcases h.largest with hmax | ⟨-, hzero⟩
    · exact .inl (Set.mem_insert_of_mem _ hmax)
    · have : s = max := by omega
      exact .inl (this ▸ Set.mem_insert ..)
  rw [hbit k hk, h.bit_iff k hk]
  constructor
  · rintro (⟨m, hm, heq⟩ | rfl)
    · exact ⟨m, Set.mem_insert_of_mem _ hm, heq⟩
    · exact ⟨s, Set.mem_insert .., by omega⟩
  · rintro ⟨m, rfl | hm, heq⟩
    · exact .inr (by omega)
    · exact .inl ⟨m, hm, heq⟩

end QuicTls.Window
