import Mathlib.Data.Set.Card

/-!
# Collections that hold a finite map

A map is a function `κ → Option α`; `Function.update` sets and removes values. `Holds key items m`
says that a collection of items, each with its own key, is the map `m`.
-/

namespace QuicTls

open List

variable {α κ : Type*} {key : α → κ} {items : List α} {m : κ → Option α} {a b : α} {k : κ}

/-- The items are the values of the map, one for each key. -/
structure Holds (key : α → κ) (items : List α) (m : κ → Option α) : Prop where
  nodup : (items.map key).Nodup
  mem_iff : ∀ {k a}, m k = some a ↔ a ∈ items ∧ key a = k

namespace Holds

theorem nil : Holds key ([] : List α) fun _ => none := ⟨nodup_nil, by simp⟩

theorem perm {items' : List α} (h : Holds key items m) (hp : items.Perm items') :
    Holds key items' m :=
  ⟨(hp.map key).nodup_iff.1 h.nodup, by simp only [h.mem_iff, hp.mem_iff, implies_true]⟩

theorem eq_some (h : Holds key items m) (ha : a ∈ items) : m (key a) = some a :=
  h.mem_iff.2 ⟨ha, rfl⟩

theorem eq_none_iff (h : Holds key items m) : m k = none ↔ ∀ a ∈ items, key a ≠ k := by
  constructor
  · intro hk a ha hkey
    rw [← hkey, h.eq_some ha] at hk
    cases hk
  intro hk
  cases hm : m k with
  | none => rfl
  | some a =>
    obtain ⟨ha, hkey⟩ := h.mem_iff.1 hm
    exact absurd hkey (hk a ha)

variable [DecidableEq κ]

theorem insert (h : Holds key items m) (hk : m (key a) = none) :
    Holds key (a :: items) (Function.update m (key a) (some a)) := by
  have hnew := h.eq_none_iff.1 hk
  refine ⟨?_, fun {k b} => ?_⟩
  · rw [map_cons, nodup_cons]
    refine ⟨fun hmem => ?_, h.nodup⟩
    obtain ⟨b, hb, hkey⟩ := mem_map.1 hmem
    exact hnew b hb hkey
  rw [mem_cons]
  by_cases hkey : k = key a
  · subst hkey
    rw [Function.update_self]
    constructor
    · intro heq
      cases heq
      exact ⟨.inl rfl, rfl⟩
    · rintro ⟨rfl | hb, hb'⟩
      · rfl
      · exact absurd hb' (hnew b hb)
  · rw [Function.update_of_ne hkey, h.mem_iff]
    constructor
    · exact fun hb => ⟨.inr hb.1, hb.2⟩
    · rintro ⟨rfl | hb, hb'⟩
      · exact absurd hb'.symm hkey
      · exact ⟨hb, hb'⟩

theorem erase (h : Holds key (a :: items) m) :
    Holds key items (Function.update m (key a) none) := by
  have hnodup := h.nodup
  rw [map_cons, nodup_cons] at hnodup
  refine ⟨hnodup.2, fun {k b} => ?_⟩
  by_cases hkey : k = key a
  · subst hkey
    rw [Function.update_self]
    refine ⟨nofun, fun ⟨hb, hb'⟩ => ?_⟩
    exact absurd (mem_map.2 ⟨b, hb, hb'⟩) hnodup.1
  rw [Function.update_of_ne hkey, h.mem_iff, mem_cons]
  constructor
  · rintro ⟨rfl | hb, hb'⟩
    · exact absurd hb'.symm hkey
    · exact ⟨hb, hb'⟩
  · exact fun hb => ⟨.inr hb.1, hb.2⟩

/-- An item takes the place of the one with its key. -/
theorem replace (h : Holds key (a :: items) m) (hkey : key b = key a) :
    Holds key (b :: items) (Function.update m (key b) (some b)) := by
  have hb : (Function.update m (key a) none) (key b) = none := by
    rw [hkey, Function.update_self]
  have := h.erase.insert hb
  rwa [hkey, Function.update_idem, ← hkey] at this

omit [DecidableEq κ] in
/-- There are as many keys as items. -/
theorem ncard (h : Holds key items m) : {k | m k ≠ none}.ncard = items.length := by
  classical
  have hset : {k | m k ≠ none} = ((items.map key).toFinset : Set κ) := by
    ext k
    simp only [ne_eq, h.eq_none_iff, coe_toFinset, mem_map, not_forall,
      Classical.not_not, exists_prop]
  rw [hset, Set.ncard_coe_finset, toFinset_card_of_nodup h.nodup, length_map]

end Holds
end QuicTls
