import QuicTls.Theory.BigEndian
import QuicTls.Ssl.Pqueue

/-!
# Priority queues are sorted

`memcmp` compares priorities as numbers, and an insertion keeps their order.
-/

namespace QuicTls

open List

/-- `memcmp` compares the numbers that the bytes stand for. -/
theorem memcmp_eq_compare {as bs : Bytes} (h : as.length = bs.length) :
    memcmp as bs = compare (BigEndian.decode as) (BigEndian.decode bs) := by
  fun_induction memcmp as bs with
  | case1 a as b bs hlt =>
    have hmul := Nat.mul_le_mul_right (256 ^ as.length) (UInt8.lt_iff_toNat_lt.1 hlt)
    have ha := BigEndian.decode_lt as
    rw [Nat.succ_mul] at hmul
    rw [BigEndian.decode_cons, BigEndian.decode_cons, ← Nat.succ.inj h]
    exact (Nat.compare_eq_lt.2 (by omega)).symm
  | case2 a as b bs _ hlt =>
    have hmul := Nat.mul_le_mul_right (256 ^ bs.length) (UInt8.lt_iff_toNat_lt.1 hlt)
    have hb := BigEndian.decode_lt bs
    rw [Nat.succ_mul] at hmul
    rw [BigEndian.decode_cons, BigEndian.decode_cons, Nat.succ.inj h]
    exact (Nat.compare_eq_gt.2 (by omega)).symm
  | case3 a as b bs hab hba ih =>
    have heq : a = b := UInt8.le_antisymm (UInt8.not_lt.1 hba) (UInt8.not_lt.1 hab)
    rw [ih (Nat.succ.inj h), heq, BigEndian.decode_cons, BigEndian.decode_cons, Nat.succ.inj h,
      Nat.compare_eq_ite_lt, Nat.compare_eq_ite_lt]
    simp only [Nat.add_lt_add_iff_left]
  | case4 as bs hcons =>
    cases as <;> cases bs
    · rfl
    · cases h
    · cases h
    · exact (hcons _ _ _ _ rfl rfl).elim

namespace Pqueue

variable {α : Type} {pq pq' : Pqueue α} {item x : PItem α} {prio : Bytes} {data : α}

/-- The number that stands for a priority. -/
def key (item : PItem α) : Nat := BigEndian.decode item.priority

/-- The priorities have eight bytes and increase. -/
structure Sorted (pq : Pqueue α) : Prop where
  length : ∀ item ∈ pq, item.priority.length = 8
  lt : pq.Pairwise fun a b => key a < key b

theorem sorted_nil : Sorted ([] : Pqueue α) := ⟨nofun, .nil⟩

theorem Sorted.suffix (h : Sorted pq) (hs : pq' <:+ pq) : Sorted pq' :=
  ⟨fun item hi => h.length item (hs.subset hi), h.lt.sublist hs.sublist⟩

/-- Inserting adds the item and nothing else. -/
theorem mem_pqueueInsert (h : pqueueInsert item pq = some pq') : x ∈ pq' ↔ x = item ∨ x ∈ pq := by
  induction pq generalizing pq' with
  | nil =>
    cases h
    exact mem_cons
  | cons next pq ih =>
    unfold pqueueInsert at h
    split at h
    · cases h
      exact mem_cons
    · cases h
    · obtain ⟨q, hq, rfl⟩ := Option.map_eq_some_iff.1 h
      rw [mem_cons, ih hq, mem_cons]
      tauto

/-- An insertion keeps the queue sorted. -/
theorem Sorted.pqueueInsert (h : Sorted pq) (hlen : item.priority.length = 8)
    (hi : pqueueInsert item pq = some pq') : Sorted pq' := by
  refine ⟨fun x hx => ?_, ?_⟩
  · rcases (mem_pqueueInsert hi).1 hx with rfl | hx
    · exact hlen
    · exact h.length x hx
  induction pq generalizing pq' with
  | nil =>
    cases hi
    exact pairwise_singleton ..
  | cons next pq ih =>
    have hnext := h.length next mem_cons_self
    obtain ⟨hhead, htail⟩ := pairwise_cons.1 h.lt
    unfold Pqueue.pqueueInsert at hi
    rw [memcmp_eq_compare (hnext.trans hlen.symm)] at hi
    split at hi
    · rename_i hgt
      cases hi
      have hlt : key item < key next := Nat.compare_eq_gt.1 hgt
      refine pairwise_cons.2 ⟨?_, h.lt⟩
      intro x hx
      rcases mem_cons.1 hx with rfl | hx
      · exact hlt
      · exact hlt.trans (hhead x hx)
    · cases hi
    · rename_i hlt
      obtain ⟨q, hq, rfl⟩ := Option.map_eq_some_iff.1 hi
      refine pairwise_cons.2 ⟨?_, ih (h.suffix (suffix_cons ..)) hq⟩
      intro x hx
      rcases (mem_pqueueInsert hq).1 hx with rfl | hx
      · exact Nat.compare_eq_lt.1 hlt
      · exact hhead x hx

theorem pqueueInsert_of_lt (hlen : ∀ x ∈ pq, x.priority.length = item.priority.length)
    (hlt : ∀ x ∈ pq, key x < key item) : pqueueInsert item pq = some (pq ++ [item]) := by
  induction pq with
  | nil => rfl
  | cons next pq ih =>
    have hcmp : memcmp next.priority item.priority = .lt := by
      rw [memcmp_eq_compare (hlen next mem_cons_self)]
      exact Nat.compare_eq_lt.2 (hlt next mem_cons_self)
    have hrest := ih (fun x hx => hlen x (mem_cons_of_mem _ hx))
      (fun x hx => hlt x (mem_cons_of_mem _ hx))
    unfold Pqueue.pqueueInsert
    rw [hcmp, hrest]
    rfl

theorem Sorted.pqueueFind (h : Sorted pq) (hmem : item ∈ pq) :
    pqueueFind pq item.priority = some item := by
  induction pq with
  | nil => cases hmem
  | cons next pq ih =>
    obtain ⟨hhead, -⟩ := pairwise_cons.1 h.lt
    have hlen := (h.length next mem_cons_self).trans (h.length item hmem).symm
    rw [Pqueue.pqueueFind, find?_cons, memcmp_eq_compare hlen]
    rcases mem_cons.1 hmem with rfl | hmem
    · rw [Nat.compare_eq_eq.2 rfl]
      rfl
    · have hlt : BigEndian.decode next.priority < BigEndian.decode item.priority :=
        hhead item hmem
      rw [Nat.compare_eq_lt.2 hlt]
      exact ih (h.suffix (suffix_cons ..)) hmem

theorem pqueueFind_eq_some (h : pqueueFind pq prio = some item) :
    item ∈ pq ∧ memcmp item.priority prio = .eq :=
  have hp : (memcmp item.priority prio == .eq) = true :=
    find?_some (p := fun item : PItem α => memcmp item.priority prio == .eq) h
  ⟨mem_of_find?_eq_some h, eq_of_beq hp⟩

/-- An update changes the data of items with that priority. -/
theorem mem_update (h : x ∈ update prio data pq) :
    x ∈ pq ∨ x.data = data ∧ ∃ y ∈ pq, x.priority = y.priority ∧ memcmp y.priority prio = .eq := by
  induction pq with
  | nil => cases h
  | cons y pq ih =>
    unfold update at h
    split at h
    · rename_i heq
      rcases mem_cons.1 h with rfl | h
      · exact .inr ⟨rfl, y, mem_cons_self, rfl, eq_of_beq heq⟩
      · exact .inl (mem_cons_of_mem _ h)
    · rcases mem_cons.1 h with rfl | h
      · exact .inl mem_cons_self
      · rcases ih h with hx | ⟨hdata, z, hz, hprio⟩
        · exact .inl (mem_cons_of_mem _ hx)
        · exact .inr ⟨hdata, z, mem_cons_of_mem _ hz, hprio⟩

theorem map_priority_update : (update prio data pq).map PItem.priority = pq.map PItem.priority := by
  induction pq with
  | nil => rfl
  | cons y pq ih =>
    unfold update
    split
    · rfl
    · rw [map_cons, map_cons, ih]

theorem Sorted.update (h : Sorted pq) : Sorted (Pqueue.update prio data pq) := by
  have hmap := @map_priority_update α pq prio data
  have hkeys : (Pqueue.update prio data pq).map key = pq.map key := by
    have := congrArg (List.map BigEndian.decode) hmap
    rwa [map_map, map_map] at this
  constructor
  · intro x hx
    have hmem : x.priority ∈ pq.map PItem.priority := hmap ▸ mem_map_of_mem hx
    obtain ⟨y, hy, heq⟩ := mem_map.1 hmem
    exact heq ▸ h.length y hy
  · have hpairs : (pq.map key).Pairwise (· < ·) := pairwise_map.2 h.lt
    rw [← hkeys] at hpairs
    exact pairwise_map.1 hpairs

end Pqueue
end QuicTls
