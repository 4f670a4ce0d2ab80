import Mathlib.Data.List.Sort
import QuicTls.Theory.CTypes

/-!
# Stacks (crypto/stack/stack.c, crypto/bsearch.c)

A pointer is an `Option`, `NULL` is `none`; `num` is the number of elements of `data`. Pointers have
eight bytes. The indices of `ossl_bsearch` are of type `int`: where their arithmetic overflows the
search is undefined, and the functions return no result.
-/

namespace QuicTls

/-- The results of a comparison function order the elements, with ties. -/
structure TotalPreorder {β : Type} (c : β → β → Int) : Prop where
  flip (x y : β) : c x y ≤ 0 ↔ 0 ≤ c y x
  trans {x y z : β} : c x y ≤ 0 → c y z ≤ 0 → c x z ≤ 0

/-- `struct stack_st`; only elements that are in order have the flag `sorted`. -/
structure Stack (α : Type) where
  data : List (Option α)
  comp : Option (Option α → Option α → Int)
  sorted : Bool
  ordered : ∀ c, comp = some c → TotalPreorder c → sorted = true → data.Pairwise (c · · ≤ 0)

namespace Stack

variable {α : Type} [DecidableEq α]

def insert (st : Stack α) (data : Option α) (loc : Int) : Stack α where
  data :=
    if loc ≥ st.data.length ∨ loc < 0 then st.data ++ [data] else st.data.insertIdx loc.toNat data
  comp := st.comp
  sorted := false
  ordered := nofun

def internalDelete (st : Stack α) (loc : Nat) : Stack α where
  data := st.data.eraseIdx loc
  comp := st.comp
  sorted := st.sorted
  ordered c hc hpre hs := (st.ordered c hc hpre hs).sublist (List.eraseIdx_sublist ..)

/-- `OPENSSL_sk_sort`, where `qsort` is a sort by insertion -/
def sort (st : Stack α) : Stack α :=
  match hc : st.comp, st.sorted with
  | some c, false =>
    { data := st.data.insertionSort (c · · ≤ 0), comp := some c, sorted := true
      ordered := by
        rintro _ ⟨⟩ hpre -
        have : Std.Total (c · · ≤ 0) := ⟨fun x y => by have := hpre.flip y x; omega⟩
        have : IsTrans _ (c · · ≤ 0) := ⟨fun _ _ _ => hpre.trans⟩
        exact List.pairwise_insertionSort .. }
  | _, _ => st

end Stack

end QuicTls
