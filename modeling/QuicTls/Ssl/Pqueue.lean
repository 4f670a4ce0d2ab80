import QuicTls.Theory.CTypes
import Mathlib.Data.List.Basic

/-!
# Priority queues (ssl/pqueue.c)

A list of items whose priorities are eight bytes, compared by `memcmp`.
-/

namespace QuicTls

/-- `memcmp` of two strings of one length. -/
def memcmp : Bytes → Bytes → Ordering
  | a :: as, b :: bs => if a < b then .lt else if b < a then .gt else memcmp as bs
  | _, _ => .eq

structure PItem (α : Type) where
  priority : Bytes
  data : α

abbrev Pqueue (α : Type) := List (PItem α)

namespace Pqueue

variable {α : Type}

/-- `pqueue_insert`; null when the priority is already there. -/
def pqueueInsert (item : PItem α) : Pqueue α → Option (Pqueue α)
  | [] => some [item]
  | next :: pq =>
    match memcmp next.priority item.priority with
    | .gt => some (item :: next :: pq)
    | .eq => none
    | .lt => (pqueueInsert item pq).map (next :: ·)

def pqueueFind (pq : Pqueue α) (prio64be : Bytes) : Option (PItem α) :=
  pq.find? fun item => memcmp item.priority prio64be == .eq

/-- The data of the item with a priority changes: the callers write through the pointer that
`pqueue_find` returns. -/
def update (prio64be : Bytes) (data : α) : Pqueue α → Pqueue α
  | [] => []
  | item :: pq =>
    if memcmp item.priority prio64be == .eq then ⟨item.priority, data⟩ :: pq
    else item :: update prio64be data pq

end Pqueue
end QuicTls
