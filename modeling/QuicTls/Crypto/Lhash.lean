import Mathlib.Algebra.Order.Ring.Int

/-!
# The hash table (crypto/lhash/lhash.c)

`OPENSSL_LHASH` is a linear hash table: it grows and shrinks by one chain at a time. A chain is the
list of its nodes. Numbers of nodes are `unsigned int`, so the sizes that are computed from them
may wrap. `OPENSSL_realloc` with size zero frees the array and returns `NULL`; the code takes that
for a failure and goes on with the old pointer.
-/

namespace QuicTls

/-- `lhash_node_st`, without `next` -/
structure LhNode (α : Type) where
  data : α
  hash : Nat
  deriving DecidableEq, Repr

/-- `lhash_st` -/
structure Lhash (α : Type) where
  /-- the array of chains, none once it has been freed -/
  b : Option (List (List (LhNode α)))
  numNodes : Nat
  numAllocNodes : Nat
  p : Nat
  pmax : Nat
  upLoad : Nat
  downLoad : Nat
  numItems : Nat
  error : Nat
  deriving DecidableEq, Repr

/-- The functions that the table was made with. -/
structure LhFuns (α : Type) where
  hash : α → Nat
  comp : α → α → Int

/-- Whether the allocations of a call succeed. -/
structure LhAlloc where
  realloc : Bool
  malloc : Bool

namespace Lhash

def minNodes : Nat := 16
def lhLoadMult : Nat := 256

variable {α : Type} (f : LhFuns α) (lh : Lhash α) (b : List (List (LhNode α)))

def new : Lhash α where
  b := some (List.replicate minNodes [])
  numNodes := minNodes / 2
  numAllocNodes := minNodes
  p := 0
  pmax := minNodes / 2
  upLoad := 2 * lhLoadMult
  downLoad := lhLoadMult
  numItems := 0
  error := 0

/-- The load of the table: `num_items * LH_LOAD_MULT / num_nodes`. -/
def load : Nat := lh.numItems * lhLoadMult % 2 ^ 64 / lh.numNodes

/-- The loop of `expand`: the nodes that stay, and those that move. -/
def splitChain (nni p : Nat) : List (LhNode α) → List (LhNode α) → List (LhNode α) →
    List (LhNode α) × List (LhNode α)
  | [], n1, n2 => (n1, n2)
  | np :: rest, n1, n2 =>
    if np.hash % nni ≠ p then splitChain nni p rest n1 (np :: n2)
    else splitChain nni p rest (n1 ++ [np]) n2

/-- The end of `expand`: one more chain, split off chain `p`. -/
def splitNode (nni p pmax : Nat) : Lhash α :=
  let r := splitChain nni p (b.getD p []) [] []
  { lh with numNodes := lh.numNodes + 1, b := some ((b.set p r.1).set (p + pmax) r.2) }

def expand (realloc : Bool) : Lhash α × Bool :=
  let nni := lh.numAllocNodes
  let p := lh.p
  let pmax := lh.pmax
  if pmax ≤ p + 1 then
    let j := nni * 2 % 2 ^ 32
    if j = 0 then ({ lh with b := none, error := lh.error + 1 }, false)
    else if !realloc then ({ lh with error := lh.error + 1 }, false)
    else
      let b := b.take nni ++ List.replicate (j - nni) []
      (splitNode { lh with pmax := nni, numAllocNodes := j, p := 0 } b nni p pmax, true)
  else (splitNode { lh with p := p + 1 } b nni p pmax, true)

/-- The end of `contract`: the chain `np` is added to chain `p`. -/
def mergeNode (np : List (LhNode α)) : Lhash α :=
  { lh with numNodes := lh.numNodes - 1, b := some (b.modify lh.p (· ++ np)) }

def contract (realloc : Bool) : Lhash α :=
  let np := b.getD (lh.p + lh.pmax - 1) []
  let b := b.set (lh.p + lh.pmax - 1) []
  if lh.p = 0 then
    let size := 8 * lh.pmax % 2 ^ 32
    let lh' := { lh with
      numAllocNodes := lh.numAllocNodes / 2
      pmax := lh.pmax / 2
      p := lh.pmax / 2 - 1 }
    if size = 0 then { lh' with b := none, error := lh.error + 1 }
    else if !realloc then mergeNode { lh' with error := lh.error + 1 } b np
    else mergeNode lh' (b.take (size / 8)) np
  else mergeNode { lh with p := lh.p - 1 } b np

/-- The chain of a hash value. -/
def bucket (hash : Nat) : Nat :=
  let nn := hash % lh.pmax
  if nn < lh.p then hash % lh.numAllocNodes else nn

/-- The loop of `getrn`: the nodes before `*rn`, and those from it on. -/
def searchChain (hash : Nat) (data : α) : List (LhNode α) → List (LhNode α) × List (LhNode α)
  | [] => ([], [])
  | n1 :: rest =>
    if n1.hash ≠ hash then
      let r := searchChain hash data rest
      (n1 :: r.1, r.2)
    else if f.comp n1.data data = 0 then ([], n1 :: rest)
    else
      let r := searchChain hash data rest
      (n1 :: r.1, r.2)

/-- `getrn`: the chain, the nodes before `*rn` and those from it on. -/
def getrn (data : α) : Nat × List (LhNode α) × List (LhNode α) :=
  let nn := lh.bucket (f.hash data)
  (nn, searchChain f (f.hash data) data (b.getD nn []))

/-- What a call returns. It is not defined once the array has been freed. -/
inductive Out (α : Type) where
  | undefined
  | item (ret : Option α)
  | visited (items : List α)
  deriving DecidableEq, Repr

/-- `OPENSSL_LH_insert`, after the table has been expanded -/
def insertNode (malloc : Bool) (lh : Lhash α) (data : α) : Lhash α × Out α :=
  match lh.b with
  | none => (lh, .undefined)
  | some b =>
    match getrn f lh b data with
    | (nn, pre, []) =>
      if !malloc then ({ lh with error := lh.error + 1 }, .item none)
      else
        ({ lh with
            b := some (b.set nn (pre ++ [⟨data, f.hash data⟩]))
            numItems := lh.numItems + 1 }, .item none)
    | (nn, pre, n :: rest) =>
      ({ lh with b := some (b.set nn (pre ++ { n with data := data } :: rest)) },
        .item (some n.data))

def insert (alloc : LhAlloc) (lh : Lhash α) (data : α) : Lhash α × Out α :=
  match lh.b with
  | none => (lh, .undefined)
  | some b =>
    let lh := { lh with error := 0 }
    if lh.upLoad ≤ lh.load then
      let r := lh.expand b alloc.realloc
      if !r.2 then (r.1, .item none) else insertNode f alloc.malloc r.1 data
    else insertNode f alloc.malloc lh data

def delete (alloc : LhAlloc) (lh : Lhash α) (data : α) : Lhash α × Out α :=
  match lh.b with
  | none => (lh, .undefined)
  | some b =>
    let lh := { lh with error := 0 }
    match getrn f lh b data with
    | (_, _, []) => (lh, .item none)
    | (nn, pre, n :: rest) =>
      let b := b.set nn (pre ++ rest)
      let lh := { lh with b := some b, numItems := lh.numItems - 1 }
      if minNodes < lh.numNodes ∧ lh.load ≤ lh.downLoad then
        let lh := lh.contract b alloc.realloc
        -- `contract` reads from the array after it was reallocated
        (lh, if lh.b.isNone then .undefined else .item (some n.data))
      else (lh, .item (some n.data))

def retrieve (data : α) : Lhash α × Out α :=
  match lh.b with
  | none => (lh, .undefined)
  | some b =>
    let lh := { lh with error := 0 }
    (lh, .item ((getrn f lh b data).2.2.head?.map LhNode.data))

/-- `doall_util_fn`, with a callback that only looks at the items: those it is called on. The
index is an `int` that starts at `num_nodes - 1`. -/
def doall : Lhash α × Out α :=
  match lh.b with
  | none => (lh, .undefined)
  | some b =>
    let top := ((lh.numNodes : Int) - 1).bmod (2 ^ 32)
    let nodes := (List.range (top + 1).toNat).reverse.flatMap fun i => b.getD i []
    (lh, .visited (nodes.map LhNode.data))

/-- The calls. -/
inductive Op (α : Type) where
  | insert (data : α) (alloc : LhAlloc)
  | delete (data : α) (alloc : LhAlloc)
  | retrieve (data : α)
  | doall

def step : Op α → Lhash α × Out α
  | .insert data alloc => lh.insert f alloc data
  | .delete data alloc => lh.delete f alloc data
  | .retrieve data => lh.retrieve f data
  | .doall => lh.doall

end Lhash
end QuicTls
