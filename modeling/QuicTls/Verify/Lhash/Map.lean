import QuicTls.Verify.Lhash.Contents

/-!
# The hash table is a finite map

`Sizes` is about the numbers of the table, and `Represents` says that the table holds a map. Every
call does to the map what it should, as long as the sizes that are passed to `OPENSSL_realloc` do
not wrap (`lhash_is_finite_map`).
-/

namespace QuicTls.Lhash

open List

variable {α : Type} {f : LawfulFuns α} {m : f.Map} {b : List (List (LhNode α))} {lh : Lhash α}
  {hash : Nat} {data : α} {n : LhNode α} {nodes pre rest : List (LhNode α)} {nn k : Nat}
  {g : LhFuns α} {alloc : LhAlloc}

/-! ## The numbers of the table -/

structure Sizes (lh : Lhash α) : Prop where
  pmax_eq : ∃ e, 3 ≤ e ∧ e ≤ 30 ∧ lh.pmax = 2 ^ e
  alloc_eq : lh.numAllocNodes = 2 * lh.pmax
  nodes_eq : lh.numNodes = lh.pmax + lh.p
  p_lt : lh.p < lh.pmax
  items_le : lh.numItems ≤ 2 * lh.numNodes
  upLoad_eq : lh.upLoad = 512
  downLoad_eq : lh.downLoad = 256

namespace Sizes

section
variable (h : Sizes lh)
include h

theorem pmax_le : lh.pmax ≤ 2 ^ 30 := by
  obtain ⟨e, -, he, hpmax⟩ := h.pmax_eq
  rw [hpmax]
  exact Nat.pow_le_pow_right (by decide) he

theorem eight_le : 8 ≤ lh.pmax := by
  obtain ⟨e, he, -, hpmax⟩ := h.pmax_eq
  rw [hpmax]
  exact Nat.pow_le_pow_right (n := 2) (by decide) he

theorem load_eq : lh.load = lh.numItems * 256 / lh.numNodes := by
  have := h.pmax_le
  have := h.nodes_eq
  have := h.p_lt
  have := h.items_le
  rw [load, lhLoadMult, Nat.mod_eq_of_lt (by omega)]

theorem nodes_pos : 0 < lh.numNodes := by
  have := h.eight_le
  have := h.nodes_eq
  omega

/-- The table is expanded when it has two items for each chain. -/
theorem upLoad_le_iff : lh.upLoad ≤ lh.load ↔ 2 * lh.numNodes ≤ lh.numItems := by
  rw [h.load_eq, h.upLoad_eq, Nat.le_div_iff_mul_le h.nodes_pos]
  omega

theorem load_le_iff : lh.load ≤ lh.downLoad ↔ lh.numItems * 256 < 257 * lh.numNodes := by
  rw [h.load_eq, h.downLoad_eq, ← Nat.lt_succ_iff, Nat.div_lt_iff_lt_mul h.nodes_pos]

theorem fewer (d : Nat) : Sizes { lh with numItems := lh.numItems - d } :=
  { h with items_le := (Nat.sub_le _ _).trans h.items_le }

theorem bucket_eq : lh.bucket hash = linearBucket lh.pmax lh.p hash := by
  simp [bucket, linearBucket, h.alloc_eq]

end

end Sizes

/-- Every call but `OPENSSL_LH_doall` clears the error first. -/
def reset (lh : Lhash α) : Lhash α := { lh with error := 0 }

/-- The table represents the map. -/
structure Represents (f : LawfulFuns α) (lh : Lhash α) (b : List (List (LhNode α)))
    (nodes : List (LhNode α)) (m : f.Map) : Prop extends Sizes lh where
  array : lh.b = some b
  length_le : lh.numAllocNodes ≤ b.length
  chains : Chains LhNode.hash lh.pmax lh.p b nodes
  contents : Contents f nodes m
  items_eq : lh.numItems = nodes.length

namespace Represents

theorem new : Represents f new (List.replicate 16 []) [] fun _ => none where
  pmax_eq := ⟨3, by decide, by decide, rfl⟩
  alloc_eq := rfl
  nodes_eq := rfl
  p_lt := Nat.zero_lt_succ 7
  items_le := Nat.zero_le _
  upLoad_eq := rfl
  downLoad_eq := rfl
  array := rfl
  length_le := Nat.le_refl 16
  chains i := by
    rw [getD_eq_getElem?_getD, getElem?_replicate]
    split <;> rfl
  contents := ⟨by simp, Holds.nil⟩
  items_eq := rfl

theorem split_chain {pmax p : Nat} (h : Chains LhNode.hash pmax p b nodes) (hp : p < pmax)
    (hlen : p + pmax < b.length) :
    Chains LhNode.hash pmax (p + 1)
      ((b.set p (splitChain (2 * pmax) p (b.getD p []) [] []).1).set (p + pmax)
        (splitChain (2 * pmax) p (b.getD p []) [] []).2) nodes := by
  rw [splitChain_eq, append_nil]
  exact h.split hp hlen (.refl _) (reverse_perm _)

/-- The last chain is merged into the one it was split from. -/
theorem mergeNode (h : Sizes (lh.mergeNode [] []))
    (hchains : Chains LhNode.hash lh.pmax (lh.p + 1) b nodes) (hcontents : Contents f nodes m)
    (hlen : lh.numAllocNodes ≤ b.length) (hitems : lh.numItems = nodes.length) :
    ∃ b', Represents f
      (lh.mergeNode (b.set (lh.p + lh.pmax) []) (b.getD (lh.p + lh.pmax) [])) b' nodes m := by
  have halloc : lh.numAllocNodes = 2 * lh.pmax := h.alloc_eq
  have hp : lh.p < lh.pmax := h.p_lt
  have hmerge := hchains.merge hp (by omega)
  have hchain : (b.set (lh.p + lh.pmax) []).getD lh.p [] = b.getD lh.p [] := by
    rw [getD_set (by omega), if_neg (by omega)]
  have hlt : lh.p < (b.set (lh.p + lh.pmax) []).length := by
    rw [length_set]
    omega
  exact ⟨_,
    { h with
      array := rfl
      length_le := by simpa [Lhash.mergeNode] using hlen
      chains := by
        rw [modify_eq_set_getElem?, getElem?_eq_getElem hlt, ← getD_eq_getElem _ [] hlt, hchain]
        exact hmerge
      contents := hcontents
      items_eq := hitems }⟩

section

variable (h : Represents f lh b nodes m)
include h

theorem bucket_lt : linearBucket lh.pmax lh.p hash < b.length := by
  have hlt : linearBucket lh.pmax lh.p hash < lh.pmax + lh.p := linearBucket_lt h.p_lt
  have := h.alloc_eq
  have := h.length_le
  have := h.p_lt
  omega

theorem setError (error : Nat) : Represents f { lh with error := error } b nodes m := { h with }

theorem reset : Represents f lh.reset b nodes m := h.setError 0

theorem expand_failed (hfull : lh.pmax ≤ lh.p + 1) (hfits : lh.numAllocNodes * 2 < 2 ^ 32) :
    lh.expand b false = ({ lh with error := lh.error + 1 }, false) := by
  have halloc := h.alloc_eq
  have hp := h.p_lt
  have hj : lh.numAllocNodes * 2 % 2 ^ 32 ≠ 0 := by omega
  simp only [expand, if_pos hfull, if_neg hj, Bool.not_false, if_true]

/-- One more chain, and the same map. -/
theorem expand {realloc : Bool} (hfits : lh.pmax ≤ lh.p + 1 → lh.numAllocNodes * 2 < 2 ^ 32)
    (hok : lh.pmax ≤ lh.p + 1 → realloc = true) :
    (lh.expand b realloc).2 = true ∧ (lh.expand b realloc).1.numNodes = lh.numNodes + 1 ∧
      (lh.expand b realloc).1.numItems = lh.numItems ∧
      (lh.expand b realloc).1.error = lh.error ∧
      ∃ b', Represents f (lh.expand b realloc).1 b' nodes m := by
  have halloc := h.alloc_eq
  have hnodes := h.nodes_eq
  have hp := h.p_lt
  have hlen := h.length_le
  have hitems := h.items_le
  by_cases hfull : lh.pmax ≤ lh.p + 1
  · have hj : lh.numAllocNodes * 2 % 2 ^ 32 = lh.numAllocNodes * 2 :=
      Nat.mod_eq_of_lt (hfits hfull)
    have hne : lh.numAllocNodes * 2 ≠ 0 := by omega
    have hlast : lh.p + 1 = lh.pmax := by omega
    have hresize := h.chains.resize hp (k := lh.numAllocNodes) (by omega)
      (lh.numAllocNodes * 2 - lh.numAllocNodes)
    have hsplit := split_chain hresize hp (by
      rw [length_append, length_take]
      omega)
    rw [hlast, Chains.full_iff (by omega), ← halloc] at hsplit
    simp only [Lhash.expand, if_pos hfull, hj, if_neg hne, hok hfull, Bool.not_true,
      Bool.false_eq_true, if_false, splitNode]
    exact ⟨trivial, trivial, trivial, trivial, _,
      { h with
        pmax_eq := by
          obtain ⟨e, he, -, hpmax⟩ := h.pmax_eq
          have hpow : lh.numAllocNodes = 2 ^ (e + 1) := by rw [halloc, hpmax, Nat.pow_succ']
          have hlt : 2 ^ (e + 1) < 2 ^ 31 := by
            omega
          have := (Nat.pow_lt_pow_iff_right (by decide : 1 < 2)).1 hlt
          exact ⟨e + 1, by omega, by omega, hpow⟩
        alloc_eq := Nat.mul_comm _ _
        nodes_eq := by dsimp only; omega
        p_lt := by dsimp only; omega
        items_le := by dsimp only; omega
        array := rfl
        length_le := by
          simp only [length_set, length_append, length_take, length_replicate]
          omega
        chains := hsplit }⟩
  · have hsplit := split_chain h.chains hp (by omega)
    rw [← halloc] at hsplit
    simp only [Lhash.expand, if_neg hfull, splitNode]
    exact ⟨trivial, trivial, trivial, trivial, _,
      { h with
        nodes_eq := by dsimp only; omega
        p_lt := by dsimp only; omega
        items_le := by dsimp only; omega
        array := rfl
        length_le := by simpa using hlen
        chains := hsplit }⟩

/-- One chain less, and the same map. -/
theorem contract (realloc : Bool) (hnodes : minNodes < lh.numNodes) (hload : lh.load ≤ lh.downLoad)
    (hfits : lh.p = 0 → 8 * lh.pmax < 2 ^ 32) :
    ∃ b', Represents f (lh.contract b realloc) b' nodes m := by
  have halloc := h.alloc_eq
  have hnodes' := h.nodes_eq
  have hp := h.p_lt
  have hlen := h.length_le
  have hitems : lh.numItems * 256 < 257 * lh.numNodes := h.load_le_iff.1 hload
  simp only [minNodes] at hnodes
  by_cases hzero : lh.p = 0
  · -- the table has as many chains as before it was last doubled
    obtain ⟨e, he, he', hpmax⟩ := h.pmax_eq
    have hfour : 4 ≤ e := by
      by_contra hlt
      have hthree : e = 3 := by omega
      rw [hthree] at hpmax
      omega
    obtain ⟨d, rfl⟩ : ∃ d, e = d + 1 := ⟨e - 1, by omega⟩
    rw [Nat.pow_succ'] at hpmax
    have hhalf : lh.pmax / 2 = 2 ^ d := by omega
    have hpos : 0 < 2 ^ d := Nat.two_pow_pos d
    have hindex : lh.p + lh.pmax - 1 = lh.pmax / 2 - 1 + lh.pmax / 2 := by omega
    have hchains := h.chains
    rw [hzero] at hchains
    have hmerge {b' : List (List (LhNode α))} (hb' : Chains LhNode.hash lh.pmax 0 b' nodes) :
        Chains LhNode.hash (lh.pmax / 2) (lh.pmax / 2 - 1 + 1) b' nodes := by
      rwa [hhalf, Nat.sub_add_cancel hpos, Chains.full_iff hpos, ← hpmax]
    have hsize : 8 * lh.pmax % 2 ^ 32 = 8 * lh.pmax := Nat.mod_eq_of_lt (hfits hzero)
    have hne : 8 * lh.pmax ≠ 0 := by omega
    have hsizes (error : Nat) : Sizes ({ lh with
        numAllocNodes := lh.numAllocNodes / 2, pmax := lh.pmax / 2, p := lh.pmax / 2 - 1,
        error := error }.mergeNode [] []) := by
      refine ⟨⟨d, by omega, by omega, hhalf⟩, ?_, ?_, ?_, ?_, h.upLoad_eq, h.downLoad_eq⟩ <;>
        dsimp only [Lhash.mergeNode] <;> omega
    cases realloc with
    | false =>
      simp only [Lhash.contract, if_pos hzero, hsize, if_neg hne]
      rw [hindex]
      exact mergeNode (hsizes _) (hmerge hchains) h.contents (by dsimp only; omega) h.items_eq
    | true =>
      have htake : 8 * lh.pmax / 8 = lh.pmax := Nat.mul_div_cancel_left _ (by decide)
      have hnp : b.getD (lh.pmax / 2 - 1 + lh.pmax / 2) [] =
          (b.take lh.pmax).getD (lh.pmax / 2 - 1 + lh.pmax / 2) [] := by
        rw [getD_eq_getElem?_getD, getD_eq_getElem?_getD, getElem?_take_of_lt (by omega)]
      have hresize := hchains.resize (by omega) (Nat.le_refl _) 0
      rw [replicate_zero, append_nil] at hresize
      simp only [Lhash.contract, if_pos hzero, hsize, if_neg hne, htake]
      rw [hindex, take_set, hnp]
      exact mergeNode (hsizes _) (hmerge hresize) h.contents
        (by rw [length_take]; dsimp only; omega) h.items_eq
  · obtain ⟨q, hq⟩ : ∃ q, lh.p = q + 1 := ⟨lh.p - 1, by omega⟩
    have hchains := h.chains
    rw [hq] at hchains
    have hindex : q + 1 + lh.pmax - 1 = q + lh.pmax := by omega
    simp only [Lhash.contract, hq, hindex]
    have hsizes : Sizes ({ lh with p := q }.mergeNode [] []) := by
      refine ⟨h.pmax_eq, halloc, ?_, ?_, ?_, h.upLoad_eq, h.downLoad_eq⟩ <;>
        dsimp only [Lhash.mergeNode] <;> omega
    exact mergeNode hsizes hchains h.contents hlen h.items_eq

theorem getrn (data : α) : ∃ nn pre rest,
    getrn f.toLhFuns lh b data = (nn, pre, rest) ∧
      nn = linearBucket lh.pmax lh.p (f.hash data) ∧ nn < b.length ∧
      b.getD nn [] = pre ++ rest ∧ m (f.key data) = rest.head?.map LhNode.data ∧
      ∀ n ∈ rest.head?, f.key data = f.key n.data := by
  refine ⟨_, _, _, ?_, rfl, h.bucket_lt, h.contents.search h.chains rfl⟩
  simp [Lhash.getrn, h.bucket_eq]

/-- The node of a chain, before the others. -/
theorem node (hchain : b.getD nn [] = pre ++ n :: rest) :
    linearBucket lh.pmax lh.p n.hash = nn ∧ ∃ nodes', Represents f lh b (n :: nodes') m := by
  have hn : n ∈ b.getD nn [] := hchain ▸ mem_append_right _ mem_cons_self
  obtain ⟨hmem, hbucket⟩ := h.chains.mem_iff.1 hn
  obtain ⟨s, t, hnodes⟩ := append_of_mem hmem
  have hp : nodes ~ n :: (s ++ t) := hnodes ▸ perm_middle
  exact ⟨hbucket, s ++ t, { h with
    chains := h.chains.perm hp
    contents := h.contents.perm hp
    items_eq := h.items_eq.trans hp.length_eq }⟩

end

end Represents

/-- An insert needs a larger array. -/
def NeedsRealloc (lh : Lhash α) : Prop := lh.upLoad ≤ lh.load ∧ lh.pmax ≤ lh.p + 1

/-- An insert that cannot allocate: the larger array, or the node of a new key. -/
def CannotAllocate (f : LawfulFuns α) (lh : Lhash α) (m : f.Map) (data : α) (alloc : LhAlloc) :
    Prop :=
  (alloc.realloc = false ∧ lh.NeedsRealloc) ∨ (alloc.malloc = false ∧ m (f.key data) = none)

/-- What a call of `OPENSSL_LH_insert` does to the map. -/
structure Inserts (f : LawfulFuns α) (m : f.Map) (data : α) (failed : Prop)
    (r : Lhash α × Out α) (m' : f.Map) : Prop where
  failure : failed → r.2 = .item none ∧ r.1.error ≠ 0 ∧ m' = m
  success : ¬failed → r.2 = .item (m (f.key data)) ∧ r.1.error = 0 ∧
    m' = Function.update m (f.key data) (some data)

theorem Inserts.of_iff {p q : Prop} {r : Lhash α × Out α} {m' : f.Map}
    (h : Inserts f m data p r m') (hiff : q ↔ p) : Inserts f m data q r m' := by
  rwa [hiff]

/-- What a call on the map does: its result and the map afterwards. -/
def Meets (f : LawfulFuns α) (lh : Lhash α) (m : f.Map) (r : Lhash α × Out α) (m' : f.Map) :
    Op α → Prop
  | .insert data alloc => Inserts f m data (CannotAllocate f lh m data alloc) r m'
  | .delete data _ =>
    r.2 = .item (m (f.key data)) ∧ m' = Function.update m (f.key data) none
  | .retrieve data => r.2 = .item (m (f.key data)) ∧ m' = m
  | .doall => (∃ items, r.2 = .visited items ∧ Holds f.key items m) ∧ m' = m

/-- The sizes that a call passes to `OPENSSL_realloc` do not wrap. -/
def Fits (f : LhFuns α) (lh : Lhash α) : Op α → Prop
  | .insert _ _ => lh.NeedsRealloc → lh.numAllocNodes * 2 < 2 ^ 32
  | .delete data _ =>
    (lh.retrieve f data).2 ≠ .item none → minNodes < lh.numNodes →
      { lh with numItems := lh.numItems - 1 }.load ≤ lh.downLoad → lh.p = 0 →
      8 * lh.pmax < 2 ^ 32
  | .retrieve _ => True
  | .doall => True

theorem insert_eq (hb : lh.b = some b) :
    lh.insert g alloc data =
      if lh.upLoad ≤ lh.load then
        if !(lh.reset.expand b alloc.realloc).2 then
          ((lh.reset.expand b alloc.realloc).1, .item none)
        else Lhash.insertNode g alloc.malloc (lh.reset.expand b alloc.realloc).1 data
      else Lhash.insertNode g alloc.malloc lh.reset data := by
  cases lh
  cases hb
  rfl

theorem retrieve_eq (hb : lh.b = some b) :
    lh.retrieve g data =
      (lh.reset, .item ((getrn g lh.reset b data).2.2.head?.map LhNode.data)) := by
  cases lh
  cases hb
  rfl

theorem doall_eq (hb : lh.b = some b) :
    lh.doall = (lh, .visited (((List.range
      (((lh.numNodes : Int) - 1).bmod (2 ^ 32) + 1).toNat).reverse.flatMap
        fun i => b.getD i []).map LhNode.data)) := by
  cases lh
  cases hb
  rfl

/-- The table after the node has been taken out. -/
def unlinked (lh : Lhash α) (b : List (List (LhNode α))) : Lhash α :=
  { lh with b := some b, numItems := lh.numItems - 1, error := 0 }

theorem delete_nil (hb : lh.b = some b) (hs : getrn g lh.reset b data = (nn, pre, [])) :
    lh.delete g alloc data = (lh.reset, .item none) := by
  cases lh
  cases hb
  simp only [Lhash.delete, reset] at hs ⊢
  rw [hs]

theorem delete_cons (hb : lh.b = some b) (hs : getrn g lh.reset b data = (nn, pre, n :: rest)) :
    lh.delete g alloc data =
      if minNodes < lh.numNodes ∧ (lh.unlinked (b.set nn (pre ++ rest))).load ≤ lh.downLoad then
        ((lh.unlinked (b.set nn (pre ++ rest))).contract (b.set nn (pre ++ rest)) alloc.realloc,
          if ((lh.unlinked (b.set nn (pre ++ rest))).contract (b.set nn (pre ++ rest))
            alloc.realloc).b.isNone then .undefined else .item (some n.data))
      else (lh.unlinked (b.set nn (pre ++ rest)), .item (some n.data)) := by
  cases lh
  cases hb
  simp only [Lhash.delete, reset] at hs ⊢
  rw [hs]
  rfl

/-! ### The calls keep the map -/

namespace Represents

theorem not_full (h : Sizes lh) (hload : ¬lh.upLoad ≤ lh.load) : lh.numItems < 2 * lh.numNodes := by
  rw [h.upLoad_le_iff] at hload
  omega

variable (h : Represents f lh b nodes m)
include h

/-- The new item is linked in, or replaces the one with its key. -/
theorem insertNode (malloc : Bool) (data : α) (hroom : lh.numItems < 2 * lh.numNodes)
    (herror : lh.error = 0) :
    ∃ m' b' nodes', Inserts f m data (malloc = false ∧ m (f.key data) = none)
        (insertNode f.toLhFuns malloc lh data) m' ∧
      Represents f (insertNode f.toLhFuns malloc lh data).1 b' nodes' m' ∧
      (insertNode f.toLhFuns malloc lh data).1.numNodes = lh.numNodes := by
  obtain ⟨nn, pre, rest, hs, hnn, hlt, hchain, hm, hkey⟩ := h.getrn data
  unfold Lhash.insertNode
  rw [h.array]
  dsimp only
  rw [hs]
  cases rest with
  | nil =>
    have hnone : m (f.key data) = none := hm
    rw [append_nil] at hchain
    cases malloc with
    | false =>
      refine ⟨m, b, nodes, ⟨fun _ => ⟨rfl, Nat.succ_ne_zero _, rfl⟩, fun hok => ?_⟩, ?_, rfl⟩
      · exact absurd ⟨rfl, hnone⟩ hok
      · exact { h with array := rfl }
    | true =>
      refine ⟨_, b.set nn (pre ++ [⟨data, f.hash data⟩]), ⟨data, f.hash data⟩ :: nodes,
        ⟨fun hfail => (nomatch hfail.1), fun _ => ⟨?_, herror, rfl⟩⟩, ?_, rfl⟩
      · rw [hnone]
        rfl
      exact
        { h with
          items_le := hroom
          array := rfl
          length_le := by
            rw [length_set]
            exact h.length_le
          chains := h.chains.cons hlt hnn.symm (hchain ▸ perm_append_singleton _ _)
          contents := h.contents.add hnone
          items_eq := congrArg (· + 1) h.items_eq }
  | cons n rest =>
    have hsome : m (f.key data) = some n.data := hm
    obtain ⟨hbucket, nodes', h⟩ := h.node hchain
    refine ⟨_, b.set nn (pre ++ { n with data := data } :: rest), { n with data := data } :: nodes',
      ⟨fun hfail => ?_, fun _ => ⟨?_, herror, rfl⟩⟩, ?_, rfl⟩
    · rw [hsome] at hfail
      exact nomatch hfail.2
    · rw [hsome]
    have hrest := h.chains.of_cons hlt hbucket (hchain ▸ perm_middle)
    have hnew := hrest.cons (n := { n with data := data }) (by rwa [length_set]) hbucket
      (c := pre ++ { n with data := data } :: rest) (by
        rw [getD_set hlt, if_pos rfl]
        exact perm_middle)
    rw [set_set] at hnew
    exact
      { h with
        array := rfl
        length_le := by
          rw [length_set]
          exact h.length_le
        chains := hnew
        contents := h.contents.replace (hkey n rfl) }

theorem unlinked (hnn : nn < b.length) (hchain : b.getD nn [] = pre ++ n :: rest)
    (hkey : f.key data = f.key n.data) :
    ∃ nodes', Represents f (lh.unlinked (b.set nn (pre ++ rest))) (b.set nn (pre ++ rest)) nodes'
      (Function.update m (f.key data) none) := by
  obtain ⟨hbucket, nodes', h⟩ := h.node hchain
  exact ⟨nodes', { h with
    items_le := (Nat.sub_le _ _).trans h.items_le
    array := rfl
    length_le := by
      rw [length_set]
      exact h.length_le
    chains := h.chains.of_cons hnn hbucket (hchain ▸ perm_middle)
    contents := h.contents.unlink hkey
    items_eq := congrArg (· - 1) h.items_eq }⟩

/-- `OPENSSL_LH_insert` updates the map, unless it cannot allocate. -/
theorem insert (alloc : LhAlloc) (data : α) (hfits : lh.Fits f.toLhFuns (.insert data alloc)) :
    ∃ m' b' nodes', Inserts f m data (CannotAllocate f lh m data alloc)
        (lh.insert f.toLhFuns alloc data) m' ∧
      Represents f (lh.insert f.toLhFuns alloc data).1 b' nodes' m' ∧
      (alloc.realloc = true → (lh.insert f.toLhFuns alloc data).1.numNodes =
        if lh.upLoad ≤ lh.load then lh.numNodes + 1 else lh.numNodes) := by
  rw [insert_eq h.array]
  by_cases hload : lh.upLoad ≤ lh.load
  · rw [if_pos hload]
    by_cases hfail : lh.pmax ≤ lh.p + 1 ∧ alloc.realloc = false
    · obtain ⟨hfull, hrealloc⟩ := hfail
      rw [hrealloc, h.reset.expand_failed hfull (hfits ⟨hload, hfull⟩)]
      refine ⟨m, b, nodes, ⟨fun _ => ⟨rfl, Nat.one_ne_zero, rfl⟩, fun hok => ?_⟩,
        h.setError _, nofun⟩
      exact absurd (.inl ⟨hrealloc, hload, hfull⟩) hok
    have hok (hfull : lh.pmax ≤ lh.p + 1) : alloc.realloc = true := by
      cases hr : alloc.realloc
      · exact absurd ⟨hfull, hr⟩ hfail
      · rfl
    obtain ⟨htrue, hnodes, hitems, herror, b', h'⟩ :=
      h.reset.expand (fun hfull => hfits ⟨hload, hfull⟩) hok
    have hroom := h.items_le
    rw [htrue]
    obtain ⟨m', b'', nodes', hins, hrep, hsame⟩ := h'.insertNode alloc.malloc data (by
      rw [hnodes, hitems]
      have hlt := Nat.mul_lt_mul_of_pos_left (Nat.lt_succ_self lh.numNodes) Nat.two_pos
      exact Nat.lt_of_le_of_lt hroom hlt)
      herror
    refine ⟨m', b'', nodes',
      hins.of_iff (or_iff_right fun hcannot => hfail ⟨hcannot.2.2, hcannot.1⟩), hrep, fun _ => ?_⟩
    rw [if_pos hload]
    exact hsame.trans hnodes
  · rw [if_neg hload]
    obtain ⟨m', b', nodes', hins, hrep, hsame⟩ := h.reset.insertNode alloc.malloc data
      (not_full h.reset.toSizes hload) rfl
    refine ⟨m', b', nodes', hins.of_iff (or_iff_right fun hcannot => hload hcannot.2.1), hrep,
      fun _ => ?_⟩
    rw [if_neg hload]
    exact hsame

theorem retrieve (data : α) : lh.retrieve f.toLhFuns data = (lh.reset, .item (m (f.key data))) := by
  obtain ⟨nn, pre, rest, hs, -, -, -, hm, -⟩ := h.reset.getrn data
  rw [retrieve_eq h.array, hs, hm]

/-- `OPENSSL_LH_delete` removes the key from the map. -/
theorem delete (alloc : LhAlloc) (data : α) (hfits : lh.Fits f.toLhFuns (.delete data alloc)) :
    (lh.delete f.toLhFuns alloc data).2 = .item (m (f.key data)) ∧
      ∃ b' nodes', Represents f (lh.delete f.toLhFuns alloc data).1 b' nodes'
        (Function.update m (f.key data) none) ∧
      (lh.downLoad < { lh with numItems := lh.numItems - 1 }.load →
        (lh.delete f.toLhFuns alloc data).1.numNodes = lh.numNodes) := by
  obtain ⟨nn, pre, rest, hs, -, hlt, hchain, hm, hkey⟩ := h.reset.getrn data
  cases rest with
  | nil =>
    have hnone : m (f.key data) = none := hm
    rw [delete_nil h.array hs, ← hnone, Function.update_eq_self]
    exact ⟨by rw [hnone], b, nodes, h.reset, fun _ => rfl⟩
  | cons n rest =>
    have hsome : m (f.key data) = some n.data := hm
    obtain ⟨nodes', hunlinked⟩ := h.unlinked hlt hchain (hkey n rfl)
    rw [delete_cons h.array hs, hsome]
    split
    · rename_i hcontract
      obtain ⟨b', h'⟩ := hunlinked.contract alloc.realloc hcontract.1 hcontract.2
        (hfits (by rw [h.retrieve, hsome]; nofun) hcontract.1 hcontract.2)
      refine ⟨?_, b', nodes', h', fun hload => absurd hcontract.2 (Nat.not_le.2 hload)⟩
      rw [h'.array]
      rfl
    · exact ⟨rfl, _, nodes', hunlinked, fun _ => rfl⟩

theorem doall : ∃ items, lh.doall = (lh, .visited items) ∧ Holds f.key items m := by
  have hpmax := h.pmax_le
  have hnodes := h.nodes_eq
  have hp := h.p_lt
  have htop : ((lh.numNodes : Int) - 1).bmod (2 ^ 32) = lh.numNodes - 1 := by
    rw [Int.bmod_eq_of_le] <;> omega
  have hcount : ((lh.numNodes : Int) - 1 + 1).toNat = lh.numNodes := by omega
  refine ⟨_, doall_eq h.array, ?_⟩
  rw [htop, hcount, hnodes]
  refine h.contents.holds.perm (.map _ ?_)
  exact (h.chains.flatMap_range hp).symm.trans ((reverse_perm _).symm.flatMap_right _)

/-- Every call that fits does on the table what it does on the map. -/
theorem step (op : Op α) (hfits : lh.Fits f.toLhFuns op) :
    ∃ m' b' nodes', Meets f lh m (lh.step f.toLhFuns op) m' op ∧
      Represents f (lh.step f.toLhFuns op).1 b' nodes' m' := by
  cases op with
  | insert data alloc =>
    obtain ⟨m', b', nodes', hins, h', -⟩ := h.insert alloc data hfits
    exact ⟨m', b', nodes', hins, h'⟩
  | delete data alloc =>
    obtain ⟨hout, b', nodes', h', -⟩ := h.delete alloc data hfits
    exact ⟨_, b', nodes', ⟨hout, rfl⟩, h'⟩
  | retrieve data =>
    refine ⟨m, b, nodes, ?_⟩
    simp only [Lhash.step, h.retrieve]
    exact ⟨⟨rfl, rfl⟩, h.reset⟩
  | doall =>
    obtain ⟨items, hdoall, hitems⟩ := h.doall
    refine ⟨m, b, nodes, ?_⟩
    simp only [Lhash.step, hdoall]
    exact ⟨⟨⟨items, rfl, hitems⟩, rfl⟩, h⟩

theorem card_eq : lh.numItems = {k | m k ≠ none}.ncard := by
  rw [h.contents.holds.ncard, length_map]
  exact h.items_eq

end Represents

/-! ## Runs -/

/-- The numbers of a table that holds the map. -/
structure Counts (f : LawfulFuns α) (lh : Lhash α) (m : f.Map) : Prop where
  items : lh.numItems = {k | m k ≠ none}.ncard
  alloc : lh.numAllocNodes = 2 * lh.pmax
  nodes : lh.numNodes = lh.pmax + lh.p
  split : lh.p < lh.pmax

/-- Call by call, the table returns what the map returns, and its numbers are those of the map. -/
def IsMap (f : LawfulFuns α) : Lhash α → f.Map → List (Op α) → Prop
  | _, _, [] => True
  | lh, m, op :: ops =>
    ∃ m', Meets f lh m (lh.step f.toLhFuns op) m' op ∧
      Counts f (lh.step f.toLhFuns op).1 m' ∧ IsMap f (lh.step f.toLhFuns op).1 m' ops

/-- No call of the run passes a size that wraps. -/
def RunFits (f : LhFuns α) : Lhash α → List (Op α) → Prop
  | _, [] => True
  | lh, op :: ops => lh.Fits f op ∧ RunFits f (lh.step f op).1 ops

instance [DecidableEq α] (f : LhFuns α) (lh : Lhash α) (op : Op α) : Decidable (lh.Fits f op) := by
  cases op <;> simp only [Fits, NeedsRealloc] <;> infer_instance

instance decidableRunFits [DecidableEq α] (f : LhFuns α) :
    (lh : Lhash α) → (ops : List (Op α)) → Decidable (RunFits f lh ops)
  | _, [] => .isTrue trivial
  | lh, op :: ops => @instDecidableAnd _ _ _ (decidableRunFits f (lh.step f op).1 ops)

theorem Represents.isMap (h : Represents f lh b nodes m) {ops : List (Op α)}
    (hfits : RunFits f.toLhFuns lh ops) : IsMap f lh m ops := by
  induction ops generalizing lh b nodes m with
  | nil => trivial
  | cons op ops ih =>
    obtain ⟨m', b', nodes', hmeets, h'⟩ := h.step op hfits.1
    exact ⟨m', hmeets, ⟨h'.card_eq, h'.alloc_eq, h'.nodes_eq, h'.p_lt⟩, ih h' hfits.2⟩

/-- A table is a finite map keyed by the comparator, as long as no size wraps. -/
theorem lhash_is_finite_map (f : LawfulFuns α) (ops : List (Op α))
    (hfits : RunFits f.toLhFuns new ops) : IsMap f new (fun _ => none) ops :=
  Represents.new.isMap hfits

/-- Numbers, compared by their difference. -/
def natFuns : LawfulFuns Nat where
  hash := id
  comp a b := a - b
  equiv := ⟨by simp, by intro a b h; omega, by intro a b c h h'; omega⟩
  hash_eq h := by
    simp only [id]
    omega

/-- The calls that succeed in all their allocations. -/
def ok : LhAlloc := ⟨true, true⟩

/-- The table after some calls. -/
def after (f : LhFuns α) (lh : Lhash α) (ops : List (Op α)) : Lhash α :=
  ops.foldl (fun lh op => (lh.step f op).1) lh

/-- Sixty-four numbers are inserted, one of them twice, and forty are deleted: the table grows from
8 chains to 32, with two reallocations, and shrinks again with a third one. -/
theorem lhash_is_finite_map_grows :
    let inserts : List (Op Nat) := (range 64).map (.insert · ok) ++ [.insert 5 ⟨false, false⟩]
    let ops := inserts ++ (range 40).map (.delete · ok) ++ [.retrieve 5, .retrieve 50, .doall]
    IsMap natFuns new (fun _ => none) ops ∧
      (after natFuns.toLhFuns new inserts).numAllocNodes = 64 ∧
      (after natFuns.toLhFuns new ops).numAllocNodes = 32 := by
  intro inserts ops
  exact ⟨lhash_is_finite_map natFuns ops (by decide +kernel), by decide +kernel, by decide +kernel⟩

/-! ### A table that is too large

With `2 ^ 29` chains the size that `contract` passes to `OPENSSL_realloc` wraps to zero, so the
array is freed and then read. -/

theorem after_concat (g : LhFuns α) (lh : Lhash α) (ops : List (Op α)) (op : Op α) :
    after g lh (ops ++ [op]) = ((after g lh ops).step g op).1 := by
  simp [after]

theorem IsMap.last {ops : List (Op α)} {op : Op α} (h : IsMap f lh m (ops ++ [op])) :
    ∃ m₁ m₂, Meets f (after f.toLhFuns lh ops) m₁
      ((after f.toLhFuns lh ops).step f.toLhFuns op) m₂ op := by
  induction ops generalizing lh m with
  | nil =>
    obtain ⟨m', hmeets, -⟩ := h
    exact ⟨m, m', hmeets⟩
  | cons op' ops ih =>
    obtain ⟨m', -, -, hrest⟩ := h
    exact ih hrest

theorem natFuns_key_inj {a c : Nat} : natFuns.key a = natFuns.key c ↔ a = c := by
  rw [LawfulFuns.key_eq_iff]
  simp only [natFuns]
  omega

variable {t : Lhash Nat} {b₀ : List (List (LhNode Nat))} {l : List (LhNode Nat)} {m₀ : natFuns.Map}

/-- The numbers below `k` are in a table of so many chains. -/
structure Below (k w : Nat) (t : Lhash Nat) (b₀ : List (List (LhNode Nat)))
    (l : List (LhNode Nat)) (m₀ : natFuns.Map) : Prop extends Represents natFuns t b₀ l m₀ where
  map_eq : ∀ a, m₀ (natFuns.key a) = if a < k then some a else none
  nodes : t.numNodes = w

theorem Below.items {w : Nat} (h : Below k w t b₀ l m₀) : t.numItems = k := by
  have hmem (a : Nat) : a ∈ l.map LhNode.data ↔ a ∈ List.range k := by
    have hiff := h.contents.holds.mem_iff (k := natFuns.key a) (a := a)
    rw [and_iff_left rfl, h.map_eq] at hiff
    rw [← hiff]
    simp
  have hperm := (perm_ext_iff_of_nodup h.contents.holds.nodup.of_map nodup_range).2 hmem
  rw [h.items_eq, ← length_map, hperm.length_eq, length_range]

/-- The calls that insert the numbers below `k`. -/
def fill (k : Nat) : List (Op Nat) := (List.range k).map fun a => .insert a ok

/-- Inserting numbers makes the table grow with them. -/
theorem Below.fill (hk : k < 2 ^ 30) :
    ∃ b l m, Below k (max 8 ((k + 1) / 2)) (after natFuns.toLhFuns new (fill k)) b l m := by
  induction k with
  | zero => exact ⟨_, _, _, { Represents.new with map_eq := fun a => rfl, nodes := rfl }⟩
  | succ k ih =>
    obtain ⟨b, l, m, h⟩ := ih (by omega)
    have hitems := h.items
    have hnodes := h.nodes
    have hfits : (after natFuns.toLhFuns new (Lhash.fill k)).Fits natFuns.toLhFuns
        (.insert k ok) := by
      intro _
      have := h.alloc_eq
      have := h.nodes_eq
      omega
    obtain ⟨m', b', l', hins, h', hnodes'⟩ := h.insert ok k hfits
    obtain ⟨-, -, rfl⟩ := hins.success (by simp [CannotAllocate, ok])
    rw [Lhash.fill, range_succ, map_append, map_singleton, after_concat]
    refine ⟨b', l', _, { h' with map_eq := fun a => ?_, nodes := ?_ }⟩
    · rw [Function.update_apply, h.map_eq]
      grind [natFuns_key_inj]
    · refine (hnodes' rfl).trans ?_
      simp only [h.upLoad_le_iff]
      split <;> omega

/-- The calls that delete the `d` largest numbers below `k`. -/
def drain (k d : Nat) : List (Op Nat) := (List.range d).map fun i => .delete (k - 1 - i) ok

/-- A table whose load stays high keeps its chains. -/
theorem Below.drain {w d : Nat} (h : Below k w t b₀ l m₀) (hd : d ≤ k)
    (hload : 257 * w ≤ (k - d) * 256) :
    ∃ b' l' m', Below (k - d) w (after natFuns.toLhFuns t (drain k d)) b' l' m' := by
  induction d with
  | zero => exact ⟨b₀, l, m₀, h⟩
  | succ d ih =>
    obtain ⟨b₁, l₁, m₁, h₁⟩ := ih (by omega) (hload.trans (Nat.mul_le_mul_right _ (by omega)))
    have hhigh : (after natFuns.toLhFuns t (Lhash.drain k d)).downLoad <
        { after natFuns.toLhFuns t (Lhash.drain k d) with
          numItems := (after natFuns.toLhFuns t (Lhash.drain k d)).numItems - 1 }.load := by
      have hitems := h₁.items
      have hnodes := h₁.nodes
      rw [← Nat.not_le, (h₁.toSizes.fewer 1).load_le_iff]
      dsimp only
      omega
    have hfits : (after natFuns.toLhFuns t (Lhash.drain k d)).Fits natFuns.toLhFuns
        (.delete (k - 1 - d) ok) := fun _ _ hlow => absurd hlow (Nat.not_le.2 hhigh)
    obtain ⟨-, b', l', h', hnodes'⟩ := h₁.delete ok _ hfits
    rw [Lhash.drain, range_succ, map_append, map_singleton, after_concat]
    refine ⟨b', l', _, { h' with map_eq := fun a => ?_, nodes := (hnodes' hhigh).trans h₁.nodes }⟩
    rw [Function.update_apply, h₁.map_eq]
    grind [natFuns_key_inj]

theorem contract_freed {realloc : Bool} (hp : lh.p = 0) (hsize : 8 * lh.pmax % 2 ^ 32 = 0) :
    (lh.contract b realloc).b = none := by
  simp only [contract, if_pos hp, if_pos hsize]

theorem Sizes.pmax_of_nodes {e : Nat} (h : Sizes lh) (hnodes : lh.numNodes = 2 ^ e) :
    lh.pmax = 2 ^ e ∧ lh.p = 0 := by
  obtain ⟨d, -, -, hpmax⟩ := h.pmax_eq
  have hsum := h.nodes_eq
  have hp := h.p_lt
  have hle : 2 ^ d ≤ 2 ^ e := by omega
  have hlt : 2 ^ e < 2 ^ (d + 1) := by
    omega
  have hde : d = e := by
    have := (Nat.pow_le_pow_iff_right (by decide : 1 < 2)).1 hle
    have := (Nat.pow_lt_pow_iff_right (by decide : 1 < 2)).1 hlt
    omega
  subst hde
  omega

/-- A table with `2 ^ 29` chains that is contracted is read after it has been freed. -/
theorem Below.delete_undefined (h : Below k (2 ^ 29) t b₀ l m₀) (hk : 0 < k)
    (hload : (k - 1) * 256 < 257 * 2 ^ 29) :
    (t.delete natFuns.toLhFuns ok (k - 1)).2 = .undefined := by
  obtain ⟨hpmax, hp⟩ := h.toSizes.pmax_of_nodes h.nodes
  have hsome : m₀ (natFuns.key (k - 1)) = some (k - 1) := by rw [h.map_eq, if_pos (by omega)]
  obtain ⟨nn, pre, rest, hs, -, hlt, hchain, hm, hkey⟩ := h.reset.getrn (k - 1)
  cases rest with
  | nil => cases hm.symm.trans hsome
  | cons n rest =>
    obtain ⟨l', hunlinked⟩ := h.unlinked hlt hchain (hkey n rfl)
    have hlow : (t.unlinked (b₀.set nn (pre ++ rest))).load ≤ t.downLoad := by
      refine hunlinked.load_le_iff.2 ?_
      simp only [Lhash.unlinked, h.items, h.nodes]
      exact hload
    have hmany : minNodes < t.numNodes := by
      rw [h.nodes]
      decide
    have hfreed : ((t.unlinked (b₀.set nn (pre ++ rest))).contract (b₀.set nn (pre ++ rest))
        ok.realloc).b = none := contract_freed hp (by simp only [Lhash.unlinked, hpmax]; decide)
    rw [delete_cons h.array hs, if_pos ⟨hmany, hlow⟩, hfreed]
    rfl

/-- The table is freed by the last deletion. -/
theorem not_isMap {d : Nat} (hk : k < 2 ^ 30) (hnodes : max 8 ((k + 1) / 2) = 2 ^ 29) (hd : d < k)
    (hhigh : 257 * 2 ^ 29 ≤ (k - d) * 256) (hlow : (k - d - 1) * 256 < 257 * 2 ^ 29) :
    ¬IsMap natFuns new (fun _ => none) (fill k ++ drain k (d + 1)) := by
  intro h
  obtain ⟨b₀, l₀, m₀, hfill⟩ := Below.fill hk
  rw [hnodes] at hfill
  obtain ⟨b₁, l₁, m₁, hdrain⟩ := hfill.drain (Nat.le_of_lt hd) hhigh
  have hundefined := hdrain.delete_undefined (by omega) hlow
  have hafter : after natFuns.toLhFuns new (fill k ++ drain k d) =
      after natFuns.toLhFuns (after natFuns.toLhFuns new (fill k)) (drain k d) :=
    foldl_append
  rw [drain, range_succ, map_append, ← append_assoc] at h
  obtain ⟨m₂, m₃, hout, -⟩ := h.last
  change ((after natFuns.toLhFuns new (fill k ++ drain k d)).delete natFuns.toLhFuns ok
    (k - 1 - d)).2 = _ at hout
  rw [hafter, show k - 1 - d = k - d - 1 by omega, hundefined] at hout
  cases hout

/-- After `2 ^ 30 - 1` inserts, the deletes come to one that reads the freed array. -/
theorem lhash_contract_use_after_free :
    ¬IsMap natFuns new (fun _ => none)
      (fill (2 ^ 30 - 1) ++ drain (2 ^ 30 - 1) (255 * 2 ^ 21)) := by
  obtain ⟨d, hd⟩ : ∃ d, 255 * 2 ^ 21 = d + 1 := ⟨255 * 2 ^ 21 - 1, by omega⟩
  rw [hd]
  apply not_isMap <;> omega

end QuicTls.Lhash
