import Mathlib.Data.List.Basic
import Mathlib.Data.List.GetD

/-!
# Linear hashing

A table of `pmax + p` chains, in which the first `p` of `pmax` chains have been split in two.
`Chains` says of an array that every node is in the chain of its hash.
-/

namespace QuicTls

open List

/-- The chain of a hash value. -/
def linearBucket (pmax p hash : Nat) : Nat :=
  if hash % pmax < p then hash % (2 * pmax) else hash % pmax

section
variable {pmax p hash : Nat}

theorem mod_two_mul (hash : Nat) (pmax : Nat) :
    hash % (2 * pmax) = hash % pmax ∨ hash % (2 * pmax) = hash % pmax + pmax := by
  rw [Nat.mul_comm, Nat.mod_mul]
  obtain h | h := Nat.mod_two_eq_zero_or_one (hash / pmax) <;> simp [h]

theorem linearBucket_lt (hp : p < pmax) : linearBucket pmax p hash < pmax + p := by
  have hmod := Nat.mod_lt hash (Nat.zero_lt_of_lt hp)
  unfold linearBucket
  split
  · obtain h | h := mod_two_mul hash pmax <;> omega
  · omega

/-- When all chains have been split there are twice as many. -/
theorem linearBucket_full (hpmax : 0 < pmax) :
    linearBucket pmax pmax hash = linearBucket (2 * pmax) 0 hash := by
  have hmod := Nat.mod_lt hash hpmax
  simp [linearBucket, hmod]

/-- Splitting a chain leaves the others. -/
theorem linearBucket_succ (hp : p < pmax) :
    linearBucket pmax (p + 1) hash =
      if linearBucket pmax p hash = p then if hash % (2 * pmax) = p then p else p + pmax
      else linearBucket pmax p hash := by
  have hmod := Nat.mod_lt hash (Nat.zero_lt_of_lt hp)
  have htwo := mod_two_mul hash pmax
  unfold linearBucket
  grind

end

variable {ν : Type*} {hash : ν → Nat} {pmax p i j : Nat} {b : List (List ν)} {n : ν}
  {nodes c d : List ν}

theorem getD_set (hi : i < b.length) :
    (b.set i c).getD j [] = if i = j then c else b.getD j [] := by
  simp only [getD_eq_getElem?_getD, getElem?_set, hi]
  split <;> rfl

/-- Each chain of the array has the nodes whose hash belongs there. -/
def Chains (hash : ν → Nat) (pmax p : Nat) (b : List (List ν)) (nodes : List ν) : Prop :=
  ∀ i, b.getD i [] ~ nodes.filter fun n => linearBucket pmax p (hash n) = i

namespace Chains

theorem full_iff (hpmax : 0 < pmax) :
    Chains hash pmax pmax b nodes ↔ Chains hash (2 * pmax) 0 b nodes := by
  simp only [Chains, linearBucket_full hpmax]

section

variable (h : Chains hash pmax p b nodes)
include h

theorem mem_iff : n ∈ b.getD i [] ↔ n ∈ nodes ∧ linearBucket pmax p (hash n) = i := by
  rw [(h i).mem_iff, mem_filter, decide_eq_true_eq]

theorem perm (hp : nodes ~ c) : Chains hash pmax p b c :=
  fun i => (h i).trans (hp.filter _)

/-- A node more. -/
theorem cons (hi : i < b.length)
    (hn : linearBucket pmax p (hash n) = i) (hc : c ~ n :: b.getD i []) :
    Chains hash pmax p (b.set i c) (n :: nodes) := by
  intro j
  rw [getD_set hi]
  split
  · subst j
    rw [filter_cons_of_pos (by simpa using hn)]
    exact hc.trans ((h i).cons n)
  · rename_i hne
    rw [filter_cons_of_neg (by simpa [hn] using hne)]
    exact h j

variable (hp : p < pmax)
include hp

theorem getD_eq_nil (hi : pmax + p ≤ i) : b.getD i [] = [] := by
  refine eq_nil_iff_forall_not_mem.2 fun n hn => ?_
  have hlt : linearBucket pmax p (hash n) < pmax + p := linearBucket_lt hp
  rw [(h.mem_iff.1 hn).2] at hlt
  omega

/-- Reallocation, as long as the nodes stay, and zeros for the rest. -/
theorem resize {k : Nat} (hk : pmax + p ≤ k) (extra : Nat) :
    Chains hash pmax p (b.take k ++ List.replicate extra []) nodes := by
  intro i
  suffices hsame : (b.take k ++ List.replicate extra []).getD i [] = b.getD i [] by
    rw [hsame]
    exact h i
  by_cases hi : i < k
  · simp only [getD_eq_getElem?_getD]
    grind
  · rw [h.getD_eq_nil hp (by omega)]
    simp only [getD_eq_getElem?_getD]
    grind

/-- All chains together have all nodes. -/
theorem flatMap_range :
    ((List.range (pmax + p)).flatMap fun i => b.getD i []) ~ nodes := by
  have hbelow (k : Nat) : ((List.range k).flatMap fun i => b.getD i []) ~
      nodes.filter fun n => linearBucket pmax p (hash n) < k := by
    induction k with
    | zero => simp
    | succ k ih =>
      rw [range_succ, flatMap_append, flatMap_singleton]
      refine (ih.append (h k)).trans (.trans (.of_eq ?_) (filter_append_perm
        (fun n => linearBucket pmax p (hash n) < k) _))
      rw [filter_filter, filter_filter]
      congr 1 <;> refine filter_congr fun n _ => ?_ <;> grind
  refine (hbelow _).trans (.of_eq (filter_eq_self.2 fun n _ => ?_))
  exact decide_eq_true (linearBucket_lt hp)

theorem split (hlen : p + pmax < b.length)
    (hc : c ~ (b.getD p []).filter fun n => hash n % (2 * pmax) = p)
    (hd : d ~ (b.getD p []).filter fun n => hash n % (2 * pmax) ≠ p) :
    Chains hash pmax (p + 1) ((b.set p c).set (p + pmax) d) nodes := by
  intro i
  rw [getD_set (by rwa [length_set]), getD_set (by omega)]
  have hlt (n : ν) : linearBucket pmax p (hash n) < pmax + p := linearBucket_lt hp
  simp only [linearBucket_succ hp]
  split
  · refine hd.trans (((h p).filter _).trans (.of_eq ?_))
    rw [filter_filter]
    refine filter_congr fun n _ => ?_
    grind
  split
  · refine hc.trans (((h p).filter _).trans (.of_eq ?_))
    rw [filter_filter]
    refine filter_congr fun n _ => ?_
    grind
  · refine (h i).trans (.of_eq (filter_congr fun n _ => ?_))
    grind

end

/-- A node less. -/
theorem of_cons (h : Chains hash pmax p b (n :: nodes)) (hi : i < b.length)
    (hn : linearBucket pmax p (hash n) = i) (hc : b.getD i [] ~ n :: c) :
    Chains hash pmax p (b.set i c) nodes := by
  intro j
  have hj := h j
  rw [getD_set hi]
  split
  · subst j
    rw [filter_cons_of_pos (by simpa using hn)] at hj
    exact (hc.symm.trans hj).cons_inv
  · rename_i hne
    rwa [filter_cons_of_neg (by simpa [hn] using hne)] at hj

/-- The last chain goes back to the one it was split off. -/
theorem merge (h : Chains hash pmax (p + 1) b nodes) (hp : p < pmax) (hlen : p + pmax < b.length) :
    Chains hash pmax p ((b.set (p + pmax) []).set p (b.getD p [] ++ b.getD (p + pmax) []))
      nodes := by
  intro i
  rw [getD_set (by rw [length_set]; omega), getD_set hlen]
  have hlt (n : ν) : linearBucket pmax p (hash n) < pmax + p := linearBucket_lt hp
  unfold Chains at h
  simp only [linearBucket_succ hp] at h
  split
  · subst i
    refine ((h p).append (h (p + pmax))).trans (.trans (.of_eq ?_) (filter_append_perm
      (fun n => hash n % (2 * pmax) = p) _))
    rw [filter_filter, filter_filter]
    congr 1 <;> refine filter_congr fun n _ => ?_ <;> grind
  split
  · subst i
    refine .of_eq (filter_eq_nil_iff.2 fun n _ => ?_).symm
    grind
  · refine (h i).trans (.of_eq (filter_congr fun n _ => ?_))
    grind

end Chains
end QuicTls
