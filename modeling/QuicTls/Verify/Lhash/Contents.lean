import QuicTls.Crypto.Lhash
import QuicTls.Theory.FiniteMap
import QuicTls.Theory.LinearHash

/-!
# The nodes of the hash table

The items of an `OPENSSL_LHASH` are the values of a map whose keys are the classes of the
comparator. `Contents` says so of the nodes of a table; `Chains` says in which chain each one is.
-/

namespace QuicTls

open List

variable {α : Type}

/-- A comparator that is an equivalence and compatible with the hash. -/
structure LawfulFuns (α : Type) extends LhFuns α where
  equiv : Equivalence fun a b => comp a b = 0
  hash_eq : ∀ {a b}, comp a b = 0 → hash a = hash b

namespace LawfulFuns

def setoid (f : LawfulFuns α) : Setoid α := ⟨_, f.equiv⟩

abbrev Key (f : LawfulFuns α) : Type := Quotient f.setoid

def key (f : LawfulFuns α) (a : α) : f.Key := Quotient.mk f.setoid a

instance (f : LawfulFuns α) : DecidableRel f.setoid.r := fun a b => decEq (f.comp a b) 0

instance (f : LawfulFuns α) : DecidableEq f.Key := inferInstanceAs (DecidableEq (Quotient f.setoid))

/-- A finite map keyed by the equivalence. -/
abbrev Map (f : LawfulFuns α) : Type := f.Key → Option α

theorem key_eq_iff {f : LawfulFuns α} {a b : α} : f.key a = f.key b ↔ f.comp a b = 0 :=
  Quotient.eq

end LawfulFuns

namespace Lhash

variable {f : LawfulFuns α} {m : f.Map} {b : List (List (LhNode α))}
  {pmax p hash : Nat} {data : α} {n : LhNode α} {nodes c pre rest : List (LhNode α)}

theorem splitChain_eq (nni p : Nat) (c n1 n2 : List (LhNode α)) :
    splitChain nni p c n1 n2 =
      (n1 ++ c.filter (·.hash % nni = p), (c.filter (·.hash % nni ≠ p)).reverse ++ n2) := by
  induction c generalizing n1 n2 with
  | nil => simp [splitChain]
  | cons n c ih =>
    rw [splitChain]
    split_ifs with hne
    · rw [ih]
      simp [hne]
    · rw [not_not] at hne
      rw [ih]
      simp [hne]

/-- The search goes past the nodes that do not match. -/
theorem searchChain_spec {f : LhFuns α} (h : searchChain f hash data c = (pre, rest)) :
    c = pre ++ rest ∧ (∀ n ∈ pre, n.hash = hash → f.comp n.data data ≠ 0) ∧
      ∀ n ∈ rest.head?, f.comp n.data data = 0 := by
  induction c generalizing pre with
  | nil =>
    cases h
    simp
  | cons n1 c ih =>
    rw [searchChain] at h
    split_ifs at h with hne hcomp
    · cases h
      obtain ⟨hc, hpre, hrest⟩ := ih rfl
      exact ⟨congrArg _ hc, forall_mem_cons.2 ⟨fun heq => absurd heq hne, hpre⟩, hrest⟩
    · cases h
      simp [hcomp]
    · cases h
      obtain ⟨hc, hpre, hrest⟩ := ih rfl
      exact ⟨congrArg _ hc, forall_mem_cons.2 ⟨fun _ => hcomp, hpre⟩, hrest⟩

/-- The nodes hold the map, each with its hash. -/
structure Contents (f : LawfulFuns α) (nodes : List (LhNode α)) (m : f.Map) : Prop where
  hashed : ∀ n ∈ nodes, n.hash = f.hash n.data
  holds : Holds f.key (nodes.map LhNode.data) m

namespace Contents

theorem perm (h : Contents f nodes m) (hp : nodes ~ c) : Contents f c m :=
  ⟨fun n hn => h.hashed n (hp.mem_iff.2 hn), h.holds.perm (hp.map _)⟩

theorem add (h : Contents f nodes m) (hnone : m (f.key data) = none) :
    Contents f (⟨data, f.hash data⟩ :: nodes) (Function.update m (f.key data) (some data)) :=
  ⟨forall_mem_cons.2 ⟨rfl, h.hashed⟩, h.holds.insert hnone⟩

theorem replace (h : Contents f (n :: nodes) m) (hkey : f.key data = f.key n.data) :
    Contents f ({ n with data := data } :: nodes)
      (Function.update m (f.key data) (some data)) := by
  obtain ⟨hn, hnodes⟩ := forall_mem_cons.1 h.hashed
  have hhash : f.hash data = f.hash n.data := f.hash_eq (LawfulFuns.key_eq_iff.1 hkey)
  exact ⟨forall_mem_cons.2 ⟨hn.trans hhash.symm, hnodes⟩, h.holds.replace hkey⟩

theorem unlink (h : Contents f (n :: nodes) m) (hkey : f.key data = f.key n.data) :
    Contents f nodes (Function.update m (f.key data) none) := by
  rw [hkey]
  exact ⟨(forall_mem_cons.1 h.hashed).2, h.holds.erase⟩

/-- The node that a search ends at holds the value of the key. -/
theorem search (h : Contents f nodes m) (hb : Chains LhNode.hash pmax p b nodes)
    (hs : searchChain f.toLhFuns (f.hash data) data
      (b.getD (linearBucket pmax p (f.hash data)) []) = (pre, rest)) :
    b.getD (linearBucket pmax p (f.hash data)) [] = pre ++ rest ∧
      m (f.key data) = rest.head?.map LhNode.data ∧
      ∀ n ∈ rest.head?, f.key data = f.key n.data := by
  obtain ⟨hchain, hbefore, hfound⟩ := searchChain_spec hs
  refine ⟨hchain, ?_, fun n hn => (LawfulFuns.key_eq_iff.2 (hfound n hn)).symm⟩
  cases rest with
  | nil =>
    refine h.holds.eq_none_iff.2 fun a ha hkey => ?_
    obtain ⟨n, hn, rfl⟩ := mem_map.1 ha
    have hcomp := LawfulFuns.key_eq_iff.1 hkey
    have hhash : n.hash = f.hash data := (h.hashed n hn).trans (f.hash_eq hcomp)
    have hmem := hb.mem_iff.2 ⟨hn, rfl⟩
    rw [hhash, hchain, append_nil] at hmem
    exact hbefore n hmem hhash hcomp
  | cons n rest =>
    have hn : n ∈ b.getD (linearBucket pmax p (f.hash data)) [] := by
      rw [hchain]
      exact mem_append_right _ mem_cons_self
    exact h.holds.mem_iff.2 ⟨mem_map_of_mem (hb.mem_iff.1 hn).1,
      LawfulFuns.key_eq_iff.2 (hfound n rfl)⟩

end Contents

end Lhash
end QuicTls
