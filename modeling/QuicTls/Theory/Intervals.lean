import Mathlib.Data.List.TakeWhile
import Mathlib.Order.SuccPred.Basic

/-!
# Lists of closed intervals

`points` is the set that a list of intervals stands for. In a separated list the intervals are in
order and two of them never touch, so an interval inside the set lies inside one member. The walk
`covers`, which goes over both lists once, then decides inclusion.
-/

namespace QuicTls.Intervals

open List

variable {α : Type*} [LinearOrder α] {ps : List (α × α)}

def points (ps : List (α × α)) : Set α := {x | ∃ p ∈ ps, p.1 ≤ x ∧ x ≤ p.2}

@[simp] theorem mem_points {x : α} : x ∈ points ps ↔ ∃ p ∈ ps, p.1 ≤ x ∧ x ≤ p.2 := Iff.rfl

@[simp] theorem points_nil : points ([] : List (α × α)) = ∅ := by
  ext x
  simp

/-- One pass over the parents: those that end before the child's interval are skipped for good. -/
def covers : List (α × α) → List (α × α) → Bool
  | _, [] => true
  | ps, c :: cs =>
    match ps.dropWhile fun p => decide (p.2 < c.2) with
    | [] => false
    | p :: rest => if c.1 < p.1 then false else covers (p :: rest) cs

theorem covers_cons {cs : List (α × α)} {c : α × α} :
    covers ps (c :: cs) = true ↔
      ∃ p rest, ps.dropWhile (fun p => decide (p.2 < c.2)) = p :: rest ∧ p.1 ≤ c.1 ∧
        covers (p :: rest) cs = true := by
  rw [covers]
  split
  · rename_i hnil
    simp [hnil]
  · rename_i p rest hcons
    simp [hcons]

/-- Whatever the order of the lists, every child of an accepted list lies inside a parent. -/
theorem points_subset_of_covers {cs : List (α × α)} (h : covers ps cs = true) :
    points cs ⊆ points ps := by
  induction cs generalizing ps with
  | nil => simp
  | cons c cs ih =>
    obtain ⟨p, rest, hdrop, hlo, hrest⟩ := covers_cons.1 h
    have hsuffix : p :: rest <:+ ps := hdrop ▸ dropWhile_suffix _
    have hhi : c.2 ≤ p.2 := by
      have hne : ps.dropWhile (fun p => decide (p.2 < c.2)) ≠ [] := by simp [hdrop]
      simpa [hdrop] using head_dropWhile_not _ hne
    rintro x ⟨d, hd, hdx⟩
    rcases mem_cons.1 hd with rfl | hd
    · exact ⟨p, hsuffix.subset mem_cons_self, hlo.trans hdx.1, hdx.2.trans hhi⟩
    · obtain ⟨q, hq, hqx⟩ := ih hrest ⟨d, hd, hdx⟩
      exact ⟨q, hsuffix.subset hq, hqx⟩

variable [PredOrder α]

/-- In order, with at least one point between two intervals. -/
structure Separated (ps : List (α × α)) : Prop where
  le : ∀ p ∈ ps, p.1 ≤ p.2
  gap : ps.Pairwise fun p q => p.2 < Order.pred q.1

namespace Separated

variable {cs : List (α × α)} {p q c : α × α}

theorem of_cons (h : Separated (p :: ps)) : Separated ps :=
  ⟨fun q hq => h.le q (mem_cons_of_mem _ hq), h.gap.of_cons⟩

/-- It is enough to compare an interval with its neighbour. -/
theorem cons_cons (hp : p.1 ≤ p.2) (hgap : p.2 < Order.pred q.1) (h : Separated (q :: ps)) :
    Separated (p :: q :: ps) := by
  refine ⟨fun r hr => ?_, pairwise_cons.2 ⟨fun r hr => ?_, h.gap⟩⟩
  · rcases mem_cons.1 hr with rfl | hr
    · exact hp
    · exact h.le r hr
  rcases mem_cons.1 hr with rfl | hr
  · exact hgap
  · calc p.2 < Order.pred q.1 := hgap
      _ ≤ q.1 := Order.pred_le _
      _ ≤ q.2 := h.le q mem_cons_self
      _ < Order.pred r.1 := rel_of_pairwise_cons h.gap hr

theorem lt_of_cons (h : Separated (p :: ps)) (hq : q ∈ ps) : p.2 < q.1 :=
  (rel_of_pairwise_cons h.gap hq).trans_le (Order.pred_le _)

/-- Two members that have a point between them or in common are equal. -/
theorem eq_of_le (h : Separated ps) (hp : p ∈ ps) (hq : q ∈ ps) (hpq : Order.pred p.1 ≤ q.2)
    (hqp : Order.pred q.1 ≤ p.2) : p = q := by
  induction ps with
  | nil => cases hp
  | cons r rs ih =>
    rcases mem_cons.1 hp with rfl | hp' <;> rcases mem_cons.1 hq with rfl | hq'
    · rfl
    · exact absurd hqp (not_le.2 (rel_of_pairwise_cons h.gap hq'))
    · exact absurd hpq (not_le.2 (rel_of_pairwise_cons h.gap hp'))
    · exact ih h.of_cons hp' hq'

/-- An interval inside the set lies inside one member, because the set has a hole before each. -/
theorem exists_mem_of_subset (h : Separated ps) (hc : c.1 ≤ c.2)
    (hsub : ∀ x, c.1 ≤ x → x ≤ c.2 → x ∈ points ps) : ∃ p ∈ ps, p.1 ≤ c.1 ∧ c.2 ≤ p.2 := by
  obtain ⟨p, hp, hlo, hhi⟩ := hsub c.2 hc le_rfl
  refine ⟨p, hp, ?_, hhi⟩
  by_contra hlt
  rw [not_le] at hlt
  have hpred : Order.pred p.1 < p.1 :=
    Order.pred_lt_of_not_isMin fun hmin => hlt.not_ge (hmin hlt.le)
  obtain ⟨q, hq, hqlo, hqhi⟩ := hsub (Order.pred p.1) (Order.le_pred_of_lt hlt) (hpred.le.trans hlo)
  have heq : p = q :=
    h.eq_of_le hp hq hqhi ((Order.pred_le _).trans (hqlo.trans (hpred.le.trans (h.le p hp))))
  exact absurd (heq ▸ hqlo) (not_le.2 hpred)

/-- The first interval that does not end before the child is the one that contains it. -/
theorem dropWhile_eq (h : Separated ps) (hp : p ∈ ps) (hc : c.1 ≤ c.2) (hlo : p.1 ≤ c.1)
    (hhi : c.2 ≤ p.2) : ∃ rest, ps.dropWhile (fun q => decide (q.2 < c.2)) = p :: rest := by
  induction ps with
  | nil => cases hp
  | cons q qs ih =>
    rcases mem_cons.1 hp with rfl | hp'
    · exact ⟨qs, by simp [not_lt.2 hhi]⟩
    · have hq : q.2 < c.2 := (h.lt_of_cons hp').trans_le (hlo.trans hc)
      rw [dropWhile_cons_of_pos (by simpa using hq)]
      exact ih h.of_cons hp'

theorem dropWhile (h : Separated ps) (f : α × α → Bool) : Separated (ps.dropWhile f) :=
  ⟨fun q hq => h.le q ((dropWhile_suffix f).subset hq), h.gap.sublist (dropWhile_suffix f).sublist⟩

/-- The walk succeeds on children that each lie inside a parent. -/
theorem covers_of_forall (hps : Separated ps) (hcs : Separated cs)
    (h : ∀ c ∈ cs, ∃ p ∈ ps, p.1 ≤ c.1 ∧ c.2 ≤ p.2) : covers ps cs = true := by
  induction cs generalizing ps with
  | nil => rfl
  | cons c cs ih =>
    have hc := hcs.le c mem_cons_self
    obtain ⟨p, hp, hlo, hhi⟩ := h c mem_cons_self
    obtain ⟨rest, hdrop⟩ := hps.dropWhile_eq hp hc hlo hhi
    refine covers_cons.2 ⟨p, rest, hdrop, hlo, ih (hdrop ▸ hps.dropWhile _) hcs.of_cons ?_⟩
    -- a later child ends later, so its parent has not been skipped
    intro d hd
    obtain ⟨q, hq, hqlo, hqhi⟩ := h d (mem_cons_of_mem _ hd)
    have hcd : c.2 < q.2 :=
      (hcs.lt_of_cons hd).trans_le ((hcs.le d (mem_cons_of_mem _ hd)).trans hqhi)
    rw [← @takeWhile_append_dropWhile _ (fun q => decide (q.2 < c.2)) ps, mem_append, hdrop] at hq
    rcases hq with hq | hq
    · have hlt := mem_takeWhile_imp hq
      exact absurd (of_decide_eq_true hlt) (not_lt.2 hcd.le)
    · exact ⟨q, hq, hqlo, hqhi⟩

/-- **The walk decides inclusion** of separated lists. -/
theorem covers_iff (hps : Separated ps) (hcs : Separated cs) :
    covers ps cs = true ↔ points cs ⊆ points ps := by
  refine ⟨points_subset_of_covers, fun hsub => hps.covers_of_forall hcs fun c hc => ?_⟩
  exact hps.exists_mem_of_subset (hcs.le c hc) fun x hlo hhi => hsub ⟨c, hc, hlo, hhi⟩

end Separated

end QuicTls.Intervals
