import QuicTls.Crypto.Property

/-!
# What a property query means

`matchMeaning` counts the clauses that are true. The walk through the two sorted lists computes it,
unless a number is compared with a name that is missing (`propertyMatchCount_iff`).
-/

namespace QuicTls

open List

variable {holds holds' : PropertyDefinition → Bool} {q d : List PropertyDefinition}
  {c dj : PropertyDefinition}

section

variable (holds q d c)

/-- The value that a clause is compared with: a name that is not defined has the value false. -/
def definedValue : PropertyType × Int :=
  match d.find? (·.nameIdx = c.nameIdx) with
  | some dj => (dj.type, dj.v)
  | none => (.string, propertyFalse)

/-- The clause is true. An undefined value is different from all others. -/
def clauseHolds : Bool :=
  let equal := c.type ≠ .valueUndefined ∧ (c.type, c.v) = definedValue d c
  (equal ∧ c.oper = .eq) ∨ (¬ equal ∧ c.oper = .ne)

/-- A mandatory clause is false. -/
def Fails : Prop :=
  ∃ c ∈ q, c.oper ≠ .override ∧ c.optional = false ∧ holds c = false

instance : Decidable (Fails holds q) := by unfold Fails; infer_instance

def trueClauses : Nat :=
  q.countP fun c => c.oper ≠ .override ∧ holds c

/-- The count after the clauses `q`. -/
def outcome (count : Int) : Int :=
  if Fails holds q then -1 else count + trueClauses holds q

/-- What a query means, as the comments of `ossl_property_match_count` say. -/
def matchMeaning (query defn : PropertyList) : Int :=
  outcome (clauseHolds defn.properties) query.properties 0

/-- What the loop finds of a clause. -/
def verdict : Bool :=
  match d.find? (·.nameIdx = c.nameIdx) with
  | some dj => matchDefined c dj
  | none => matchMissing c

end

theorem verdict_cons (h : dj.nameIdx ≠ c.nameIdx) : verdict (dj :: d) c = verdict d c := by
  simp [verdict, h]

theorem outcome_congr (h : ∀ c ∈ q, c.oper ≠ .override → holds c = holds' c) (count : Int) :
    outcome holds q count = outcome holds' q count := by
  have hf : Fails holds q ↔ Fails holds' q :=
    exists_congr fun c => and_congr_right fun hc => and_congr_right fun ho => by rw [h c hc ho]
  have ht : trueClauses holds q = trueClauses holds' q :=
    countP_congr fun c hc => by simp +contextual [h c hc]
  simp only [outcome, hf, ht]

theorem trueClauses_cons (c : PropertyDefinition) : trueClauses holds (c :: q) =
    trueClauses holds q + if c.oper ≠ .override ∧ holds c then 1 else 0 := by
  simp [trueClauses, countP_cons]

theorem outcome_cons (c : PropertyDefinition) (count : Int) :
    outcome holds (c :: q) count =
      if c.oper = .override then outcome holds q count
      else if holds c then outcome holds q (count + 1)
      else if !c.optional then -1
      else outcome holds q count := by
  have hf : Fails holds (c :: q) ↔
      (c.oper ≠ .override ∧ c.optional = false ∧ holds c = false) ∨ Fails holds q := by simp [Fails]
  simp only [outcome, trueClauses_cons]
  grind

/-- The loop over the two sorted lists is a count over the clauses of the query. -/
theorem matchCountLoop_eq (hq : q.Pairwise (·.nameIdx < ·.nameIdx))
    (hd : d.Pairwise (·.nameIdx < ·.nameIdx)) (count : Int) :
    matchCountLoop q d count = outcome (verdict d) q count := by
  induction q generalizing d count with
  | nil => simp [matchCountLoop, outcome, Fails, trueClauses]
  | cons qi q ih =>
    obtain ⟨hlt, hq⟩ := pairwise_cons.1 hq
    induction d with
    | nil =>
      rw [matchCountLoop, outcome_cons, ih hq .nil, ih hq .nil]
      rfl
    | cons dj d ihd =>
      obtain ⟨hdj, hd'⟩ := pairwise_cons.1 hd
      have hskip {l : List PropertyDefinition} (h : ∀ c ∈ l, dj.nameIdx < c.nameIdx) (count : Int) :
          outcome (verdict (dj :: d)) l count = outcome (verdict d) l count :=
        outcome_congr (fun c hc _ => verdict_cons (h c hc).ne) count
      by_cases hov : qi.oper = .override
      · rw [matchCountLoop, if_pos hov, outcome_cons, if_pos hov, ih hq hd]
      rw [matchCountLoop, if_neg hov]
      rcases lt_trichotomy dj.nameIdx qi.nameIdx with h | h | h
      · rw [if_pos h, ihd hd', hskip (forall_mem_cons.2 ⟨h, fun c hc => h.trans (hlt c hc)⟩)]
      · have hv : verdict (dj :: d) qi = matchDefined qi dj := by simp [verdict, h]
        rw [if_neg h.not_lt, if_pos h.symm, outcome_cons, if_neg hov, hv, ih hq hd', ih hq hd',
          hskip (h ▸ hlt), hskip (h ▸ hlt)]
      · have hv : verdict (dj :: d) qi = matchMissing qi := by
          have hnone : (dj :: d).find? (·.nameIdx = qi.nameIdx) = none := by
            simpa [h.ne'] using fun c hc => (h.trans (hdj c hc)).ne'
          rw [verdict, hnone]
        rw [if_neg h.not_gt, if_neg h.ne, outcome_cons, if_neg hov, hv, ih hq hd, ih hq hd]

/-- A number that is compared for inequality with a name that is not defined. -/
def NumberMissing (d : List PropertyDefinition) (c : PropertyDefinition) : Prop :=
  c.oper = .ne ∧ c.type = .number ∧ ∀ dj ∈ d, dj.nameIdx ≠ c.nameIdx

theorem NumberMissing.find (h : NumberMissing d c) : d.find? (·.nameIdx = c.nameIdx) = none := by
  simpa using h.2.2

theorem NumberMissing.clauseHolds (h : NumberMissing d c) : clauseHolds d c = true := by
  simp [QuicTls.clauseHolds, definedValue, h.find, h.1, h.2.1]

/-- The loop takes such a clause for false. -/
theorem verdict_iff (hd : ∀ dj ∈ d, dj.type ≠ .valueUndefined) (ho : c.oper ≠ .override) :
    verdict d c = true ↔ clauseHolds d c = true ∧ ¬ NumberMissing d c := by
  unfold verdict clauseHolds definedValue
  split
  · rename_i dj hfind
    have hmem := mem_of_find?_eq_some hfind
    have hname := find?_some hfind
    have hnot : ¬ NumberMissing d c := fun h => h.2.2 dj hmem (by simpa using hname)
    have := hd dj hmem
    simp only [matchDefined]
    grind
  · rename_i hnone
    have hmissing : NumberMissing d c ↔ c.oper = .ne ∧ c.type = .number := by
      simpa [NumberMissing] using fun _ _ => hnone
    simp only [matchMissing]
    cases htype : c.type <;> cases hoper : c.oper <;> simp_all

/-- A number that is missing makes the count smaller. -/
theorem trueClauses_verdict_lt (hd : ∀ dj ∈ d, dj.type ≠ .valueUndefined) (hc : c ∈ q)
    (hmiss : NumberMissing d c) : trueClauses (verdict d) q < trueClauses (clauseHolds d) q := by
  have hle (l : List PropertyDefinition) :
      trueClauses (verdict d) l ≤ trueClauses (clauseHolds d) l :=
    countP_mono_left fun c _ h => by
      have ⟨ho, hv⟩ : c.oper ≠ .override ∧ verdict d c = true := by simpa using h
      simp [ho, ((verdict_iff hd ho).1 hv).1]
  have ho : c.oper ≠ .override := by simp [hmiss.1]
  have hv : verdict d c = false := by simpa [hmiss] using (verdict_iff hd ho).not
  obtain ⟨l₁, l₂, rfl⟩ := append_of_mem hc
  have happ (holds : PropertyDefinition → Bool) : trueClauses holds (l₁ ++ c :: l₂) =
      trueClauses holds l₁ + trueClauses holds (c :: l₂) := countP_append
  have h₁ := hle l₁
  have h₂ := hle l₂
  rw [happ, happ, trueClauses_cons, trueClauses_cons, if_neg (by simp [hv]),
    if_pos ⟨ho, hmiss.clauseHolds⟩]
  omega

/-- **A query means what the comments say** unless it compares a number for inequality with a name
that is not defined: no number is false, but the clause is not counted as true. -/
theorem propertyMatchCount_iff (query defn : PropertyList)
    (hd : ∀ dj ∈ defn.properties, dj.type ≠ .valueUndefined) :
    propertyMatchCount query defn = matchMeaning query defn ↔
      Fails (clauseHolds defn.properties) query.properties ∨
        ∀ c ∈ query.properties, ¬ NumberMissing defn.properties c := by
  rw [propertyMatchCount, matchCountLoop_eq query.sorted defn.sorted, matchMeaning]
  generalize query.properties = q
  generalize defn.properties = d at hd
  by_cases hf : Fails (clauseHolds d) q
  · have hv : Fails (verdict d) q := by
      obtain ⟨c, hc, ho, hopt, hh⟩ := hf
      exact ⟨c, hc, ho, hopt, by simpa [hh] using (verdict_iff hd ho).not⟩
    simp [outcome, hf, hv]
  by_cases hm : ∀ c ∈ q, ¬ NumberMissing d c
  · refine iff_of_true (outcome_congr (fun c hc ho => ?_) 0) (.inr hm)
    simpa [hm c hc] using verdict_iff hd ho
  · refine iff_of_false (fun heq => ?_) (by simp [hf, hm])
    obtain ⟨c, hc, hmiss⟩ : ∃ c ∈ q, NumberMissing d c := by simpa using hm
    have hlt := trueClauses_verdict_lt hd hc hmiss
    rw [outcome, outcome] at heq
    split at heq <;> omega

/-- `x!=5,?y=2,z=abc` for a definition `x=3,y=1,z=abc`: the optional clause is false, the two others
are true. -/
theorem propertyMatchCount_iff_defined :
    let query : PropertyList :=
      ⟨[⟨7, .number, .ne, false, 5⟩, ⟨8, .number, .eq, true, 2⟩, ⟨9, .string, .eq, false, 4⟩],
        by decide⟩
    let defn : PropertyList :=
      ⟨[⟨7, .number, .eq, false, 3⟩, ⟨8, .number, .eq, false, 1⟩, ⟨9, .string, .eq, false, 4⟩],
        by decide⟩
    propertyMatchCount query defn = matchMeaning query defn ∧ matchMeaning query defn = 2 := by
  intro query defn
  exact ⟨(propertyMatchCount_iff query defn (by simp [defn])).2
    (.inr (by simp [query, defn, NumberMissing])), by decide⟩

/-- `x!=5` for a definition without `x`. -/
theorem propertyMatchCount_number :
    let query : PropertyList := ⟨[⟨7, .number, .ne, false, 5⟩], pairwise_singleton ..⟩
    let defn : PropertyList := ⟨[], .nil⟩
    propertyMatchCount query defn = -1 ∧ matchMeaning query defn = 1 := by
  refine ⟨?_, by decide⟩
  simp [propertyMatchCount, matchCountLoop, matchMissing]

end QuicTls
