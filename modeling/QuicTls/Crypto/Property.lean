import Mathlib.Data.List.Chain
import Mathlib.Data.List.Sort

/-!
# Property queries and definitions (crypto/property/property_parse.c)
-/

namespace QuicTls

/-- `OSSL_PROPERTY_TYPE` -/
inductive PropertyType where
  | string
  | number
  | valueUndefined
  deriving DecidableEq, Repr

/-- `OSSL_PROPERTY_OPER` -/
inductive PropertyOper where
  | eq
  | ne
  | override
  deriving DecidableEq, Repr

/-- `OSSL_PROPERTY_DEFINITION`; the union `v` is a number, or the index of a string. -/
structure PropertyDefinition where
  nameIdx : Int
  type : PropertyType
  oper : PropertyOper
  optional : Bool
  v : Int
  deriving DecidableEq, Repr

def propertyFalse : Int := 2

/-- `OSSL_PROPERTY_LIST`: the names are in order and different. -/
structure PropertyList where
  properties : List PropertyDefinition
  sorted : properties.Pairwise (·.nameIdx < ·.nameIdx)

/-- `stack_to_property_list`, where the sort is one by insertion -/
def stackToPropertyList (sk : List PropertyDefinition) : Option PropertyList :=
  let r := sk.insertionSort (·.nameIdx ≤ ·.nameIdx)
  if h : r.IsChain (·.nameIdx ≠ ·.nameIdx) then
    some
      { properties := r
        sorted := by
          have hle : r.Pairwise (·.nameIdx ≤ ·.nameIdx) := by
            have : Std.Total fun a b : PropertyDefinition => a.nameIdx ≤ b.nameIdx :=
              ⟨fun _ _ => Int.le_total ..⟩
            have : IsTrans PropertyDefinition (·.nameIdx ≤ ·.nameIdx) := ⟨fun _ _ _ => Int.le_trans⟩
            exact List.pairwise_insertionSort ..
          have : IsTrans PropertyDefinition (·.nameIdx < ·.nameIdx) := ⟨fun _ _ _ => Int.lt_trans⟩
          rw [← List.isChain_iff_pairwise, List.isChain_iff_forall_rel_of_append_cons_cons]
          intro a b l₁ l₂ hr
          have hab := List.isChain_iff_forall_rel_of_append_cons_cons.1 hle.isChain hr
          have hne := List.isChain_iff_forall_rel_of_append_cons_cons.1 h hr
          omega }
  else none

/-- Both in the definition and in the query. -/
def matchDefined (q d : PropertyDefinition) : Bool :=
  let eq := q.type = d.type ∧ q.v = d.v
  (eq ∧ q.oper = .eq) ∨ (¬ eq ∧ q.oper = .ne)

/-- A missing value, or a query with no corresponding definition. -/
def matchMissing (q : PropertyDefinition) : Bool :=
  if q.type = .valueUndefined then q.oper = .ne
  else ¬ (q.type ≠ .string ∨ (q.oper = .eq ∧ q.v ≠ propertyFalse) ∨
    (q.oper = .ne ∧ q.v = propertyFalse))

/-- The loop of `ossl_property_match_count`, from `q[i]` and `d[j]` on. -/
def matchCountLoop : (q d : List PropertyDefinition) → (count : Int) → Int
  | [], _, count => count
  | qi :: q, [], count =>
    if qi.oper = .override then matchCountLoop q [] count
    else if matchMissing qi then matchCountLoop q [] (count + 1)
    else if !qi.optional then -1
    else matchCountLoop q [] count
  | qi :: q, dj :: d, count =>
    if qi.oper = .override then matchCountLoop q (dj :: d) count
    else if qi.nameIdx > dj.nameIdx then matchCountLoop (qi :: q) d count
    else if qi.nameIdx = dj.nameIdx then
      if matchDefined qi dj then matchCountLoop q d (count + 1)
      else if !qi.optional then -1
      else matchCountLoop q d count
    else if matchMissing qi then matchCountLoop q (dj :: d) (count + 1)
    else if !qi.optional then -1
    else matchCountLoop q (dj :: d) count
termination_by q d => q.length + d.length

def propertyMatchCount (query defn : PropertyList) : Int :=
  matchCountLoop query.properties defn.properties 0

end QuicTls
