import Mathlib.Algebra.BigOperators.Ring.List
import Mathlib.Data.List.ProdSigma
import QuicTls.Verify.Bn.Lib

/-!
# The column-wise products are exact

The Comba functions add up the products of words column by column, in an accumulator of three words
(`val_combaLoop`). When the columns have every pair of words once, each in its place, the sum is the
product of the numbers: `combaLoop_spec`. For four and eight words that is checked by evaluation.
-/

namespace QuicTls.Bn

open Limbs List

variable {w : Nat} {a : Words w}

/-- The number in an accumulator. -/
def Acc.val (c : Acc w) : Nat := c.c0.toNat + 2 ^ w * (c.c1.toNat + 2 ^ w * c.c2.toNat)

/-- One product is added exactly if the sum fits in three words. -/
theorem val_mulAddC (hpos : 0 < w) (a b : Word w) (c : Acc w)
    (hfits : c.val + a.toNat * b.toNat < (2 ^ w) ^ 3) :
    (mulAddC a b c).val = c.val + a.toNat * b.toNat := by
  have hprod := mul_add_add_lt a b c.c0 0#w
  simp only [BitVec.toNat_ofNat, Nat.zero_mod, Nat.add_zero] at hprod
  have hlw := lw_add_hw (a.toDWord * b.toDWord + c.c0.toDWord)
  rw [BitVec.toNat_add, BitVec.toNat_mul, toNat_toDWord, toNat_toDWord, toNat_toDWord,
    Nat.mod_add_mod, Nat.mod_eq_of_lt hprod] at hlw
  have hc1 := add_spec c.c1 (hw (a.toDWord * b.toDWord + c.c0.toDWord))
  simp only [mulAddC, Acc.val] at hfits ⊢
  generalize a.toDWord * b.toDWord + c.c0.toDWord = t at *
  have hbit := toNat_bit hpos (c.c1 + hw t < hw t)
  simp only [decide_eq_true_eq] at hbit
  rw [← hbit] at hc1
  have hsum : c.c2.toNat + (bit (decide (c.c1 + hw t < hw t)) : Word w).toNat < 2 ^ w := by
    by_contra hover
    have hmul := Nat.mul_le_mul_left (2 ^ w * 2 ^ w) (Nat.not_lt.1 hover)
    have hscaled : 2 ^ w * (c.c1.toNat + (hw t).toNat) = 2 ^ w * ((c.c1 + hw t).toNat +
        2 ^ w * (bit (decide (c.c1 + hw t < hw t)) : Word w).toNat) := by
      rw [hc1]
    have hhigh := Nat.zero_le (2 ^ w * (c.c1 + hw t).toNat)
    linarith only [hmul, hscaled, hfits, hlw, hhigh]
  rw [BitVec.toNat_add c.c2, Nat.mod_eq_of_lt hsum]
  linear_combination hlw - 2 ^ w * hc1

/-- The sum of the products of a column. -/
def columnSum (a b : Words w) (column : List (Nat × Nat)) : Nat :=
  (column.map fun ij => (a.getD ij.1 0#w).toNat * (b.getD ij.2 0#w).toNat).sum

theorem columnSum_cons (a b : Words w) (ij : Nat × Nat) (column : List (Nat × Nat)) :
    columnSum a b (ij :: column) =
      (a.getD ij.1 0#w).toNat * (b.getD ij.2 0#w).toNat + columnSum a b column := rfl

theorem columnSum_le (a b : Words w) (column : List (Nat × Nat)) :
    columnSum a b column ≤ column.length * (2 ^ w * 2 ^ w) := by
  induction column with
  | nil => exact Nat.zero_le _
  | cons ij column ih =>
    rw [columnSum_cons, length_cons, Nat.add_mul, Nat.one_mul, Nat.add_comm]
    exact Nat.add_le_add ih (Nat.mul_le_mul (BitVec.isLt _).le (BitVec.isLt _).le)

theorem val_column (hpos : 0 < w) (a b : Words w) (column : List (Nat × Nat)) (c : Acc w)
    (hfits : c.val + columnSum a b column < (2 ^ w) ^ 3) :
    (column.foldl (fun c ij => mulAddC (a.getD ij.1 0#w) (b.getD ij.2 0#w) c) c).val =
      c.val + columnSum a b column := by
  induction column generalizing c with
  | nil => rfl
  | cons ij column ih =>
    rw [columnSum_cons] at hfits ⊢
    have hone := val_mulAddC hpos (a.getD ij.1 0#w) (b.getD ij.2 0#w) c (by omega)
    rw [foldl_cons, ih _ (by rw [hone]; omega)]
    omega

/-- The number that the columns add up to. -/
def columnsSum (a b : Words w) : List (List (Nat × Nat)) → Nat
  | [] => 0
  | column :: columns => columnSum a b column + 2 ^ w * columnsSum a b columns

theorem word_add_mod (x : Word w) (y n : Nat) :
    (x.toNat + 2 ^ w * y) % (2 ^ w) ^ (n + 1) = x.toNat + 2 ^ w * (y % (2 ^ w) ^ n) := by
  rw [Nat.pow_succ, Nat.mul_comm _ (2 ^ w), Nat.mod_mul, Nat.add_mul_mod_self_left,
    Nat.mod_eq_of_lt x.isLt, Nat.add_mul_div_left _ _ (Nat.two_pow_pos w),
    Nat.div_eq_of_lt x.isLt, Nat.zero_add]

/-- The columns are summed up modulo the size of the result. -/
theorem val_combaLoop (hpos : 0 < w) (a b : Words w) {columns : List (List (Nat × Nat))}
    (hshort : ∀ column ∈ columns, column.length + 1 ≤ 2 ^ w) {c : Acc w}
    (hc : c.val < 2 ^ w * 2 ^ w) :
    val (combaLoop a b c columns) =
      (c.val + columnsSum a b columns) % (2 ^ w) ^ (columns.length + 1) := by
  induction columns generalizing c with
  | nil =>
    rw [combaLoop, val_singleton, columnsSum, Nat.add_zero, length_nil,
      Nat.pow_one, Acc.val, Nat.add_mul_mod_self_left, Nat.mod_eq_of_lt c.c0.isLt]
  | cons column columns ih =>
    have hle := columnSum_le a b column
    have hlen := Nat.mul_le_mul_right (2 ^ w * 2 ^ w) (hshort column mem_cons_self)
    have hsum := val_column hpos a b column c (by
      rw [show (2 ^ w) ^ 3 = 2 ^ w * (2 ^ w * 2 ^ w) by ring]
      rw [Nat.add_mul] at hlen
      omega)
    rw [combaLoop]
    generalize List.foldl _ c column = c' at *
    have hrest : (⟨c'.c1, c'.c2, 0#w⟩ : Acc w).val = c'.c1.toNat + 2 ^ w * c'.c2.toNat := by
      simp [Acc.val]
    have hnext : (⟨c'.c1, c'.c2, 0#w⟩ : Acc w).val < 2 ^ w * 2 ^ w := by
      have h2 := Nat.mul_le_mul_left (2 ^ w) (Nat.succ_le_of_lt c'.c2.isLt)
      rw [Nat.succ_eq_add_one, Nat.mul_add] at h2
      omega
    have htotal : c.val + columnsSum a b (column :: columns) =
        c'.c0.toNat + 2 ^ w * (c'.c1.toNat + 2 ^ w * c'.c2.toNat + columnsSum a b columns) := by
      rw [columnsSum, ← Nat.add_assoc, ← hsum, Acc.val]
      ring
    rw [val_cons, ih (fun x hx => hshort x (mem_cons_of_mem _ hx)) hnext, hrest, htotal,
      length_cons, word_add_mod]

theorem length_combaLoop (a b : Words w) (columns : List (List (Nat × Nat))) (c : Acc w) :
    (combaLoop a b c columns).length = columns.length + 1 := by
  induction columns generalizing c with
  | nil => rfl
  | cons column columns ih => simp only [combaLoop, length_cons, ih]

/-- `r` is the product of `a` and `b` in `n` words. -/
structure IsProduct (r : Words w) (n a b : Nat) : Prop where
  val : val r = a * b
  length : r.length = n

theorem mul_val_lt (a b : Words w) : val a * val b < (2 ^ w) ^ (a.length + b.length) := by
  rw [Nat.pow_add]
  exact Nat.mul_lt_mul'' (val_lt a) (val_lt b)

/-- The word at an index, at its place in the number. -/
def term (a : Words w) (i : Nat) : Nat := (a.getD i 0#w).toNat * (2 ^ w) ^ i

theorem sum_terms (a : Words w) : ((List.range a.length).map (term a)).sum = val a := by
  induction a with
  | nil => rfl
  | cons x a ih =>
    have hterm : term (x :: a) ∘ Nat.succ = fun i => 2 ^ w * term a i := by
      funext i
      simp only [Function.comp, term, Nat.succ_eq_add_one, getD_cons_succ, Nat.pow_succ]
      ring
    rw [length_cons, range_succ_eq_map, map_cons, map_map, sum_cons, val_cons, ← ih, hterm,
      sum_map_mul_left]
    simp [term]

theorem sum_product (f g : Nat → Nat) (is js : List Nat) :
    ((is ×ˢ js).map fun ij => f ij.1 * g ij.2).sum = (is.map f).sum * (js.map g).sum := by
  induction is with
  | nil => simp
  | cons i is ih =>
    rw [product_cons, map_append, sum_append, ih, map_cons, sum_cons, Nat.add_mul, map_map]
    exact congrArg (· + _) (sum_map_mul_left js g (f i))

/-- Every pair of a column has the place of the column, counted from `k`. -/
def Diagonal (k : Nat) (columns : List (List (Nat × Nat))) : Prop :=
  ∀ column ∈ columns.zipIdx k, ∀ ij ∈ column.1, ij.1 + ij.2 = column.2

instance (k : Nat) (columns : List (List (Nat × Nat))) : Decidable (Diagonal k columns) :=
  inferInstanceAs (Decidable (∀ column ∈ _, _))

theorem columnsSum_eq {k : Nat} (a b : Words w) {columns : List (List (Nat × Nat))}
    (h : Diagonal k columns) : (2 ^ w) ^ k * columnsSum a b columns =
      (columns.flatten.map fun ij => term a ij.1 * term b ij.2).sum := by
  induction columns generalizing k with
  | nil => rfl
  | cons column columns ih =>
    obtain ⟨hcolumn, hrest⟩ := forall_mem_cons.1 h
    have hplace : ∀ ij ∈ column, (2 ^ w) ^ k * ((a.getD ij.1 0#w).toNat * (b.getD ij.2 0#w).toNat) =
        term a ij.1 * term b ij.2 := by
      intro ij hij
      rw [term, term, show k = ij.1 + ij.2 from (hcolumn ij hij).symm, Nat.pow_add]
      ring
    rw [flatten_cons, map_append, sum_append, ← ih hrest, columnsSum, columnSum, Nat.mul_add,
      ← sum_map_mul_left, map_congr_left hplace, Nat.pow_succ, Nat.mul_assoc]

/-- Columns that have all pairs of words, each in its place, add up to the product. -/
theorem combaLoop_spec (hw : WordSize w) {n : Nat} {b : Words w} (ha : a.length = n)
    (hb : b.length = n) {columns : List (List (Nat × Nat))}
    (hshort : ∀ column ∈ columns, column.length ≤ 8) (hlen : columns.length + 1 = 2 * n)
    (hdiag : Diagonal 0 columns) (hall : columns.flatten ~ List.range n ×ˢ List.range n) :
    IsProduct (combaLoop a b ⟨0#w, 0#w, 0#w⟩ columns) (2 * n) (val a) (val b) := by
  have hsum := columnsSum_eq a b hdiag
  rw [Nat.pow_zero, Nat.one_mul, (hall.map _).sum_eq, sum_product] at hsum
  have hzero : (⟨0#w, 0#w, 0#w⟩ : Acc w).val = 0 := by simp [Acc.val]
  have hlt := mul_val_lt a b
  rw [ha, hb, ← Nat.two_mul] at hlt
  have hloop := @val_combaLoop w hw.pos a b columns
    (fun column hmem => (Nat.succ_le_succ (hshort column hmem)).trans
      (hw.lt_two_pow (by decide : 9 < 65536)).le) ⟨0#w, 0#w, 0#w⟩ (by rw [hzero]; positivity)
  subst ha
  rw [← hb, sum_terms b, hb, sum_terms a] at hsum
  rw [hzero, Nat.zero_add, hlen, hsum, Nat.mod_eq_of_lt hlt] at hloop
  exact ⟨hloop, by rw [length_combaLoop, hlen]⟩

theorem bnMulComba8_spec (hw : WordSize w) {b : Words w} (ha : a.length = 8)
    (hb : b.length = 8) : IsProduct (bnMulComba8 a b) (2 * 8) (val a) (val b) :=
  combaLoop_spec hw ha hb (by decide) (by decide) (by decide) (by decide)

/-- The column of a square with every pair of different words in both orders. -/
def doubledColumn (n k : Nat) : List (Nat × Nat) :=
  (if k % 2 = 0 then [(k / 2, k / 2)] else []) ++ (sqrColumn n k).flatMap fun ij => [ij, ij.swap]

theorem mulAddC_comm (x y : Word w) : mulAddC x y = mulAddC y x := by
  funext c
  rw [mulAddC, mulAddC, BitVec.mul_comm]

/-- `mul_add_c2` is `mul_add_c` twice. -/
theorem foldl_doubled (a : Words w) (column : List (Nat × Nat)) (c : Acc w) :
    column.foldl (fun c ij => mulAddC2 (a.getD ij.1 0#w) (a.getD ij.2 0#w) c) c =
      (column.flatMap fun ij => [ij, ij.swap]).foldl
        (fun c ij => mulAddC (a.getD ij.1 0#w) (a.getD ij.2 0#w) c) c := by
  induction column generalizing c with
  | nil => rfl
  | cons ij column ih =>
    rw [foldl_cons, ih, flatMap_cons, foldl_append, foldl_cons, foldl_cons, foldl_nil,
      Prod.fst_swap, Prod.snd_swap, mulAddC_comm (a.getD ij.2 0#w)]
    rfl

theorem sqrCombaLoop_eq (n : Nat) (a : Words w) (ks : List Nat) (c : Acc w) :
    sqrCombaLoop n a c ks = combaLoop a a c (ks.map (doubledColumn n)) := by
  induction ks generalizing c with
  | nil => rfl
  | cons k ks ih =>
    have hcol : sqrAddColumn n a c k = (doubledColumn n k).foldl
        (fun c ij => mulAddC (a.getD ij.1 0#w) (a.getD ij.2 0#w) c) c := by
      rw [sqrAddColumn, doubledColumn, foldl_append, ← foldl_doubled]
      split <;> rfl
    rw [sqrCombaLoop, map_cons, combaLoop, hcol, ih]

theorem bnSqrComba4_spec (hw : WordSize w) (ha : a.length = 4) :
    IsProduct (bnSqrComba4 a) (2 * 4) (val a) (val a) := by
  rw [bnSqrComba4, bnSqrComba, sqrCombaLoop_eq]
  exact combaLoop_spec hw ha ha (by decide) (by decide) (by decide) (by decide)

theorem bnSqrComba8_spec (hw : WordSize w) (ha : a.length = 8) :
    IsProduct (bnSqrComba8 a) (2 * 8) (val a) (val a) := by
  rw [bnSqrComba8, bnSqrComba, sqrCombaLoop_eq]
  exact combaLoop_spec hw ha ha (by decide) (by decide) (by decide) (by decide)

end QuicTls.Bn
