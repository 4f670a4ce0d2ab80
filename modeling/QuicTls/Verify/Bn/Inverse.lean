import QuicTls.Crypto.Bn.Inverse
import QuicTls.Verify.Bn.Gcd
import Mathlib.Data.Int.ModEq

/-!
# The exchange of pointers in the inversion loops

The pointers always point to different objects, so the loops compute on values
(`mod_inverse_exact`).
-/

namespace QuicTls.Bn.Inverse

variable {Obj : Type} [DecidableEq Obj] {h : Heap Obj}

namespace Heap

@[simp] theorem ptr_set (h : Heap Obj) (v : Var) (x : Int) : (h.set v x).ptr = h.ptr := rfl

@[simp] theorem ptr_write (h : Heap Obj) (o : Obj) (x : Int) : (h.write o x).ptr = h.ptr := rfl

@[simp] theorem sign_set (h : Heap Obj) (v : Var) (x : Int) : (h.set v x).sign = h.sign := rfl

/-- No two variables point to one object. -/
def Separate (h : Heap Obj) : Prop := Function.Injective h.ptr

@[simp] theorem separate_set {v : Var} {x : Int} : (h.set v x).Separate ↔ h.Separate := Iff.rfl

/-- A write through one pointer changes no other variable. -/
theorem get_set (hsep : h.Separate) (v u : Var) (x : Int) :
    (h.set v x).get u = if u = v then x else h.get u := by
  by_cases huv : u = v
  · subst huv
    simp [get, set, write]
  · rw [if_neg huv]
    exact Function.update_of_ne (fun heq => huv (hsep heq)) _ _

/-- What the loops compute on. -/
def euclid (h : Heap Obj) : Z.Euclid := ⟨h.get .A, h.get .B, h.get .X, h.get .Y, h.sign⟩

end Heap

open Heap

/-- The variables after a round, as variables before it. -/
def rotated : Var → Var
  | .A => .B
  | .B => .M
  | .X => .A
  | .D => .D
  | .M => .Y
  | .Y => .X
  | .T => .T

theorem rotated_injective : Function.Injective rotated := by
  intro u v h
  cases u <;> cases v <;> first | rfl | cases h

/-- One exchange of the pointers: `filled` is what the object of `A` is filled with. -/
theorem rotate_spec (hsep : h.Separate) {fill : Obj → Heap Obj → Heap Obj} {filled : Int}
    (hfill : ∀ g : Heap Obj, g.mem = h.mem → g.ptr .X = h.ptr .X → g.ptr .Y = h.ptr .Y →
      g.ptr .D = h.ptr .D → fill (h.ptr .A) g = g.write (h.ptr .A) filled) :
    (rotate fill h).Separate ∧
      (rotate fill h).euclid = ⟨h.get .B, h.get .M, filled, h.get .X, -h.sign⟩ := by
  have hwrite := hfill ((h.point .A (h.ptr .B)).point .B ((h.point .A (h.ptr .B)).ptr .M)) rfl
    (by simp [point]) (by simp [point]) (by simp [point])
  have hptr : (rotate fill h).ptr = h.ptr ∘ rotated := by
    funext v
    rw [rotate]
    rw [hwrite]
    cases v <;> simp [point, rotated]
  have hmem : (rotate fill h).mem = Function.update h.mem (h.ptr .A) filled := by
    rw [rotate]
    rw [hwrite]
    rfl
  have hsign : (rotate fill h).sign = -h.sign := by
    rw [rotate]
    rw [hwrite]
    rfl
  -- the other objects keep their values
  have hkeep : ∀ v, v ≠ .A → Function.update h.mem (h.ptr .A) filled (h.ptr v) = h.get v :=
    fun v hv => Function.update_of_ne (fun heq => hv (hsep heq)) _ _
  constructor
  · rw [Separate, hptr]
    exact hsep.comp rotated_injective
  · simp only [euclid, Heap.get, hptr, hmem, hsign, Function.comp_apply, rotated,
      hkeep .B (by decide), hkeep .M (by decide), hkeep .X (by decide), Function.update_self]

section Fill

variable (hsep : h.Separate)
include hsep

theorem rotate_fillProduct : (rotate fillProduct h).Separate ∧ (rotate fillProduct h).euclid =
      ⟨h.get .B, h.get .M, h.get .D * h.get .X + h.get .Y, h.get .X, -h.sign⟩ := by
  apply rotate_spec hsep
  intro g hmem hX hY hD
  have hne : h.ptr .Y ≠ h.ptr .A := fun heq => Var.noConfusion (hsep heq)
  simp [fillProduct, write, Heap.get, hmem, hX, hY, hD, hne]

theorem rotate_fillSmall : (rotate fillSmall h).Separate ∧ (rotate fillSmall h).euclid =
      ⟨h.get .B, h.get .M, Z.mulAdd (h.get .D) (h.get .X) (h.get .Y), h.get .X, -h.sign⟩ := by
  apply rotate_spec hsep
  intro g hmem hX hY hD
  have hne : h.ptr .Y ≠ h.ptr .A := fun heq => Var.noConfusion (hsep heq)
  have hgX : g.get .X = h.get .X := by simp [Heap.get, hmem, hX]
  have hgY : g.get .Y = h.get .Y := by simp [Heap.get, hmem, hY]
  have hgD : g.get .D = h.get .D := by simp [Heap.get, hmem, hD]
  have hkeep : ∀ x, (g.write (h.ptr .A) x).get .Y = h.get .Y := by
    simp [write, Heap.get, hmem, hY, hne]
  rw [fillSmall, Z.mulAdd, hgX, hgY, hgD]
  split
  · rfl
  · dsimp only
    rw [hkeep]
    simp [write]

theorem quotRem_values : (quotRem h).ptr = h.ptr ∧ (quotRem h).sign = h.sign ∧
    (∀ v, v ≠ .D → v ≠ .M → v ≠ .T → (quotRem h).get v = h.get v) ∧
    ((quotRem h).get .D, (quotRem h).get .M) = Z.quotRem (h.get .A) (h.get .B) := by
  rw [quotRem, Z.quotRem]
  simp only [Heap.get_set, hsep, separate_set, reduceCtorEq, if_false, if_true]
  split_ifs <;> refine ⟨rfl, rfl, fun v hD hM hT => ?_, ?_⟩ <;> simp [Heap.get_set, *]

end Fill

/-! ### The loops -/

/-- A loop on objects ends like the one on values, with its pointers apart. -/
structure Simulates (o : Option (Heap Obj)) (z : Option Z.Euclid) : Prop where
  euclid : o.map Heap.euclid = z
  separate : ∀ h, o = some h → h.Separate

omit [DecidableEq Obj] in
theorem Simulates.none : Simulates (none : Option (Heap Obj)) none := ⟨rfl, fun _ h => nomatch h⟩

omit [DecidableEq Obj] in
theorem Simulates.some (hsep : h.Separate) : Simulates (some h) (some h.euclid) :=
  ⟨rfl, fun _ heq => Option.some.inj heq ▸ hsep⟩

omit [DecidableEq Obj] in
theorem Simulates.of_eq {o : Option (Heap Obj)} {z z' : Option Z.Euclid} (h : Simulates o z)
    (heq : z = z') : Simulates o z' := heq ▸ h

theorem noBranchLoop_simulates (fuel : Nat) (hsep : h.Separate) :
    Simulates (noBranchLoop fuel h) (Z.noBranchLoop fuel h.euclid) := by
  induction fuel generalizing h with
  | zero => exact .none
  | succ fuel ih =>
    rw [noBranchLoop, Z.noBranchLoop]
    have hB : h.euclid.B = h.get .B := rfl
    rw [hB]
    split
    · exact .some hsep
    · obtain ⟨hsep', heuclid⟩ := @rotate_fillProduct Obj _
        ((h.set .D ((h.get .A).tdiv (h.get .B))).set .M ((h.get .A).tmod (h.get .B))) hsep
      refine (ih hsep').of_eq ?_
      rw [heuclid]
      simp [Heap.get_set, hsep, euclid]

theorem generalLoop_simulates (fuel : Nat) (hsep : h.Separate) :
    Simulates (generalLoop fuel h) (Z.generalLoop fuel h.euclid) := by
  induction fuel generalizing h with
  | zero => exact .none
  | succ fuel ih =>
    rw [generalLoop, Z.generalLoop]
    have hB : h.euclid.B = h.get .B := rfl
    rw [hB]
    split
    · exact .some hsep
    obtain ⟨hptr, hsign, hkeep, hquot⟩ := quotRem_values hsep
    obtain ⟨hsep', heuclid⟩ := rotate_fillSmall (by rwa [Separate, hptr])
    have hnext := ih hsep'
    have hA : h.euclid.A = h.get .A := rfl
    rw [heuclid, hsign, hkeep .B (by decide) (by decide) (by decide),
      hkeep .X (by decide) (by decide) (by decide),
      hkeep .Y (by decide) (by decide) (by decide)] at hnext
    rw [hA, ← hquot]
    exact hnext

theorem strip_spec (n : Int) {b x : Var} (hbx : b ≠ x) (hsep : h.Separate) :
    match Z.halvings n (h.get b) (Z.numBits (h.get b)) 0 (h.get x) with
    | none => strip n b x h = none
    | some (shift, X) => ∃ h', strip n b x h = some h' ∧ h'.ptr = h.ptr ∧ h'.sign = h.sign ∧
        h'.get x = X ∧ h'.get b = (h.get b).tdiv (2 ^ shift) ∧
        ∀ v, v ≠ b → v ≠ x → h'.get v = h.get v := by
  rw [strip]
  cases Z.halvings n (h.get b) (Z.numBits (h.get b)) 0 (h.get x) with
  | none => rfl
  | some p =>
    obtain ⟨shift, X⟩ := p
    refine ⟨_, rfl, ?_⟩
    split
    · refine ⟨rfl, rfl, ?_, ?_, fun v hb hx => ?_⟩ <;> simp [Heap.get_set, hbx.symm, *]
    · obtain rfl : shift = 0 := by omega
      refine ⟨rfl, rfl, ?_, ?_, fun v hb hx => ?_⟩ <;> simp [Heap.get_set, *]

/-- The binary loop exchanges no pointers, but it writes through them. -/
theorem binaryLoop_simulates (n : Int) (fuel : Nat) (hsep : h.Separate) :
    Simulates (binaryLoop n fuel h) (Z.binaryLoop n fuel h.euclid) := by
  induction fuel generalizing h with
  | zero => exact .none
  | succ fuel ih =>
    rw [binaryLoop, Z.binaryLoop]
    have hB : h.euclid.B = h.get .B := rfl
    rw [hB]
    split
    · exact .some hsep
    -- the two pairs of variables are stripped one after the other
    have hfirst := strip_spec n (b := .B) (x := .X) (by decide) hsep
    have hA : h.euclid.A = h.get .A := rfl
    have hX : h.euclid.X = h.get .X := rfl
    have hY : h.euclid.Y = h.get .Y := rfl
    rw [hA, hX, hY]
    cases hb : Z.halvings n (h.get .B) (Z.numBits (h.get .B)) 0 (h.get .X) with
    | none =>
      rw [hb] at hfirst
      rw [hfirst]
      exact .none
    | some p =>
      obtain ⟨sb, X⟩ := p
      rw [hb] at hfirst
      obtain ⟨h₁, hrun₁, hptr₁, hsign₁, hX₁, hB₁, hkeep₁⟩ := hfirst
      have hsep₁ : h₁.Separate := by rwa [Separate, hptr₁]
      have hsecond := strip_spec n (b := .A) (x := .Y) (by decide) hsep₁
      rw [hkeep₁ .A (by decide) (by decide), hkeep₁ .Y (by decide) (by decide)] at hsecond
      rw [hrun₁, Option.bind_some]
      cases ha : Z.halvings n (h.get .A) (Z.numBits (h.get .A)) 0 (h.get .Y) with
      | none =>
        rw [ha] at hsecond
        rw [hsecond]
        exact .none
      | some q =>
        rw [ha] at hsecond
        obtain ⟨h₂, hrun₂, hptr₂, hsign₂, hY₂, hA₂, hkeep₂⟩ := hsecond
        have hsep₂ : h₂.Separate := by rwa [Separate, hptr₂]
        have hB₂ : h₂.get .B = (h.get .B).tdiv (2 ^ sb) :=
          (hkeep₂ .B (by decide) (by decide)).trans hB₁
        have hX₂ : h₂.get .X = X := (hkeep₂ .X (by decide) (by decide)).trans hX₁
        rw [hrun₂]
        dsimp only
        rw [hB₂, hA₂]
        split <;> refine (ih ?_).of_eq ?_ <;> first | exact hsep₂ |
          simp [euclid, Heap.get_set, hsep₂, hA₂, hB₂, hX₂, hY₂, hsign₂, hsign₁]

theorem start_euclid {ptr : Var → Obj} (hinj : Function.Injective ptr) (mem : Obj → Int)
    (a n : Int) : (start ptr mem a n).ptr = ptr ∧
      (start ptr mem a n).euclid = Z.Euclid.init a n := by
  have hsep : (Heap.mk ptr mem (-1)).Separate := hinj
  rw [start, Z.Euclid.init]
  simp only [Heap.get_set, hsep, separate_set, reduceCtorEq, if_false, if_true]
  split <;> exact ⟨rfl, by simp [euclid, Heap.get_set, hsep]⟩

theorem finish_euclid (n : Int) (hsep : h.Separate) :
    finish n h = (Z.inverseOf n h.euclid, (Z.inverseOf n h.euclid).isNone) := by
  rw [finish, Z.inverseOf]
  have hA : h.euclid.A = h.get .A := rfl
  have hY : h.euclid.Y = h.get .Y := rfl
  have hsign : h.euclid.sign = h.sign := rfl
  rw [hA, hsign]
  split
  · simp only [Heap.get_set, hsep, reduceCtorEq, if_false]
    split <;> rfl
  · split <;> rfl

/-! ### The result -/

section Result

variable {ptr : Var → Obj} (hinj : Function.Injective ptr)
include hinj

/-- The inversion computes on values, by the algorithm that it chooses. -/
theorem intBnModInverse_eq (fuel : Nat) (mem : Obj → Int) (aConst nConst : Bool) {a n : Int}
    (hn : ¬ (n.natAbs = 1 ∨ n = 0)) :
    intBnModInverse fuel ptr mem aConst nConst a n =
      (if aConst || nConst then Z.noBranchLoop fuel (Z.Euclid.init a n)
        else if n.natAbs % 2 = 1 ∧ Z.numBits n ≤ 2048 then
          Z.binaryLoop n fuel (Z.Euclid.init a n)
        else Z.generalLoop fuel (Z.Euclid.init a n)).map
        fun st => (Z.inverseOf n st, (Z.inverseOf n st).isNone) := by
  obtain ⟨hptr, hstart⟩ := start_euclid hinj mem a n
  have hsep : (start ptr mem a n).Separate := by rwa [Separate, hptr]
  have hfinish : ∀ {o : Option (Heap Obj)} {z : Option Z.Euclid}, Simulates o z →
      o.map (finish n) = z.map fun st => (Z.inverseOf n st, (Z.inverseOf n st).isNone) := by
    intro o z h
    rw [← h.euclid]
    cases o with
    | none => rfl
    | some g => exact congrArg some (finish_euclid n (h.separate g rfl))
  rw [intBnModInverse, if_neg hn, ← hstart]
  split
  · exact hfinish (noBranchLoop_simulates fuel hsep)
  split
  · exact hfinish (binaryLoop_simulates n fuel hsep)
  · exact hfinish (generalLoop_simulates fuel hsep)

/-- `BN_are_coprime` looks for an inverse, which the code does not have modulo 1. -/
theorem bnAreCoprime_eq (mem : Obj → Int) (bConst : Bool) (a : Int) {b : Int} (hb : b ≠ 0)
    {fuel : Nat} (hfuel : 2 * b.natAbs < fuel) :
    bnAreCoprime fuel ptr mem bConst a b =
      some (decide (b.natAbs ≠ 1) && decide (Int.gcd a b = 1)) := by
  by_cases hone : b.natAbs = 1
  · rw [bnAreCoprime, bnModInverse, intBnModInverse]
    simp [hone]
  have hlarge : ¬ (b.natAbs = 1 ∨ b = 0) := by omega
  obtain ⟨st, hrun, hsign, hgcd, hdvd⟩ := Z.loops_spec (true || bConst) a hb
    (show b.natAbs < fuel by omega) hfuel
  obtain ⟨hinv, hno⟩ := Z.inverseOf_spec hb hsign hgcd hdvd
  rw [bnAreCoprime, bnModInverse, intBnModInverse_eq hinj fuel mem true bConst hlarge, hrun]
  by_cases h : Int.gcd a b = 1
  · obtain ⟨r, hr, _⟩ := hinv h
    simp [hr, h, hone]
  · simp [hno h, h]

end Result

/-- **Modular inversion is exact on all three paths.** -/
theorem mod_inverse_exact {ptr : Var → Obj} (hinj : Function.Injective ptr) (mem : Obj → Int)
    (aConst nConst : Bool) (a : Int) {n : Int} (hn : 1 < n.natAbs) {fuel : Nat}
    (hfuel : 2 * n.natAbs < fuel) :
    (Int.gcd a n = 1 → ∃ r, intBnModInverse fuel ptr mem aConst nConst a n = some (some r, false) ∧
      0 ≤ r ∧ r < n.natAbs ∧ a * r % n.natAbs = 1) ∧
    (Int.gcd a n ≠ 1 → intBnModInverse fuel ptr mem aConst nConst a n = some (none, true)) := by
  have hne : n ≠ 0 := by omega
  have hlarge : ¬ (n.natAbs = 1 ∨ n = 0) := by omega
  obtain ⟨st, hrun, hsign, hgcd, hdvd⟩ := Z.loops_spec (aConst || nConst) a hne
    (show n.natAbs < fuel by omega) hfuel
  obtain ⟨hinv, hno⟩ := Z.inverseOf_spec hne hsign hgcd hdvd
  rw [intBnModInverse_eq hinj fuel mem aConst nConst hlarge, hrun, Option.map_some]
  constructor
  · intro h
    obtain ⟨r, hr, hnonneg, hlt, hmod⟩ := hinv h
    refine ⟨r, by rw [hr]; rfl, hnonneg, hlt, ?_⟩
    have hmod' : (n.natAbs : Int) ∣ 1 - a * r := by
      rw [Int.natAbs_dvd]
      obtain ⟨i, hi⟩ := hmod
      exact ⟨-i, by linear_combination -hi⟩
    have hone : (1 : Int) % n.natAbs = 1 := Int.emod_eq_of_lt zero_le_one (by omega)
    have heq : a * r % n.natAbs = 1 % n.natAbs := Int.modEq_iff_dvd.2 hmod'
    rw [heq, hone]
  · intro h
    rw [hno h]
    rfl

/-- The inverse of -8 modulo -21 is 13. -/
theorem mod_inverse_exact_negative :
    ∃ r, intBnModInverse 43 (id : Var → Var) (fun _ => 0) false false (-8) (-21) =
      some (some r, false) ∧ 0 ≤ r ∧ r < 21 ∧ -8 * r % 21 = 1 :=
  (@mod_inverse_exact Var _ id (fun _ _ h => h) (fun _ => 0) false false (-8) (-21) (by decide) 43
    (by decide)).1 (by decide)

/-- **`BN_are_coprime` decides coprimality exactly if the second number is not 1 or -1.** -/
theorem are_coprime_iff {ptr : Var → Obj} (hinj : Function.Injective ptr) (mem : Obj → Int)
    (bConst : Bool) (a : Int) {b : Int} (hb : b ≠ 0) {fuel : Nat} (hfuel : 2 * b.natAbs < fuel) :
    (bnAreCoprime fuel ptr mem bConst a b = some true ↔ Int.gcd a b = 1) ↔ b.natAbs ≠ 1 := by
  rw [bnAreCoprime_eq hinj mem bConst a hb hfuel]
  have hone : b.natAbs = 1 → Int.gcd a b = 1 := by
    intro h
    exact Nat.dvd_one.1 (h ▸ Int.gcd_dvd_natAbs_right a b)
  by_cases h : b.natAbs = 1
  · simp [hone h]
  · simp [h]

/-- Eight and 21 are coprime. -/
theorem are_coprime_eight : bnAreCoprime 43 (id : Var → Var) (fun _ => 0) false 8 21 = some true :=
  ((are_coprime_iff (fun _ _ h => h) (fun _ => 0) false 8 (by decide) (by decide)).2
    (by decide)).2 (by decide)

/-- Eight and 1 are reported as not coprime. -/
theorem are_coprime_modulo_one :
    bnAreCoprime 43 (id : Var → Var) (fun _ => 0) false 8 1 = some false ∧ Int.gcd 8 1 = 1 := by
  decide

end QuicTls.Bn.Inverse
