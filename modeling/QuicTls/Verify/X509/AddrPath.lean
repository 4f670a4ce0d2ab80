import QuicTls.Verify.X509.AddrRanges

/-!
# Address delegation along a certificate chain

The effective addresses of the first certificate of a chain are those it lists, or those of the next
certificate if it says inherit. The walk up the chain keeps, family by family, a list of entries
that the certificates above have to contain (`addr_delegation_not_exceeded`).
-/

namespace QuicTls.X509

open Intervals List

/-! ### Families -/

section
variable {a b c f : IPAddressFamily} {addr : IPAddrBlocks}

/-- The order of keys: byte by byte, and a key before its extensions. -/
theorem familyCmp_eq_compare : familyCmp a b = compare a.addressFamily b.addressFamily := by
  rw [familyCmp]
  generalize a.addressFamily = as, b.addressFamily = bs
  induction as generalizing bs with
  | nil => cases bs <;> rfl
  | cons x as ih =>
    cases bs with
    | nil => rfl
    | cons y bs =>
      have hlen : compare (x :: as).length (y :: bs).length = compare as.length bs.length := by
        simp [Nat.compare_eq_ite_lt]
      have hxy : compare x y = if x < y then .lt else if x = y then .eq else .gt := rfl
      rw [memcmp, hlen, List.compare_cons_cons, ← ih, hxy]
      have heq : x = y ↔ ¬x < y ∧ ¬y < x := by
        rw [UInt8.not_lt, UInt8.not_lt, and_comm]
        exact UInt8.le_antisymm_iff
      by_cases hlt : x < y <;> by_cases hgt : y < x <;> simp [heq, hlt, hgt]

theorem familyCmp_eq_iff : familyCmp a b = .eq ↔ a.addressFamily = b.addressFamily := by
  rw [familyCmp_eq_compare, Std.compare_eq_iff_eq]

theorem familyCmp_trans (hab : familyCmp a b = .lt) (hbc : familyCmp b c = .lt) :
    familyCmp a c = .lt := by
  rw [familyCmp_eq_compare] at hab hbc ⊢
  exact Std.TransCmp.lt_trans hab hbc

theorem pairwise_of_familiesInOrder (h : familiesInOrder addr = true) :
    addr.Pairwise fun a b => familyCmp a b = .lt := by
  induction addr with
  | nil => exact List.Pairwise.nil
  | cons a addr ih =>
    cases addr with
    | nil => exact pairwise_singleton _ _
    | cons b addr =>
      simp only [familiesInOrder, Bool.and_eq_true, beq_iff_eq] at h
      have htail := ih h.2
      refine pairwise_cons.2 ⟨fun c hc => ?_, htail⟩
      rcases mem_cons.1 hc with rfl | hc
      · exact h.1.2
      · exact familyCmp_trans h.1.2 (rel_of_pairwise_cons htail hc)

/-- A list that passed the check is left as it is by sorting. -/
theorem familySort_eq (h : familiesInOrder addr = true) : familySort addr = addr :=
  ((pairwise_of_familiesInOrder h).imp fun hlt => by simp [hlt]).insertionSort_eq

theorem familyFind_eq (addr : IPAddrBlocks) (f : IPAddressFamily) :
    familyFind addr f = addr.find? (·.addressFamily = f.addressFamily) := by
  rw [familyFind]
  congr 1
  funext g
  rw [Bool.eq_iff_iff, beq_iff_eq, familyCmp_eq_iff, decide_eq_true_iff]
  exact eq_comm

theorem familyFind_some (h : familyFind addr f = some a) :
    a ∈ addr ∧ a.addressFamily = f.addressFamily := by
  rw [familyFind_eq] at h
  exact ⟨mem_of_find?_eq_some h, by simpa using find?_some h⟩

theorem familyFind_of_mem (h : familiesInOrder addr = true) (hf : f ∈ addr) :
    familyFind addr f = some f := by
  rw [familyFind_eq]
  have hpw := pairwise_of_familiesInOrder h
  clear h
  induction addr with
  | nil => cases hf
  | cons a addr ih =>
    rcases mem_cons.1 hf with rfl | hf
    · simp
    have hlt := rel_of_pairwise_cons hpw hf
    have hne : a.addressFamily ≠ f.addressFamily := by
      intro heq
      rw [familyCmp_eq_iff.2 heq] at hlt
      cases hlt
    rw [find?_cons_of_neg (by simpa using hne)]
    exact ih hf hpw.of_cons

end

/-- The number of bytes of the addresses of a family. -/
def addressLength (key : Bytes) : Nat := lengthFromAfi (x509v3AddrGetAfi ⟨key, .inherit⟩)

/-- What an extension says about a family. -/
def choiceOf (key : Bytes) (addr : IPAddrBlocks) : Option IPAddressChoice :=
  (addr.find? (·.addressFamily = key)).map (·.ipAddressChoice)

/-- The effective addresses of the first certificate of a chain. -/
def effective (key : Bytes) : List (Option IPAddrBlocks) → Set Nat
  | [] => ∅
  | none :: _ => ∅
  | some addr :: chain =>
    match choiceOf key addr with
    | none => ∅
    | some .inherit => effective key chain
    | some (.addressesOrRanges aors) => addresses (addressLength key) aors

/-- The explicit list that the first certificate of a chain has or inherits. -/
def delegated (key : Bytes) : List (Option IPAddrBlocks) → Option IPAddressOrRanges
  | [] => none
  | none :: _ => none
  | some addr :: chain =>
    match choiceOf key addr with
    | none => none
    | some .inherit => delegated key chain
    | some (.addressesOrRanges aors) => some aors

/-- The addresses of a family that stands below a chain. -/
def IPAddressFamily.effectiveBelow (f : IPAddressFamily) (chain : List (Option IPAddrBlocks)) :
    Set Nat :=
  match f.ipAddressChoice with
  | .inherit => effective f.addressFamily chain
  | .addressesOrRanges aors => addresses (addressLength f.addressFamily) aors

/-- What the loop does with one family of the child below a certificate with the extension. -/
inductive Nested (parent : IPAddrBlocks) : IPAddressFamily → IPAddressFamily → Prop
  | absent {fc} (hfind : familyFind parent fc = none) (hfc : fc.ipAddressChoice = .inherit) :
    Nested parent fc fc
  | inherit {fc fp} (hfind : familyFind parent fc = some fp)
    (hlen : familyCheckLen fc && familyCheckLen fp) (hfp : fp.ipAddressChoice = .inherit) :
    Nested parent fc fc
  | explicit {fc fp aorsP} (hfind : familyFind parent fc = some fp)
    (hlen : familyCheckLen fc && familyCheckLen fp)
    (hfp : fp.ipAddressChoice = .addressesOrRanges aorsP)
    (hfc : ∀ aorsC, fc.ipAddressChoice = .addressesOrRanges aorsC →
      addrContains (addressLength fc.addressFamily) aorsP aorsC = true) : Nested parent fc fp

section
variable {addr parent child child' : IPAddrBlocks} {f fc fc' fp : IPAddressFamily}
  {chain : List (Option IPAddrBlocks)} {i : Int} {last : Option IPAddrBlocks}

/-! ### One certificate -/

theorem nestChild_cons_of_nested (h : Nested parent fc fc') :
    nestChild false parent (fc :: child) = (nestChild false parent child).map (fc' :: ·) := by
  rw [nestChild]
  cases h with
  | absent hfind hfc => simp [hfind, hfc]
  | inherit hfind hlen hfp =>
    rw [Bool.and_eq_true] at hlen
    simp [hfind, hfp, hlen.1, hlen.2]
  | explicit hfind hlen hfp hfc =>
    rw [Bool.and_eq_true] at hlen
    simp only [hfind, hfp, hlen.1, hlen.2]
    cases hchoice : fc.ipAddressChoice with
    | inherit => rfl
    | addressesOrRanges aorsC =>
      have hcontains := hfc aorsC hchoice
      exact if_pos hcontains

/-- A family that is nested has a parent. -/
theorem nested_of_nestChild_cons (h : (nestChild false parent (fc :: child)).isSome = true) :
    ∃ fc', Nested parent fc fc' := by
  rw [nestChild] at h
  cases hfind : familyFind parent fc with
  | none =>
    simp only [hfind] at h
    cases hfc : fc.ipAddressChoice with
    | inherit => exact ⟨fc, .absent hfind hfc⟩
    | addressesOrRanges aorsC => simp [hfc] at h
  | some fp =>
    simp only [hfind] at h
    split at h
    · cases h
    rename_i hlen
    have hlen' : (familyCheckLen fc && familyCheckLen fp) = true := by
      cases hc : familyCheckLen fc <;> cases hp : familyCheckLen fp <;> simp [hc, hp] at hlen ⊢
    cases hfp : fp.ipAddressChoice with
    | inherit => exact ⟨fc, .inherit hfind hlen' hfp⟩
    | addressesOrRanges aorsP =>
      refine ⟨fp, .explicit hfind hlen' hfp fun aorsC hfc => ?_⟩
      simp only [hfp, hfc] at h
      split at h
      · assumption
      · cases h

/-- The loop succeeds if and only if it can deal with every family. -/
theorem nestChild_eq_some : nestChild false parent child = some child' ↔
    List.Forall₂ (Nested parent) child child' := by
  induction child generalizing child' with
  | nil => simp [nestChild]
  | cons fc child ih =>
    constructor
    · intro h
      obtain ⟨fc', hnested⟩ := nested_of_nestChild_cons (Option.isSome_iff_exists.2 ⟨_, h⟩)
      rw [nestChild_cons_of_nested hnested] at h
      obtain ⟨tail, htail, rfl⟩ := Option.map_eq_some_iff.1 h
      exact .cons hnested (ih.1 htail)
    · rintro (_ | ⟨hnested, htail⟩)
      rw [nestChild_cons_of_nested hnested, ih.2 htail]
      rfl

theorem exists_nested_of_mem (h : List.Forall₂ (Nested parent) child child') (hfc : fc ∈ child) :
    ∃ fc' ∈ child', Nested parent fc fc' := by
  induction h with
  | nil => cases hfc
  | @cons _ fc' _ _ hnested _ ih =>
    rcases mem_cons.1 hfc with rfl | hfc
    · exact ⟨fc', mem_cons_self, hnested⟩
    · obtain ⟨g, hg, hgn⟩ := ih hfc
      exact ⟨g, mem_cons_of_mem _ hg, hgn⟩

theorem Nested.addressFamily_eq (h : Nested parent fc fc') :
    fc'.addressFamily = fc.addressFamily := by
  cases h with
  | absent | inherit => rfl
  | explicit hfind => exact (familyFind_some hfind).2

theorem checkAbsent_iff : checkAbsent false child = true ↔
    ∀ fc ∈ child, familyCheckLen fc = true ∧ fc.ipAddressChoice = .inherit := by
  induction child with
  | nil => simp [checkAbsent]
  | cons fc child ih =>
    rw [checkAbsent, forall_mem_cons, ← ih]
    cases familyCheckLen fc <;> by_cases hfc : fc.ipAddressChoice = .inherit <;> simp

theorem checkAnchor_iff : checkAnchor false child addr = true ↔
    ∀ fp ∈ addr, familyCheckLen fp = true ∧
      (fp.ipAddressChoice = .inherit → familyFind child fp = none) := by
  induction addr with
  | nil => simp [checkAnchor]
  | cons fp addr ih =>
    rw [checkAnchor, forall_mem_cons, ← ih]
    cases familyCheckLen fp <;> by_cases hfp : fp.ipAddressChoice = .inherit <;>
      cases familyFind child fp <;> simp

theorem effective_of_find_eq_none (h : familyFind addr f = none) :
    effective f.addressFamily (some addr :: chain) = ∅ := by
  rw [familyFind_eq] at h
  rw [effective, choiceOf, h]
  rfl

theorem effective_of_find_eq_some (h : familyFind addr f = some fp) :
    effective f.addressFamily (some addr :: chain) = fp.effectiveBelow chain := by
  have hkey := (familyFind_some h).2
  rw [familyFind_eq] at h
  rw [effective, choiceOf, h, Option.map_some, IPAddressFamily.effectiveBelow, hkey]
  cases fp.ipAddressChoice <;> rfl

theorem effectiveBelow_inherit (h : f.ipAddressChoice = .inherit) :
    f.effectiveBelow chain = effective f.addressFamily chain := by
  rw [IPAddressFamily.effectiveBelow, h]

theorem effectiveBelow_explicit {aors : IPAddressOrRanges}
    (h : f.ipAddressChoice = .addressesOrRanges aors) :
    f.effectiveBelow chain = addresses (addressLength f.addressFamily) aors := by
  rw [IPAddressFamily.effectiveBelow, h]

namespace Nested

/-- What a family stands for is never more than what is kept for the certificates above. -/
theorem effectiveBelow_subset (h : Nested parent fc fc') :
    fc.effectiveBelow (some parent :: chain) ⊆ fc'.effectiveBelow chain := by
  cases h with
  | absent hfind hfc =>
    rw [effectiveBelow_inherit hfc, effective_of_find_eq_none hfind]
    exact Set.empty_subset _
  | inherit hfind _ hfp =>
    cases hfc : fc.ipAddressChoice with
    | inherit =>
      rw [effectiveBelow_inherit hfc, effectiveBelow_inherit hfc, effective_of_find_eq_some hfind,
        effectiveBelow_inherit hfp, (familyFind_some hfind).2]
    | addressesOrRanges aors => rw [effectiveBelow_explicit hfc, effectiveBelow_explicit hfc]
  | explicit hfind _ hfp hcontains =>
    cases hfc : fc.ipAddressChoice with
    | inherit => rw [effectiveBelow_inherit hfc, effective_of_find_eq_some hfind]
    | addressesOrRanges aors =>
      rw [effectiveBelow_explicit hfc, effectiveBelow_explicit hfp, (familyFind_some hfind).2]
      exact addresses_subset_of_addrContains (hcontains aors hfc)

/-- The certificate itself has the addresses, unless it inherits them from one that has not. -/
theorem subset_effective (h : Nested parent fc fc')
    (habove : ∀ fp, familyFind parent fc = some fp → fp.ipAddressChoice = .inherit →
      fc.effectiveBelow chain ⊆ effective fc.addressFamily chain) :
    fc.effectiveBelow (some parent :: chain) ⊆
      effective fc.addressFamily (some parent :: chain) := by
  cases h with
  | absent hfind hfc => rw [effectiveBelow_inherit hfc]
  | @inherit fp hfind hlen hfp =>
    rw [effective_of_find_eq_some hfind, effectiveBelow_inherit hfp, (familyFind_some hfind).2]
    exact (effectiveBelow_subset (.inherit hfind hlen hfp)).trans (habove fp hfind hfp)
  | explicit hfind hlen hfp hcontains =>
    rw [effective_of_find_eq_some hfind]
    exact effectiveBelow_subset (.explicit hfind hlen hfp hcontains)

theorem eq_of_inherit (h : Nested parent fc fc') (hfind : familyFind parent fc = some fp)
    (hfp : fp.ipAddressChoice = .inherit) : fc' = fc := by
  cases h with
  | absent | inherit => rfl
  | explicit hfind' _ hfp' =>
    cases hfind.symm.trans hfind'
    cases hfp.symm.trans hfp'

end Nested

/-- A callback that rejects every error. -/
def rejectAll : VerifyCb := fun _ _ => false

theorem familiesInOrder_of_canonical (h : x509v3AddrIsCanonical (some addr) = true) :
    familiesInOrder addr = true := by
  rw [x509v3AddrIsCanonical, Bool.and_eq_true] at h
  exact h.1

theorem walkChain_none : walkChain rejectAll i (none :: chain) child = some child' ↔
    checkAbsent false child = true ∧ walkChain rejectAll (i + 1) chain child = some child' := by
  rw [walkChain]
  by_cases habsent : checkAbsent false child = true <;>
    simp [x509v3AddrIsCanonical, rejectAll, habsent]

theorem walkChain_some : walkChain rejectAll i (some addr :: chain) child = some child' ↔
    x509v3AddrIsCanonical (some addr) = true ∧ ∃ mid, List.Forall₂ (Nested addr) child mid ∧
      walkChain rejectAll (i + 1) chain mid = some child' := by
  rw [walkChain]
  cases hcanon : x509v3AddrIsCanonical (some addr) with
  | false => simp [rejectAll]
  | true =>
    rw [familySort_eq (familiesInOrder_of_canonical hcanon)]
    simp only [← nestChild_eq_some]
    cases hnest : nestChild false addr child <;> simp [rejectAll, hnest]

/-- **Step by step up the chain**: a family of the child has no address that a certificate above
does not have. -/
theorem subset_effective_of_walkChain (h : walkChain rejectAll i chain child = some child')
    (hlast : ∀ addr, chain.getLast? = some (some addr) → checkAnchor false child' addr = true)
    (hfc : fc ∈ child) {j : Nat} (hj : j < chain.length) :
    fc.effectiveBelow chain ⊆ effective fc.addressFamily (chain.drop j) := by
  induction chain generalizing i child fc j with
  | nil => cases hj
  | cons x chain ih =>
    have hlast' : ∀ addr, chain.getLast? = some (some addr) →
        checkAnchor false child' addr = true := by
      intro addr haddr
      apply hlast addr
      rw [getLast?_cons, haddr]
      rfl
    cases x with
    | none =>
      -- nothing is inherited from a certificate without the extension
      obtain ⟨habsent, _⟩ := walkChain_none.1 h
      rw [effectiveBelow_inherit (checkAbsent_iff.1 habsent fc hfc).2]
      exact Set.empty_subset _
    | some addr =>
      obtain ⟨_, mid, hmid, hwalk⟩ := walkChain_some.1 h
      obtain ⟨fc', hfc', hnested⟩ := exists_nested_of_mem hmid hfc
      have habove : ∀ {j}, j < chain.length →
          fc'.effectiveBelow chain ⊆ effective fc.addressFamily (chain.drop j) := by
        intro j hj
        rw [← hnested.addressFamily_eq]
        exact ih hwalk hlast' hfc' hj
      cases j with
      | succ j => exact hnested.effectiveBelow_subset.trans (habove (Nat.lt_of_succ_lt_succ hj))
      | zero =>
        apply hnested.subset_effective
        intro fp hfind hfp
        have heq : fc' = fc := hnested.eq_of_inherit hfind hfp
        cases chain with
        | nil =>
          -- the trust anchor may not inherit a family of the child
          cases hwalk
          obtain ⟨hmem, hkey⟩ := familyFind_some hfind
          have hnone := (checkAnchor_iff.1 (hlast addr rfl) fp hmem).2 hfp
          rw [familyFind_eq, find?_eq_none] at hnone
          exact absurd (by simp [hkey, heq]) (hnone fc' hfc')
        | cons y chain => exact heq ▸ habove (Nat.zero_lt_succ _)

/-! ### Chains that are accepted -/

/-- An extension in canonical form whose keys are those of address families and whose bit strings
fit the addresses. -/
structure WellFormed (addr : IPAddrBlocks) : Prop where
  canonical : x509v3AddrIsCanonical (some addr) = true
  checkLen : ∀ f ∈ addr, familyCheckLen f = true
  fit : ∀ f ∈ addr, ∀ aors, f.ipAddressChoice = .addressesOrRanges aors →
    Fit (addressLength f.addressFamily) aors

/-- Every certificate has a well-formed extension, the last one inherits nothing, and what a
certificate lists is contained in the list that the next one has or inherits. -/
structure Delegation (chain : List (Option IPAddrBlocks)) : Prop where
  wellFormed : ∀ x ∈ chain, ∃ addr, x = some addr ∧ WellFormed addr
  anchor : ∀ addr, chain.getLast? = some (some addr) → x509v3AddrInherits addr = false
  nested : ∀ addr above, some addr :: above <:+ chain → above ≠ [] → ∀ f ∈ addr, ∀ aors,
    f.ipAddressChoice = .addressesOrRanges aors →
      ∃ aorsP, delegated f.addressFamily above = some aorsP ∧
        addresses (addressLength f.addressFamily) aors ⊆
          addresses (addressLength f.addressFamily) aorsP

/-- A family of the child that the chain above will accept. -/
structure Ready (chain : List (Option IPAddrBlocks)) (fc : IPAddressFamily) : Prop where
  wellFormed : ∃ addr, WellFormed addr ∧ fc ∈ addr
  nested : chain ≠ [] → ∀ aors, fc.ipAddressChoice = .addressesOrRanges aors →
    ∃ aorsP, delegated fc.addressFamily chain = some aorsP ∧
      addresses (addressLength fc.addressFamily) aors ⊆
        addresses (addressLength fc.addressFamily) aorsP

theorem WellFormed.separated (h : WellFormed addr) (hf : f ∈ addr) {aors : IPAddressOrRanges}
    (hchoice : f.ipAddressChoice = .addressesOrRanges aors) :
    Separated (ranges (addressLength f.addressFamily) aors) := by
  have hcanon := h.canonical
  rw [x509v3AddrIsCanonical, Bool.and_eq_true, all_eq_true] at hcanon
  have hfam := hcanon.2 f hf
  rw [familyCanonical, hchoice, Bool.and_eq_true] at hfam
  exact separated_of_aorsCanonical hfam.2 (h.fit f hf aors hchoice)

namespace Delegation

theorem of_cons {x y : Option IPAddrBlocks} (h : Delegation (x :: y :: chain)) :
    Delegation (y :: chain) where
  wellFormed z hz := h.wellFormed z (mem_cons_of_mem _ hz)
  anchor addr haddr := h.anchor addr (by rw [getLast?_cons_cons, haddr])
  nested addr above hsuffix := h.nested addr above (hsuffix.trans (suffix_cons _ _))

theorem head (h : Delegation (some addr :: chain)) : WellFormed addr := by
  obtain ⟨_, heq, hwf⟩ := h.wellFormed _ mem_cons_self
  cases heq
  exact hwf

theorem ready (h : Delegation (some addr :: chain)) (hf : f ∈ addr) : Ready chain f :=
  ⟨⟨addr, h.head, hf⟩, fun hne => h.nested addr chain suffix_rfl hne f hf⟩

end Delegation

theorem delegated_of_find_eq_some (h : familyFind addr f = some fp) :
    delegated f.addressFamily (some addr :: chain) =
      match fp.ipAddressChoice with
      | .inherit => delegated f.addressFamily chain
      | .addressesOrRanges aors => some aors := by
  rw [familyFind_eq] at h
  rw [delegated, choiceOf, h, Option.map_some]
  cases fp.ipAddressChoice <;> rfl

/-- A ready family passes one certificate and is ready for the next. -/
theorem Ready.exists_nested (hd : Delegation (some addr :: chain))
    (hr : Ready (some addr :: chain) fc) : ∃ fc', Nested addr fc fc' ∧ Ready chain fc' := by
  have hbacked := hr.nested (cons_ne_nil _ _)
  obtain ⟨below, hbelow, hmemc⟩ := hr.wellFormed
  cases hfind : familyFind addr fc with
  | none =>
    have hfc : fc.ipAddressChoice = .inherit := by
      cases hchoice : fc.ipAddressChoice with
      | inherit => rfl
      | addressesOrRanges aors =>
        obtain ⟨aorsP, hdel, _⟩ := hbacked aors hchoice
        rw [familyFind_eq] at hfind
        rw [delegated, choiceOf, hfind] at hdel
        cases hdel
    refine ⟨fc, .absent hfind hfc, { hr with nested := fun _ aors haors => ?_ }⟩
    cases hfc.symm.trans haors
  | some fp =>
    obtain ⟨hmem, hkey⟩ := familyFind_some hfind
    have hlen : (familyCheckLen fc && familyCheckLen fp) = true := by
      rw [hbelow.checkLen fc hmemc, hd.head.checkLen fp hmem]
      rfl
    cases hfp : fp.ipAddressChoice with
    | inherit =>
      refine ⟨fc, .inherit hfind hlen hfp, { hr with nested := fun _ aors haors => ?_ }⟩
      have habove := hbacked aors haors
      rwa [delegated_of_find_eq_some hfind, hfp] at habove
    | addressesOrRanges aorsP =>
      refine ⟨fp, .explicit hfind hlen hfp fun aorsC hfc => ?_, hd.ready hmem⟩
      obtain ⟨aorsP', hdel, hsub⟩ := hbacked aorsC hfc
      rw [delegated_of_find_eq_some hfind, hfp] at hdel
      cases hdel
      have hfit := hd.head.fit fp hmem aorsP hfp
      have hsep := hd.head.separated hmem hfp
      rw [hkey] at hfit hsep
      exact addrContains_of_subset hfit (hbelow.fit fc hmemc aorsC hfc) hsep
        (hbelow.separated hmemc hfc) hsub

theorem exists_forall₂_nested (hd : Delegation (some addr :: chain))
    (hr : ∀ fc ∈ child, Ready (some addr :: chain) fc) :
    ∃ child', List.Forall₂ (Nested addr) child child' ∧ ∀ fc ∈ child', Ready chain fc := by
  induction child with
  | nil => exact ⟨[], .nil, by simp⟩
  | cons fc child ih =>
    obtain ⟨hhead, htail⟩ := forall_mem_cons.1 hr
    obtain ⟨fc', hnested, hready⟩ := hhead.exists_nested hd
    obtain ⟨child', hrest, hrests⟩ := ih htail
    exact ⟨fc' :: child', .cons hnested hrest, forall_mem_cons.2 ⟨hready, hrests⟩⟩

theorem exists_walkChain (hd : Delegation chain) (hr : ∀ fc ∈ child, Ready chain fc) :
    ∃ child', walkChain rejectAll i chain child = some child' := by
  induction chain generalizing i child with
  | nil => exact ⟨child, rfl⟩
  | cons x chain ih =>
    obtain ⟨addr, rfl, hwf⟩ := hd.wellFormed x mem_cons_self
    obtain ⟨mid, hmid, hready⟩ := exists_forall₂_nested hd hr
    cases chain with
    | nil => exact ⟨mid, walkChain_some.2 ⟨hwf.canonical, mid, hmid, rfl⟩⟩
    | cons y chain =>
      obtain ⟨child', hwalk⟩ := @ih mid (i + 1) hd.of_cons hready
      exact ⟨child', walkChain_some.2 ⟨hwf.canonical, mid, hmid, hwalk⟩⟩

/-! ### Validation -/

theorem validateExt_iff : validateExt rejectAll i addr chain last = true ↔
    x509v3AddrIsCanonical (some addr) = true ∧
      ∃ child, walkChain rejectAll (i + 1) chain addr = some child ∧
        ∀ anchor, last = some anchor → checkAnchor false child anchor = true := by
  rw [validateExt]
  cases hcanon : x509v3AddrIsCanonical (some addr) with
  | false => simp [rejectAll]
  | true =>
    rw [familySort_eq (familiesInOrder_of_canonical hcanon)]
    cases hwalk : walkChain rejectAll (i + 1) chain addr with
    | none => simp
    | some child => cases last <;> simp [rejectAll]

theorem subset_effective_of_validateExt
    (h : validateExt rejectAll i addr chain (chain.getLastD last) = true) (hf : f ∈ addr) {j : Nat}
    (hj : j < chain.length) :
    effective f.addressFamily (some addr :: chain) ⊆
      effective f.addressFamily (chain.drop j) := by
  obtain ⟨hcanon, child, hwalk, hanchor⟩ := validateExt_iff.1 h
  have hlast : ∀ x, chain.getLast? = some x → chain.getLastD last = x := by
    intro x hx
    rw [getLastD_eq_getLast?, hx]
    rfl
  rw [effective_of_find_eq_some (familyFind_of_mem (familiesInOrder_of_canonical hcanon) hf)]
  exact subset_effective_of_walkChain hwalk (fun anchor ha => hanchor anchor (hlast _ ha)) hf hj

theorem validateExt_of_delegation (h : Delegation (some addr :: chain))
    (hlast : (some addr :: chain).getLast? = some last) :
    validateExt rejectAll i addr chain last = true := by
  have hwalk : ∃ child, walkChain rejectAll (i + 1) chain addr = some child := by
    cases chain with
    | nil => exact ⟨addr, rfl⟩
    | cons x chain => exact exists_walkChain h.of_cons fun fc hfc => h.ready hfc
  obtain ⟨child, hwalk⟩ := hwalk
  refine validateExt_iff.2 ⟨h.head.canonical, child, hwalk, ?_⟩
  rintro anchor rfl
  have hno := h.anchor anchor hlast
  obtain ⟨_, heq, hwf⟩ := h.wellFormed _ (mem_of_getLast? hlast)
  cases heq
  refine checkAnchor_iff.2 fun fp hfp => ⟨hwf.checkLen fp hfp, fun hinh => ?_⟩
  rw [x509v3AddrInherits, any_eq_false] at hno
  exact absurd (by simp [hinh]) (hno fp hfp)

end

/-- **Delegated addresses are never exceeded.** What validation accepts has, for every family of
the first extension, no effective address that a certificate above it does not have; and every
well-formed delegation is accepted. -/
theorem addr_delegation_not_exceeded :
    (∀ ext above, x509v3AddrValidatePath rejectAll (some ext :: above) = true →
      ∀ f ∈ ext, ∀ i < above.length, effective f.addressFamily (some ext :: above) ⊆
        effective f.addressFamily (above.drop i)) ∧
    (∀ chain ext allow, x509v3AddrValidateResourceSet chain (some ext) allow = true →
      ∀ f ∈ ext, ∀ i < chain.length, effective f.addressFamily (some ext :: chain) ⊆
        effective f.addressFamily (chain.drop i)) ∧
    (∀ chain, chain ≠ [] → Delegation chain → x509v3AddrValidatePath rejectAll chain = true) ∧
    (∀ chain ext allow, chain ≠ [] → Delegation (some ext :: chain) →
      (allow = true ∨ x509v3AddrInherits ext = false) →
        x509v3AddrValidateResourceSet chain (some ext) allow = true) := by
  refine ⟨?_, ?_, ?_, ?_⟩
  · intro ext above h f hf i hi
    exact subset_effective_of_validateExt h hf hi
  · intro chain ext allow h f hf i hi
    rw [x509v3AddrValidateResourceSet] at h
    split at h
    · cases h
    split at h
    · cases h
    exact subset_effective_of_validateExt h hf hi
  · intro chain hne h
    cases chain with
    | nil => exact absurd rfl hne
    | cons x above =>
      obtain ⟨ext, rfl, _⟩ := h.wellFormed x mem_cons_self
      apply validateExt_of_delegation h
      rw [getLast?_cons, getLastD_eq_getLast?]
  · intro chain ext allow hne h hallow
    rw [x509v3AddrValidateResourceSet, if_neg (by simpa using hne), if_neg]
    · apply validateExt_of_delegation h
      cases chain with
      | nil => exact absurd rfl hne
      | cons x chain =>
        rfl
    · rcases hallow with hallow | hallow <;> simp [hallow]

/-- 10.1.0.0/16 below a certificate that inherits, below 10.0.0.0/8. -/
theorem addr_delegation_not_exceeded_inherit :
    effective [0, 1] [some [⟨[0, 1], .addressesOrRanges [.addressPrefix ⟨[10, 1], 0⟩]⟩],
        some [⟨[0, 1], .inherit⟩],
        some [⟨[0, 1], .addressesOrRanges [.addressPrefix ⟨[10], 0⟩]⟩]] ⊆
      effective [0, 1] [some [⟨[0, 1], .addressesOrRanges [.addressPrefix ⟨[10], 0⟩]⟩]] :=
  addr_delegation_not_exceeded.1 [⟨[0, 1], .addressesOrRanges [.addressPrefix ⟨[10, 1], 0⟩]⟩]
    [some [⟨[0, 1], .inherit⟩],
      some [⟨[0, 1], .addressesOrRanges [.addressPrefix ⟨[10], 0⟩]⟩]] (by decide) _
    mem_cons_self 1 (by decide)

/-- The nearest explicit list of a family in a chain, whatever stands in between. -/
def nearestExplicit (key : Bytes) (chain : List (Option IPAddrBlocks)) : Option IPAddressOrRanges :=
  chain.findSome? fun x => x.bind fun addr =>
    match choiceOf key addr with
    | some (.addressesOrRanges aors) => some aors
    | _ => none

/-- It is not enough that the nearest explicit list above contains what is listed: a certificate in
between that has other families only has no addresses of this one. -/
theorem addr_family_absent_between :
    ∃ chain, (∀ x ∈ chain, ∃ addr, x = some addr ∧ x509v3AddrIsCanonical (some addr) = true) ∧
      (∀ addr, chain.getLast? = some (some addr) → x509v3AddrInherits addr = false) ∧
      (∀ addr above, some addr :: above <:+ chain → above ≠ [] → ∀ f ∈ addr, ∀ aors,
        f.ipAddressChoice = .addressesOrRanges aors →
          ∃ aorsP, nearestExplicit f.addressFamily above = some aorsP ∧
            addresses (addressLength f.addressFamily) aors ⊆
              addresses (addressLength f.addressFamily) aorsP) ∧
      x509v3AddrValidatePath rejectAll chain = false := by
  refine ⟨[some [⟨[0, 1], .addressesOrRanges [.addressPrefix ⟨[10], 0⟩]⟩],
    some [⟨[0, 2], .addressesOrRanges [.addressPrefix ⟨[32], 0⟩]⟩],
    some [⟨[0, 1], .addressesOrRanges [.addressPrefix ⟨[10], 0⟩]⟩,
      ⟨[0, 2], .addressesOrRanges [.addressPrefix ⟨[32], 0⟩]⟩]], ?_, ?_, ?_, by decide⟩
  · intro x hx
    simp only [mem_cons, not_mem_nil, or_false] at hx
    rcases hx with rfl | rfl | rfl <;> exact ⟨_, rfl, by decide⟩
  · intro addr haddr
    cases haddr
    decide
  intro addr above hsuffix hne f hf aors haors
  simp only [suffix_cons_iff, suffix_nil, reduceCtorEq, or_false] at hsuffix
  rcases hsuffix with ⟨rfl, rfl⟩ | ⟨rfl, rfl⟩ | ⟨rfl, rfl⟩
  · cases mem_singleton.1 hf
    cases haors
    exact ⟨_, rfl, subset_rfl⟩
  · cases mem_singleton.1 hf
    cases haors
    exact ⟨_, rfl, subset_rfl⟩
  · exact absurd rfl hne

end QuicTls.X509
