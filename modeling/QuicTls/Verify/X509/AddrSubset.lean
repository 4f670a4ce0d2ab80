import QuicTls.Verify.X509.AddrPath

/-!
# Subsets of canonical address blocks

`X509v3_addr_is_canonical` expands every entry of a list but a prefix at its end. If that one fits
too, the blocks are well formed, and the walk of `addr_contains` decides inclusion
(`addr_subset_inclusion_iff`).
-/

namespace QuicTls.X509

open List

variable {a b addr : IPAddrBlocks} {n : Nat} {aors : IPAddressOrRanges}

/-- All entries of all families fit the addresses of the family. -/
def EntriesFit (addr : IPAddrBlocks) : Prop :=
  ∀ f ∈ addr, ∀ aors, f.ipAddressChoice = .addressesOrRanges aors →
    Fit (addressLength f.addressFamily) aors

/-- The last entry of every family fits. -/
def LastFits (addr : IPAddrBlocks) : Prop :=
  ∀ f ∈ addr, ∀ aors, f.ipAddressChoice = .addressesOrRanges aors → ∀ last ∈ aors.getLast?,
    (extractMinMax last (addressLength f.addressFamily)).isSome

/-- Every family of `a` is one of `b`, which has all its addresses. -/
def Included (a b : IPAddrBlocks) : Prop :=
  ∀ f ∈ a, ∀ aors, f.ipAddressChoice = .addressesOrRanges aors →
    ∃ aorsB, choiceOf f.addressFamily b = some (.addressesOrRanges aorsB) ∧
      addresses (addressLength f.addressFamily) aors ⊆
        addresses (addressLength f.addressFamily) aorsB

theorem fit_of_aorsCanonical (h : aorsCanonical n aors = true)
    (hlast : ∀ last ∈ aors.getLast?, (extractMinMax last n).isSome) : Fit n aors := by
  induction aors with
  | nil => simp [Fit]
  | cons x aors ih =>
    cases aors with
    | nil => simpa [Fit] using hlast
    | cons y aors =>
      rw [aorsCanonical, Bool.and_eq_true] at h
      obtain ⟨_, _, _, _, hx, _⟩ := pairCanonical_spec h.1
      exact forall_mem_cons.2 ⟨by simp [hx], ih h.2 (by simpa using hlast)⟩

theorem explicit_of_canonical (h : x509v3AddrIsCanonical (some addr) = true)
    (hinh : x509v3AddrInherits addr = false) {f : IPAddressFamily} (hf : f ∈ addr) :
    ∃ aors, f.ipAddressChoice = .addressesOrRanges aors ∧
      familyCheckLen f = true ∧ aorsCanonical (addressLength f.addressFamily) aors = true := by
  rw [x509v3AddrIsCanonical, Bool.and_eq_true, all_eq_true] at h
  rw [x509v3AddrInherits, any_eq_false] at hinh
  have hcanon := h.2 f hf
  cases hchoice : f.ipAddressChoice with
  | inherit => exact absurd (by simp [hchoice]) (hinh f hf)
  | addressesOrRanges aors =>
    rw [familyCanonical, hchoice, Bool.and_eq_true] at hcanon
    exact ⟨aors, rfl, hcanon⟩

theorem WellFormed.of_lastFits (h : x509v3AddrIsCanonical (some addr) = true)
    (hinh : x509v3AddrInherits addr = false) (hlast : LastFits addr) : WellFormed addr := by
  refine ⟨h, fun f hf => ?_, fun f hf aors haors => ?_⟩
  · obtain ⟨_, _, hlen, _⟩ := explicit_of_canonical h hinh hf
    exact hlen
  · obtain ⟨_, haors', _, hcanon⟩ := explicit_of_canonical h hinh hf
    cases haors.symm.trans haors'
    exact fit_of_aorsCanonical hcanon (hlast f hf aors haors)

/-- A family is a subset when its addresses are. -/
theorem familySubset_iff (ha : WellFormed a) (hb : WellFormed b) {f : IPAddressFamily} (hf : f ∈ a)
    (haors : f.ipAddressChoice = .addressesOrRanges aors) :
    familySubset b f = true ↔
      ∃ aorsB, choiceOf f.addressFamily b = some (.addressesOrRanges aorsB) ∧
      addresses (addressLength f.addressFamily) aors ⊆
        addresses (addressLength f.addressFamily) aorsB := by
  rw [familySubset, choiceOf, ← familyFind_eq]
  cases hfind : familyFind b f with
  | none => simp
  | some fb =>
    obtain ⟨hmem, hkey⟩ := familyFind_some hfind
    cases hchoice : fb.ipAddressChoice with
    | inherit => simp [hchoice]
    | addressesOrRanges aorsB =>
      have hfit := hb.fit fb hmem aorsB hchoice
      have hsep := hb.separated hmem hchoice
      have hlen : lengthFromAfi (x509v3AddrGetAfi fb) = addressLength f.addressFamily :=
        hkey ▸ rfl
      rw [hkey] at hfit hsep
      simp only [ha.checkLen f hf, hb.checkLen fb hmem, haors, hlen]
      simpa [hchoice] using ⟨addresses_subset_of_addrContains,
        addrContains_of_subset hfit (ha.fit f hf aors haors) hsep (ha.separated hf haors)⟩

/-- **Subset is inclusion, and all entries fit**, if and only if the last ones do. -/
theorem addr_subset_inclusion_iff (ha : x509v3AddrIsCanonical (some a) = true)
    (hb : x509v3AddrIsCanonical (some b) = true) (hia : x509v3AddrInherits a = false)
    (hib : x509v3AddrInherits b = false) :
    (EntriesFit a ∧ EntriesFit b ∧ (x509v3AddrSubset (some a) (some b) = true ↔ Included a b)) ↔
      LastFits a ∧ LastFits b := by
  constructor
  · rintro ⟨hfa, hfb, _⟩
    exact ⟨fun f hf aors haors last hlast => hfa f hf aors haors last (mem_of_getLast? hlast),
      fun f hf aors haors last hlast => hfb f hf aors haors last (mem_of_getLast? hlast)⟩
  rintro ⟨hla, hlb⟩
  have hwa := WellFormed.of_lastFits ha hia hla
  have hwb := WellFormed.of_lastFits hb hib hlb
  refine ⟨hwa.fit, hwb.fit, ?_⟩
  rw [x509v3AddrSubset, hia, hib, familySort_eq (familiesInOrder_of_canonical hb)]
  simp only [Bool.or_self, Bool.false_eq_true, if_false, all_eq_true]
  refine forall₂_congr fun f hf => ?_
  obtain ⟨aors, haors, _⟩ := explicit_of_canonical ha hia hf
  rw [familySubset_iff hwa hwb hf haors]
  refine ⟨fun h aors' haors' => ?_, fun h => h aors haors⟩
  cases haors.symm.trans haors'
  exact h

/-- The blocks of a child are a prefix and a range of IPv4 addresses and a prefix of IPv6 addresses,
inside those of its parent. -/
theorem addr_subset_inclusion_iff_nested :
    let child : IPAddrBlocks :=
      [⟨[0, 1], .addressesOrRanges [.addressPrefix ⟨[10, 1], 0⟩,
          .addressRange ⟨[10, 2, 0, 1], 0⟩ ⟨[10, 2, 0, 254], 0⟩]⟩,
        ⟨[0, 2], .addressesOrRanges [.addressPrefix ⟨[0x20, 1, 0xd, 0xb8, 0, 1], 0⟩]⟩]
    let parent : IPAddrBlocks :=
      [⟨[0, 1], .addressesOrRanges [.addressPrefix ⟨[10], 0⟩, .addressPrefix ⟨[192, 168], 0⟩]⟩,
        ⟨[0, 2], .addressesOrRanges [.addressPrefix ⟨[0x20, 1, 0xd, 0xb8], 0⟩]⟩]
    Included child parent ∧ ¬ Included parent child := by
  intro child parent
  have hchild : LastFits child := by simp [LastFits, child]; decide
  have hparent : LastFits parent := by simp [LastFits, parent]; decide
  have hdown := (addr_subset_inclusion_iff (a := child) (b := parent) (by decide) (by decide)
    (by decide) (by decide)).2 ⟨hchild, hparent⟩
  have hup := (addr_subset_inclusion_iff (a := parent) (b := child) (by decide) (by decide)
    (by decide) (by decide)).2 ⟨hparent, hchild⟩
  exact ⟨hdown.2.2.1 (by decide), fun h => absurd (hup.2.2.2 h) (by decide)⟩

/-- One IPv4 prefix of whole bytes. -/
def ipv4Prefix (data : Bytes) : IPAddrBlocks :=
  [⟨[0, 1], .addressesOrRanges [.addressPrefix ⟨data, 0⟩]⟩]

/-- A prefix of five bytes passes as the only entry of a list of IPv4 addresses, and the blocks are
then no subset of another copy of themselves. -/
theorem addr_canonical_long_prefix :
    x509v3AddrIsCanonical (some (ipv4Prefix [10, 0, 0, 0, 0])) = true ∧
      ¬EntriesFit (ipv4Prefix [10, 0, 0, 0, 0]) ∧
      x509v3AddrSubset (some (ipv4Prefix [10, 0, 0, 0, 0]))
        (some (ipv4Prefix [10, 0, 0, 0, 0])) = false := by
  refine ⟨by decide, fun h => ?_, by decide⟩
  have hfit := h _ mem_cons_self _ rfl _ mem_cons_self
  exact absurd hfit (by decide)

end QuicTls.X509
