import QuicTls.Crypto.X509.Ncons
import QuicTls.Verify.X509.Name

/-!
# Name constraints are enforced on every name

`InSubtree` is what it means for a name to lie in a subtree (RFC 5280, 4.2.1.10). The functions that
match a name against a base decide it for names and bases that are well formed
(`name_constraints_enforced`).
-/

namespace QuicTls.X509

open List

variable {env : NcEnv} {a b : Bytes} {g base : GeneralName} {nc : NameConstraints}
  {p q basehost : Bytes} {sub : GeneralSubtree} {found : NcMatch} {nm : Name} {c : UInt8}
  {s host emllocal : Bytes} {subs : List GeneralSubtree}

/-! ## Lying in a subtree -/

/-- The strings are equal, ignoring case. -/
def EqNocase (a b : Bytes) : Prop := a.map lower = b.map lower

/-- The relative distinguished names of the base come first in the name. -/
def DirIn (env : NcEnv) (nm base : Name) : Prop :=
  ∃ n b, intname env.toUtf8 nm = some n ∧ intname env.toUtf8 base = some b ∧
    b.map Multiset.ofList <+: n.map Multiset.ofList

/-- The name is the base with zero or more labels added on the left. A base that begins with a dot
is added to directly. -/
def DnsIn (dns base : Bytes) : Prop :=
  base = [] ∨ EqNocase dns base ∨
    ∃ left right, dns = left ++ right ∧ left ≠ [] ∧ EqNocase right base ∧
      (left.getLast? = some dot ∨ base.head? = some dot)

/-- The base is a mailbox, a domain or a host. A mailbox without a local part stands for all
mailboxes on the host. -/
def EmailIn (eml base : Bytes) : Prop :=
  ∃ emllocal host, eml = emllocal ++ atSign :: host ∧ atSign ∉ host ∧
    ((∃ baselocal basehost, base = baselocal ++ atSign :: basehost ∧ atSign ∉ basehost ∧
        (baselocal = [] ∨ baselocal = emllocal) ∧ EqNocase host basehost) ∨
      (atSign ∉ base ∧ base.head? = some dot ∧
        ∃ left right, host = left ++ right ∧ EqNocase right base) ∨
      (atSign ∉ base ∧ base.head? ≠ some dot ∧ EqNocase host base))

/-- The address is in the network of the base, which is an address and a mask. -/
def IpIn (ip base : Bytes) : Prop :=
  base.length = 2 * ip.length ∧ ∀ i < ip.length, ip.getD i 0 &&& base.getD (ip.length + i) 0 =
      base.getD i 0 &&& base.getD (ip.length + i) 0

/-- A name lies in the subtree with the base. -/
def InSubtree (env : NcEnv) : GeneralName → GeneralName → Prop
  | .directoryName n, .directoryName b => DirIn env n b
  | .dNSName s, .dNSName b => DnsIn s.data b.data
  | .rfc822Name s, .rfc822Name b => EmailIn s.data b.data
  | .iPAddress s, .iPAddress b => IpIn s.data b.data
  | _, _ => False

/-- The types of names that are considered. -/
def Considered (g : GeneralName) : Prop :=
  g.type = .dirName ∨ g.type = .dns ∨ g.type = .email ∨ g.type = .ipAdd

theorem Considered.of_type (hg : Considered g) (h : base.type = g.type) : Considered base := by
  rwa [Considered, h]

/-- The result of matching says whether the name is in the subtree, if it is not an error. -/
structure Decides (p : Prop) (r : VResult) : Prop where
  ok : r = .ok → p
  violation : r = .permittedViolation → ¬p

/-- Moreover it is no error if the name and the base are well formed. -/
structure Answers (valid p : Prop) (r : VResult) : Prop extends Decides p r where
  total : valid → r = .ok ∨ r = .permittedViolation

theorem Answers.of_iff {valid p : Prop} {r : VResult}
    (h : (r = .ok ∧ p) ∨ (r = .permittedViolation ∧ ¬p)) : Answers valid p r := by
  obtain ⟨rfl, hp⟩ | ⟨rfl, hp⟩ := h
  · exact ⟨⟨fun _ => hp, nofun⟩, fun _ => .inl rfl⟩
  · exact ⟨⟨nofun, fun _ => hp⟩, fun _ => .inr rfl⟩

/-! ## Comparing strings -/

theorem ia5ncasecmp_eq_zero (h : a.length = b.length) : ia5ncasecmp a b = 0 ↔ EqNocase a b := by
  induction a generalizing b with
  | nil =>
    simp [eq_nil_of_length_eq_zero h.symm, ia5ncasecmp, EqNocase]
  | cons x a ih =>
    cases b with
    | nil => cases h
    | cons y b =>
      have hrest := ih (Nat.succ.inj h)
      simp only [ia5ncasecmp, EqNocase, map_cons, List.cons.injEq] at hrest ⊢
      by_cases hxy : x = y
      · simp [hxy, hrest]
      · by_cases hlower : lower x = lower y
        · simp [hlower, hrest]
        · simp only [ne_eq, hxy, not_false_eq_true, if_true, hlower, if_false, false_and]
          split <;> decide

theorem EqNocase.length_eq (h : EqNocase a b) : a.length = b.length := by
  simpa using congrArg List.length h

theorem EqNocase.symm (h : EqNocase a b) : EqNocase b a := Eq.symm h

/-- The string ends in the base, ignoring case. -/
theorem endsNocase_iff :
    (∃ left right, s = left ++ right ∧ EqNocase right b) ↔ b.map lower <:+ s.map lower := by
  constructor
  · rintro ⟨left, right, rfl, heq⟩
    exact ⟨left.map lower, by rw [map_append, heq]⟩
  · rintro ⟨left', h⟩
    obtain ⟨left, right, rfl, -, heq⟩ := map_eq_append_iff.1 h.symm
    exact ⟨left, right, rfl, heq⟩

theorem ia5ncasecmp_end (h : b.length ≤ s.length) :
    ia5ncasecmp b (s.drop (s.length - b.length)) = 0 ↔ b.map lower <:+ s.map lower := by
  have hlen : b.length = (s.drop (s.length - b.length)).length := by
    rw [length_drop]
    omega
  rw [ia5ncasecmp_eq_zero hlen, suffix_iff_eq_drop, length_map, length_map, ← map_drop]
  rfl

theorem suffix_append_cons_iff (h : c ∉ b) : b <:+ p ++ c :: q ↔ b <:+ q := by
  constructor
  · intro hsuffix
    rcases suffix_or_suffix_of_suffix hsuffix (suffix_append p _) with hq | hb
    · exact (suffix_cons_iff.1 hq).resolve_left fun heq => h (heq ▸ mem_cons_self)
    · exact absurd (hb.subset mem_cons_self) h
  · exact fun hq => hq.trans ((suffix_cons _ _).trans (suffix_append _ _))

theorem ia5memrchr_none : ia5memrchr c s = none ↔ c ∉ s := by
  induction s with
  | nil => simp [ia5memrchr]
  | cons x s ih =>
    rw [ia5memrchr]
    cases hs : ia5memrchr c s with
    | some r =>
      have hmem : c ∈ s := by
        by_contra hc
        rw [ih.2 hc] at hs
        cases hs
      simp [hmem]
    | none =>
      have hmem := ih.1 hs
      simp only [eq_comm]
      split <;> simp_all

theorem ia5memrchr_append (hq : c ∉ q) : ia5memrchr c (p ++ c :: q) = some (p, q) := by
  induction p with
  | nil => simp [ia5memrchr, ia5memrchr_none.2 hq]
  | cons x p ih => rw [cons_append, ia5memrchr, ih]

theorem ia5memrchr_some (h : ia5memrchr c s = some (p, q)) : s = p ++ c :: q ∧ c ∉ q := by
  induction s generalizing p with
  | nil => cases h
  | cons x s ih =>
    rw [ia5memrchr] at h
    cases hs : ia5memrchr c s with
    | some r =>
      rw [hs] at h
      cases h
      obtain ⟨rfl, hq⟩ := ih hs
      exact ⟨rfl, hq⟩
    | none =>
      rw [hs] at h
      dsimp only at h
      split at h
      · rename_i hx
        cases h
        exact ⟨by rw [hx, nil_append], ia5memrchr_none.1 hs⟩
      · cases h

/-! ## The matching functions -/

theorem nameCanon_eq (toUtf8 : AsnString → Option Bytes) (name : Name) :
    nameCanon toUtf8 name = (intname toUtf8 name).bind i2dNameCanon := by
  unfold nameCanon
  split
  · rename_i hname
    subst hname
    rfl
  · rfl

/-- Directory names. -/
theorem ncDn_answers (env : NcEnv) (nm base : Name) :
    Answers ((nameCanon env.toUtf8 nm).isSome ∧ (nameCanon env.toUtf8 base).isSome)
      (DirIn env nm base) (ncDn env nm base) := by
  unfold ncDn
  cases hn : nameCanon env.toUtf8 nm with
  | none => exact ⟨⟨nofun, nofun⟩, fun hvalid => nomatch hvalid.1⟩
  | some nmEnc =>
    cases hb : nameCanon env.toUtf8 base with
    | none => exact ⟨⟨nofun, nofun⟩, fun hvalid => nomatch hvalid.2⟩
    | some baseEnc =>
      rw [nameCanon_eq, Option.bind_eq_some_iff] at hn hb
      obtain ⟨n, hn, hnEnc⟩ := hn
      obtain ⟨b, hb, hbEnc⟩ := hb
      have hin : DirIn env nm base ↔ baseEnc <+: nmEnc := by
        simp [DirIn, hn, hb, i2dNameCanon_isPrefix_iff hbEnc hnEnc]
      rw [hin]
      dsimp only
      split
      · exact .of_iff (.inr ⟨rfl, fun hpre => absurd hpre.length_le (by omega)⟩)
      · split
        · rename_i hne
          exact .of_iff (.inr ⟨rfl, fun hpre => hne (prefix_iff_eq_take.1 hpre)⟩)
        · rename_i heq
          exact .of_iff (.inl ⟨rfl, prefix_iff_eq_take.2 (not_not.1 heq)⟩)

/-- Only letters change. -/
theorem lower_eq_iff {d : UInt8} (hd : d ≤ 0x40) : lower c = d ↔ c = d := by
  unfold lower
  split
  · grind
  · rfl

theorem split_right {left right : Bytes} (h : s = left ++ right) (hb : EqNocase right b) :
    left = s.take (s.length - b.length) ∧ right = s.drop (s.length - b.length) := by
  have hlen : s.length - b.length = left.length := by
    rw [h, ← hb.length_eq, length_append, Nat.add_sub_cancel]
  rw [hlen, h]
  exact ⟨take_left.symm, drop_left.symm⟩

/-- The name is cut where its end has the length of the base. -/
theorem dnsIn_iff {dns base : Bytes} (hne : base ≠ []) :
    DnsIn dns base ↔ base.length ≤ dns.length ∧
      EqNocase (dns.drop (dns.length - base.length)) base ∧
      (dns.length ≤ base.length ∨ (dns.take (dns.length - base.length)).getLast? = some dot ∨
        base.head? = some dot) := by
  constructor
  · rintro (hnil | heq | ⟨left, right, hsplit, -, heq, hdot⟩)
    · exact absurd hnil hne
    · obtain ⟨-, hright⟩ := split_right (nil_append dns).symm heq
      exact ⟨heq.length_eq.ge, hright ▸ heq, .inl heq.length_eq.le⟩
    · obtain ⟨hleft, hright⟩ := split_right hsplit heq
      refine ⟨?_, hright ▸ heq, .inr (hleft ▸ hdot)⟩
      rw [hsplit, length_append, heq.length_eq]
      omega
  · rintro ⟨hle, heq, hdot⟩
    rcases hle.eq_or_lt with hlen | hlt
    · rw [hlen, Nat.sub_self, drop_zero] at heq
      exact .inr (.inl heq)
    · refine .inr (.inr ⟨_, _, (take_append_drop _ dns).symm, ?_, heq, hdot.resolve_left ?_⟩)
      · rw [← length_pos_iff, length_take]
        omega
      · omega

theorem ncDns_answers (valid : Prop) (dns base : Bytes) :
    Answers valid (DnsIn dns base) (ncDns dns base) := by
  unfold ncDns
  split
  · rename_i hzero
    exact .of_iff (.inl ⟨rfl, .inl (eq_nil_of_length_eq_zero hzero)⟩)
  rename_i hpos
  rw [dnsIn_iff (length_pos_iff.1 (Nat.pos_of_ne_zero hpos))]
  split
  · exact .of_iff (.inr ⟨rfl, fun hin => absurd hin.1 (by omega)⟩)
  have hlen : base.length = (dns.drop (dns.length - base.length)).length := by
    rw [length_drop]
    omega
  have hcmp := ia5ncasecmp_eq_zero hlen
  dsimp only
  split
  · rename_i hcond
    exact .of_iff (.inr ⟨rfl, fun hin =>
      hin.2.2.elim (by omega) (·.elim hcond.2.2 hcond.2.1)⟩)
  split
  · rename_i hdiff
    exact .of_iff (.inr ⟨rfl, fun hin => hdiff (hcmp.2 hin.2.1.symm)⟩)
  · rename_i hcond hsame
    exact .of_iff (.inl ⟨rfl, by omega, (hcmp.1 (not_not.1 hsame)).symm, by grind⟩)

/-- The host of an address is compared. -/
theorem ncEmailHost_iff :
    (ncEmailHost host basehost = .ok ∧ EqNocase host basehost) ∨
      (ncEmailHost host basehost = .permittedViolation ∧ ¬EqNocase host basehost) := by
  unfold ncEmailHost
  by_cases hlen : basehost.length = host.length
  · have hcmp := ia5ncasecmp_eq_zero hlen
    by_cases heq : EqNocase basehost host
    · simp [hlen, hcmp.2 heq, heq.symm]
    · have hne : ¬EqNocase host basehost := fun h => heq h.symm
      simp [hcmp, heq, hne]
  · have hne : ¬EqNocase host basehost := fun h => hlen h.length_eq.symm
    simp [hlen, hne]

/-- A domain is compared with the end of the whole address, but only the host can match. -/
theorem domain_iff {base : Bytes} (hbase : atSign ∉ base) :
    (base.length < (emllocal ++ atSign :: host).length ∧
      ia5ncasecmp base ((emllocal ++ atSign :: host).drop
        ((emllocal ++ atSign :: host).length - base.length)) = 0) ↔
    ∃ left right, host = left ++ right ∧ EqNocase right base := by
  have hat : atSign ∉ base.map lower := by
    intro hmem
    obtain ⟨c, hc, hlower⟩ := mem_map.1 hmem
    exact hbase ((lower_eq_iff (by decide)).1 hlower ▸ hc)
  have hsuffix : base.map lower <:+ (emllocal ++ atSign :: host).map lower ↔
      base.map lower <:+ host.map lower := by
    rw [map_append, map_cons]
    exact suffix_append_cons_iff hat
  rw [endsNocase_iff, ← hsuffix]
  constructor
  · rintro ⟨hlt, hcmp⟩
    exact (ia5ncasecmp_end hlt.le).1 hcmp
  intro h
  have hle := (hsuffix.1 h).length_le
  simp only [length_map] at hle
  have hlt : base.length < (emllocal ++ atSign :: host).length := by
    rw [length_append, length_cons]
    omega
  exact ⟨hlt, (ia5ncasecmp_end hlt.le).2 h⟩

theorem cut_unique {p' q' : Bytes} (h : p ++ c :: q = p' ++ c :: q') (hq : c ∉ q) (hq' : c ∉ q') :
    p = p' ∧ q = q' := by
  have hcut := ia5memrchr_append (p := p) hq
  rw [h, ia5memrchr_append hq', Option.some.injEq, Prod.mk.injEq] at hcut
  exact ⟨hcut.1.symm, hcut.2.symm⟩

theorem emailIn_mailbox {baselocal : Bytes} (hhost : atSign ∉ host) (hbase : atSign ∉ basehost) :
    EmailIn (emllocal ++ atSign :: host) (baselocal ++ atSign :: basehost) ↔
      (baselocal = [] ∨ baselocal = emllocal) ∧ EqNocase host basehost := by
  have hmem : atSign ∈ baselocal ++ atSign :: basehost :=
    mem_append_right _ mem_cons_self
  constructor
  · rintro ⟨l, h, hsplit, hh, ⟨bl, bh, hbsplit, hbh, hin⟩ | ⟨hno, -⟩ | ⟨hno, -⟩⟩
    · obtain ⟨rfl, rfl⟩ := cut_unique hsplit hhost hh
      obtain ⟨rfl, rfl⟩ := cut_unique hbsplit hbase hbh
      exact hin
    · exact absurd hmem hno
    · exact absurd hmem hno
  · exact fun hin => ⟨emllocal, host, rfl, hhost, .inl ⟨baselocal, basehost, rfl, hbase, hin⟩⟩

theorem emailIn_host {base : Bytes} (hhost : atSign ∉ host) (hbase : atSign ∉ base) :
    EmailIn (emllocal ++ atSign :: host) base ↔
      if base.head? = some dot then ∃ left right, host = left ++ right ∧ EqNocase right base
      else EqNocase host base := by
  constructor
  · rintro ⟨l, h, hsplit, hh, hin⟩
    obtain ⟨rfl, rfl⟩ := cut_unique hsplit hhost hh
    rcases hin with ⟨_, _, rfl, -⟩ | ⟨-, hdot, hin⟩ | ⟨-, hdot, hin⟩
    · exact absurd (mem_append_right _ mem_cons_self) hbase
    · rwa [if_pos hdot]
    · rwa [if_neg hdot]
  · intro hin
    refine ⟨emllocal, host, rfl, hhost, .inr ?_⟩
    split at hin <;> simp_all

/-- Mailboxes. -/
theorem ncEmail_answers (eml base : Bytes) :
    Answers ((atSign ∈ eml ∧ 0 ∉ eml) ∧ 0 ∉ base) (EmailIn eml base) (ncEmail eml base) := by
  unfold ncEmail
  cases heml : ia5memrchr atSign eml with
  | none => exact ⟨⟨nofun, nofun⟩, fun hvalid => absurd hvalid.1.1 (ia5memrchr_none.1 heml)⟩
  | some r =>
    obtain ⟨rfl, hhost⟩ := ia5memrchr_some heml
    cases hbase : ia5memrchr atSign base with
    | none =>
      have hno := ia5memrchr_none.1 hbase
      rw [emailIn_host hhost hno]
      dsimp only
      by_cases hdot : base.head? = some dot
      · have hpos : 0 < base.length := by
          cases base with
          | nil => cases hdot
          | cons => exact Nat.succ_pos _
        rw [if_pos hdot, if_pos ⟨hpos, hdot⟩, ← domain_iff hno]
        split_ifs with hin
        · exact .of_iff (.inl ⟨rfl, hin⟩)
        · exact .of_iff (.inr ⟨rfl, hin⟩)
      · rw [if_neg hdot, if_neg fun h => hdot h.2]
        exact .of_iff ncEmailHost_iff
    | some r =>
      obtain ⟨rfl, hbasehost⟩ := ia5memrchr_some hbase
      rw [emailIn_mailbox hhost hbasehost]
      dsimp only
      split_ifs with hlocal hlen hzero hdiff
      · exact .of_iff (.inr ⟨rfl, fun hin => hlen (hin.1.resolve_left hlocal ▸ rfl)⟩)
      · refine ⟨⟨nofun, nofun⟩, fun hvalid => absurd hzero ?_⟩
        rintro (h | h)
        · exact hvalid.2 (mem_append_left _ h)
        · exact hvalid.1.2 (mem_append_left _ h)
      · exact .of_iff (.inr ⟨rfl, fun hin => hdiff (hin.1.resolve_left hlocal)⟩)
      · simp only [not_not.1 hdiff, or_true, true_and]
        exact .of_iff ncEmailHost_iff
      · simp only [not_not.1 hlocal, true_or, true_and]
        exact .of_iff ncEmailHost_iff

/-- Addresses under a mask. -/
theorem ncIpLoop_iff {base mask : Bytes} (hb : base.length = host.length)
    (hm : mask.length = host.length) :
    (ncIpLoop host base mask = .ok ∧ ∀ i < host.length,
        host.getD i 0 &&& mask.getD i 0 = base.getD i 0 &&& mask.getD i 0) ∨
      (ncIpLoop host base mask = .permittedViolation ∧ ¬∀ i < host.length,
        host.getD i 0 &&& mask.getD i 0 = base.getD i 0 &&& mask.getD i 0) := by
  induction host generalizing base mask with
  | nil => exact .inl ⟨by cases base <;> rfl, nofun⟩
  | cons h host ih =>
    obtain _ | ⟨x, base⟩ := base
    · cases hb
    obtain _ | ⟨y, mask⟩ := mask
    · cases hm
    have hall : (∀ i < (h :: host).length, (h :: host).getD i 0 &&& (y :: mask).getD i 0 =
        (x :: base).getD i 0 &&& (y :: mask).getD i 0) ↔ h &&& y = x &&& y ∧
        ∀ i < host.length, host.getD i 0 &&& mask.getD i 0 = base.getD i 0 &&& mask.getD i 0 := by
      rw [length_cons, Nat.forall_lt_succ_left]
      rfl
    rw [hall, ncIpLoop]
    by_cases hfirst : h &&& y = x &&& y
    · simpa [hfirst] using ih (Nat.succ.inj hb) (Nat.succ.inj hm)
    · simp [hfirst]

theorem ncIp_answers (ip base : Bytes) :
    Answers ((ip.length = 4 ∨ ip.length = 16) ∧ (base.length = 8 ∨ base.length = 32))
      (IpIn ip base) (ncIp ip base) := by
  unfold ncIp
  split
  · rename_i hip
    exact ⟨⟨nofun, nofun⟩, fun hvalid => absurd hvalid.1 hip⟩
  split
  · rename_i hbase
    exact ⟨⟨nofun, nofun⟩, fun hvalid => absurd hvalid.2 hbase⟩
  split
  · rename_i hlen
    exact .of_iff (.inr ⟨rfl, fun hin => hlen (by rw [hin.1, Nat.mul_comm])⟩)
  have hin : IpIn ip base ↔ ∀ i < ip.length, ip.getD i 0 &&& (base.drop ip.length).getD i 0 =
      (base.take ip.length).getD i 0 &&& (base.drop ip.length).getD i 0 := by
    rw [IpIn, and_iff_right (by omega)]
    refine forall₂_congr fun i hi => ?_
    simp [getElem?_take_of_lt hi]
  rw [hin]
  refine .of_iff (ncIpLoop_iff ?_ ?_)
  · rw [length_take]
    omega
  · rw [length_drop]
    omega

section

variable (env g nc sub subs)

/-- A name of a type that is considered, and well formed. -/
def ValidName : GeneralName → Prop
  | .directoryName n => (nameCanon env.toUtf8 n).isSome
  | .dNSName _ => True
  | .rfc822Name s => atSign ∈ s.data ∧ 0 ∉ s.data
  | .iPAddress s => s.data.length = 4 ∨ s.data.length = 16
  | _ => False

/-- A base that is well formed, if it has a type that is considered. -/
def ValidBase : GeneralName → Prop
  | .directoryName n => (nameCanon env.toUtf8 n).isSome
  | .rfc822Name s => 0 ∉ s.data
  | .iPAddress s => s.data.length = 8 ∨ s.data.length = 32
  | _ => True

/-- A subtree with a well-formed base, minimum zero and no maximum. -/
structure ValidSubtree : Prop where
  base : ValidBase env sub.base
  minimum : sub.minimum = none ∨ sub.minimum = some 0
  maximum : sub.maximum = none

/-- The name lies in no excluded subtree of its type and, if any permitted subtree has its type, in
one of them. -/
structure Complies : Prop where
  excluded : ∀ sub ∈ nc.excludedSubtrees, sub.base.type = g.type → ¬InSubtree env g sub.base
  permitted : (∃ sub ∈ nc.permittedSubtrees, sub.base.type = g.type) →
    ∃ sub ∈ nc.permittedSubtrees, sub.base.type = g.type ∧ InSubtree env g sub.base

/-- The name and the subtrees that are considered are well formed. -/
def ValidSubtrees : Prop :=
  ValidName env g ∧ ∀ sub ∈ subs, Considered sub.base → ValidSubtree env sub

/-- The name lies in one of the subtrees of its type. -/
def InSome : Prop :=
  ∃ sub ∈ subs, sub.base.type = g.type ∧ InSubtree env g sub.base

/-- The permitted subtrees were tried, and none of them matched. -/
def Tried (found : NcMatch) : Prop :=
  found ≠ .matched ∧ ¬InSome env g subs ∧ (found = .tried ∨ ∃ sub ∈ subs, sub.base.type = g.type)

/-- All subtrees of the types that are considered are well formed. -/
structure ValidConstraints : Prop where
  permitted : ∀ sub ∈ nc.permittedSubtrees, Considered sub.base → ValidSubtree env sub
  excluded : ∀ sub ∈ nc.excludedSubtrees, Considered sub.base → ValidSubtree env sub

end

theorem ValidSubtree.minmax (h : ValidSubtree env sub) : ncMinmaxValid sub = true := by
  simpa [ncMinmaxValid, h.maximum] using h.minimum

theorem ValidName.considered (h : ValidName env g) : Considered g := by
  cases g <;> simp [ValidName] at h <;> simp [Considered, GeneralName.type]

/-! ## The subtrees of a type -/

/-- Matching against a base of the same type decides whether the name is in the subtree. -/
theorem ncMatchSingle_answers (hg : Considered g) (hbase : base.type = g.type) :
    Answers (ValidName env g ∧ ValidBase env base) (InSubtree env g base)
      (ncMatchSingle env (effectiveType g) g base) := by
  cases g <;> simp [Considered, GeneralName.type] at hg <;> cases base <;>
    simp [GeneralName.type] at hbase
  · exact ncEmail_answers _ _
  · exact ncDns_answers _ _ _
  · exact ncDn_answers _ _ _
  · exact ncIp_answers _ _

theorem ncSkips_iff (hg : Considered g) : ncSkips g sub = true ↔ sub.base.type ≠ g.type := by
  have heff : effectiveType g = g.type := by
    cases g <;> simp [Considered, GeneralName.type] at hg <;> rfl
  have hother : ∀ o, g ≠ .otherName o := by
    rintro o rfl
    simp [Considered, GeneralName.type] at hg
  unfold ncSkips
  split
  · rename_i o _ _
    exact absurd rfl (hother o)
  · simp only [heff, Bool.or_false, decide_eq_true_eq]
    exact ne_comm

theorem ValidSubtrees.tail (h : ValidSubtrees env g (sub :: subs)) : ValidSubtrees env g subs :=
  ⟨h.1, (forall_mem_cons.1 h.2).2⟩

theorem ValidSubtrees.head (h : ValidSubtrees env g (sub :: subs))
    (htype : sub.base.type = g.type) : ValidSubtree env sub :=
  (forall_mem_cons.1 h.2).1 (h.1.considered.of_type htype)

theorem inSome_cons : InSome env g (sub :: subs) ↔
    (sub.base.type = g.type ∧ InSubtree env g sub.base) ∨ InSome env g subs := by
  simp [InSome]

/-- The loop over the permitted subtrees. -/
theorem permittedLoop_cases (hg : Considered g) (found : NcMatch) :
    (∃ m, permittedLoop env g subs found = .ok m ∧ (m = .tried ↔ Tried env g subs found)) ∨
      ¬ValidSubtrees env g subs ∧ ∃ r, permittedLoop env g subs found = .error r ∧ r ≠ .ok := by
  induction subs generalizing found with
  | nil =>
    refine .inl ⟨found, rfl, ?_⟩
    cases found <;> simp [Tried, InSome]
  | cons sub subs ih =>
    have hvalid : ¬ValidSubtrees env g subs → ¬ValidSubtrees env g (sub :: subs) :=
      mt ValidSubtrees.tail
    have hrest (found' : NcMatch)
        (h : Tried env g (sub :: subs) found ↔ Tried env g subs found') :=
      (propext h).symm ▸ (ih found').imp_right (And.imp_left hvalid)
    rw [permittedLoop]
    split
    · rename_i hskip
      rw [ncSkips_iff hg] at hskip
      exact hrest _ (by simp [Tried, inSome_cons, hskip])
    rename_i htype
    rw [ncSkips_iff hg, not_not] at htype
    have hmatch := @ncMatchSingle_answers env g sub.base hg htype
    split
    · rename_i hminmax
      refine .inr ⟨fun h => ?_, _, rfl, nofun⟩
      simp [(h.head htype).minmax] at hminmax
    split
    · rename_i hfound
      exact hrest _ (by simp [Tried, hfound])
    rename_i hfound
    split
    · rename_i hok
      exact hrest _ (by simp [Tried, inSome_cons, htype, hmatch.ok hok])
    · rename_i hviolation
      exact hrest _ (by simp [Tried, inSome_cons, htype, hfound, hmatch.violation hviolation])
    · rename_i hok hviolation
      exact .inr ⟨fun h => (hmatch.total ⟨h.1, (h.head htype).base⟩).elim hok hviolation, _, rfl,
        hok⟩

/-- The loop over the excluded subtrees. -/
theorem excludedLoop_cases (hg : Considered g) :
    excludedLoop env g subs = .ok ∧ ¬InSome env g subs ∨
      excludedLoop env g subs ≠ .ok ∧ (InSome env g subs ∨ ¬ValidSubtrees env g subs) := by
  induction subs with
  | nil => simp [excludedLoop, InSome]
  | cons sub subs ih =>
    have hvalid : ¬ValidSubtrees env g subs → ¬ValidSubtrees env g (sub :: subs) :=
      mt ValidSubtrees.tail
    have hrest (h : InSome env g (sub :: subs) ↔ InSome env g subs) :=
      (propext h).symm ▸ ih.imp_right (And.imp_right (Or.imp_right hvalid))
    rw [excludedLoop]
    split
    · rename_i hskip
      rw [ncSkips_iff hg] at hskip
      exact hrest (by simp [inSome_cons, hskip])
    rename_i htype
    rw [ncSkips_iff hg, not_not] at htype
    have hmatch := @ncMatchSingle_answers env g sub.base hg htype
    split
    · rename_i hminmax
      refine .inr ⟨nofun, .inr fun h => ?_⟩
      simp [(h.head htype).minmax] at hminmax
    split
    · rename_i hok
      exact .inr ⟨nofun, .inl ⟨sub, mem_cons_self, htype, hmatch.ok hok⟩⟩
    · rename_i hviolation
      exact hrest (by simp [inSome_cons, hmatch.violation hviolation])
    · rename_i hok hviolation
      exact .inr ⟨hok, .inr fun h =>
        (hmatch.total ⟨h.1, (h.head htype).base⟩).elim hok hviolation⟩

/-- `nc_match` accepts only names that comply, and all of these that are well formed. -/
theorem ncMatch_cases (hg : Considered g) :
    ncMatch env g nc = .ok ∧ Complies env g nc ∨ ncMatch env g nc ≠ .ok ∧
        ¬(ValidName env g ∧ ValidConstraints env nc ∧ Complies env g nc) := by
  unfold ncMatch
  obtain ⟨m, hloop, htried⟩ | ⟨hvalid, r, hloop, hr⟩ := permittedLoop_cases hg .untried <;>
    rw [hloop]
  · cases m with
    | tried =>
      obtain ⟨-, hno, hex⟩ := htried.1 rfl
      exact .inr ⟨nofun, fun h => hno (h.2.2.permitted (hex.resolve_left nofun))⟩
    | untried | matched =>
      have hpermitted : _ → InSome env g nc.permittedSubtrees := fun hex =>
        not_not.1 fun hno => nomatch htried.2 ⟨nofun, hno, .inr hex⟩
      obtain ⟨hok, hno⟩ | ⟨hne, hin⟩ := @excludedLoop_cases env g nc.excludedSubtrees hg
      · exact .inl ⟨hok, fun sub hsub htype hin => hno ⟨sub, hsub, htype, hin⟩, hpermitted⟩
      · refine .inr ⟨hne, fun ⟨hname, hvalid, hcomplies⟩ => ?_⟩
        obtain ⟨sub, hsub, htype, hin⟩ := hin.resolve_right (not_not.2 ⟨hname, hvalid.excluded⟩)
        exact hcomplies.excluded sub hsub htype hin
  · exact .inr ⟨hr, fun h => hvalid ⟨h.1, h.2.1.permitted⟩⟩

/-! ## The check -/

/-- The names of a certificate: its subject, the addresses in the subject, and the subject
alternative names. -/
def Cert.names (x : Cert) : List GeneralName :=
  (if x.subject = [] then []
    else .directoryName x.subject ::
      (x.subject.valuesOf objPkcs9EmailAddress).map .rfc822Name) ++ x.altname.getD []

theorem ncMatchAll_iff {gens : List GeneralName} :
    ncMatchAll env nc gens = .ok ↔ ∀ g ∈ gens, ncMatch env g nc = .ok := by
  induction gens with
  | nil => simp [ncMatchAll]
  | cons g gens ih =>
    rw [ncMatchAll, forall_mem_cons]
    split <;> simp_all

theorem ncMatchEmails_iff {values : List AsnString} :
    ncMatchEmails env nc values = .ok ↔
      ∀ s ∈ values, s.type = vAsn1Ia5String ∧ ncMatch env (.rfc822Name s) nc = .ok := by
  induction values with
  | nil => simp [ncMatchEmails]
  | cons s values ih =>
    rw [ncMatchEmails, forall_mem_cons]
    split
    · simp_all
    · split <;> simp_all

/-- There are not too many names and constraints. -/
def WithinLimit (x : Cert) (nc : NameConstraints) : Prop :=
  ncTooMany (x.altname.getD []).length x.subject.length nc.permittedSubtrees.length
    nc.excludedSubtrees.length = false

/-- The addresses in the subject are IA5 strings. -/
def Ia5Addresses (x : Cert) : Prop :=
  ∀ s ∈ x.subject.valuesOf objPkcs9EmailAddress, s.type = vAsn1Ia5String

theorem ncSubject_iff :
    ncSubject env nm nc = .ok ↔ (∀ s ∈ nm.valuesOf objPkcs9EmailAddress,
      s.type = vAsn1Ia5String) ∧ ∀ g ∈ (if nm = [] then [] else GeneralName.directoryName nm ::
        (nm.valuesOf objPkcs9EmailAddress).map .rfc822Name), ncMatch env g nc = .ok := by
  unfold ncSubject
  by_cases hnm : nm = []
  · simp [hnm, Name.valuesOf]
  rw [if_neg hnm, if_neg hnm]
  simp only [forall_mem_cons, forall_mem_map]
  split
  · rename_i hok
    simp only [ncMatchEmails_iff, hok, true_and]
    exact ⟨fun h => ⟨fun s hs => (h s hs).1, fun s hs => (h s hs).2⟩,
      fun h s hs => ⟨h.1 s hs, h.2 s hs⟩⟩
  · rename_i hok
    exact ⟨fun h => absurd h hok, fun h => absurd h.2.1 hok⟩

/-- The check accepts a certificate exactly if every name is accepted. -/
theorem nameConstraintsCheck_iff {x : Cert} :
    nameConstraintsCheck env x nc = .ok ↔
      WithinLimit x nc ∧ Ia5Addresses x ∧ ∀ g ∈ x.names, ncMatch env g nc = .ok := by
  unfold nameConstraintsCheck WithinLimit Ia5Addresses Cert.names
  dsimp only
  split
  · rename_i hmany
    simp [hmany]
  rename_i hmany
  rw [Bool.not_eq_true] at hmany
  rw [forall_mem_append, and_iff_right hmany, ← and_assoc, ← ncSubject_iff]
  split
  · rename_i hok
    rw [ncMatchAll_iff, hok]
    simp
  · rename_i hok
    exact ⟨fun h => absurd h hok, fun h => absurd h.1 hok⟩

/-- Accepted certificates have names that lie in no excluded subtree of their type and in a
permitted one, if there is one of their type. Certificates with well-formed names for which this
is so are accepted. -/
theorem name_constraints_enforced (env : NcEnv) (x : Cert) (nc : NameConstraints) :
    (nameConstraintsCheck env x nc = .ok → ∀ g ∈ x.names, Considered g → Complies env g nc) ∧
    (WithinLimit x nc → Ia5Addresses x → (∀ g ∈ x.names, ValidName env g) →
      ValidConstraints env nc → (∀ g ∈ x.names, Complies env g nc) →
      nameConstraintsCheck env x nc = .ok) := by
  constructor
  · intro h g hg hconsidered
    have hmatch := (nameConstraintsCheck_iff.1 h).2.2 g hg
    exact ((ncMatch_cases hconsidered).resolve_right fun h => h.1 hmatch).2
  · intro hlimit hia5 hvalid hnc hcomplies
    refine nameConstraintsCheck_iff.2 ⟨hlimit, hia5, fun g hg => ?_⟩
    have hcases := @ncMatch_cases env g nc (hvalid g hg).considered
    exact (hcases.resolve_right fun h => h.2 ⟨hvalid g hg, hnc, hcomplies g hg⟩).1

/-- Strings are in UTF-8, and no label is converted. -/
def plainNcEnv : NcEnv := ⟨fun s => some s.data, fun _ _ => none⟩

/-- A certificate for the host `a.b`. -/
def hostCert : Cert := ⟨[], some [.dNSName ⟨vAsn1Ia5String, [0x61, dot, 0x62]⟩]⟩

/-- Only hosts in `B` are permitted. -/
def hostConstraints : NameConstraints := ⟨[⟨.dNSName ⟨vAsn1Ia5String, [0x42]⟩, none, none⟩], []⟩

theorem name_constraints_enforced_host :
    (∀ g ∈ hostCert.names, Complies plainNcEnv g hostConstraints) ∧
      nameConstraintsCheck plainNcEnv hostCert hostConstraints = .ok := by
  have hnames : hostCert.names = [.dNSName ⟨vAsn1Ia5String, [0x61, dot, 0x62]⟩] := rfl
  have hcomplies : ∀ g ∈ hostCert.names, Complies plainNcEnv g hostConstraints := by
    intro g hg
    refine (name_constraints_enforced plainNcEnv hostCert hostConstraints).1 (by decide) g hg ?_
    rw [hnames, mem_singleton] at hg
    rw [hg]
    exact .inr (.inl rfl)
  refine ⟨hcomplies, (name_constraints_enforced plainNcEnv hostCert hostConstraints).2 rfl
    nofun ?_ ⟨?_, nofun⟩ hcomplies⟩
  · intro g hg
    rw [hnames, mem_singleton] at hg
    rw [hg]
    trivial
  · intro sub hsub _
    rw [mem_singleton.1 hsub]
    exact ⟨trivial, .inl rfl, rfl⟩

end QuicTls.X509
