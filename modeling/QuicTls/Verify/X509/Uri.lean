import QuicTls.Verify.X509.Ncons

/-!
# The host of a URI in a name constraint

`nc_uri` takes what stands before the next colon as the host, and looks for a slash only if there is
no colon left. A colon after the host's slash moves the end of the host (`nc_uri_host_decides_iff`).
-/

namespace QuicTls.X509

open List

variable {c : UInt8} {p q s host base : Bytes}

/-- A URI of the form `scheme://host[:port][/rest]`. -/
structure HostUri where
  scheme : Bytes
  host : Bytes
  port : Option Bytes
  rest : Option Bytes
  scheme_colon : colon ∉ scheme
  host_colon : colon ∉ host
  host_slash : slash ∉ host

namespace HostUri

def afterHost (u : HostUri) : Bytes :=
  u.port.elim [] (colon :: ·) ++ u.rest.elim [] (slash :: ·)

def text (u : HostUri) : Bytes := u.scheme ++ colon :: slash :: slash :: (u.host ++ u.afterHost)

/-- The URI that has only the host. -/
def bare (u : HostUri) : HostUri := ⟨[], u.host, none, none, by simp, u.host_colon, u.host_slash⟩

/-- The first colon after the host, if there is one, is that of the port. -/
def Delimited (u : HostUri) : Prop := u.port.isSome ∨ ∀ rest ∈ u.rest, colon ∉ rest

end HostUri

/-- The host is the base, or ends in a base that begins with a dot. -/
def HostIn (host base : Bytes) : Prop :=
  EqNocase host base ∨
    base.head? = some dot ∧ base.length < host.length ∧ base.map lower <:+ host.map lower

theorem ia5memchr_none (h : c ∉ s) : ia5memchr c s = none := by
  induction s with
  | nil => rfl
  | cons b s ih =>
    obtain ⟨hb, hs⟩ := not_or.1 (mt mem_cons.2 h)
    rw [ia5memchr, if_neg (Ne.symm hb), ih hs]
    rfl

theorem ia5memchr_append (h : c ∉ p) : ia5memchr c (p ++ c :: q) = some (p, q) := by
  induction p with
  | nil => rw [nil_append, ia5memchr, if_pos rfl]
  | cons b p ih =>
    obtain ⟨hb, hp⟩ := not_or.1 (mt mem_cons.2 h)
    rw [cons_append, ia5memchr, if_neg (Ne.symm hb), ih hp]
    rfl

theorem ncUri_text (u : HostUri) :
    ncUri u.text base = ncHost (uriHost (u.host ++ u.afterHost)) base := by
  have hscheme : ia5memchr colon u.text = _ := ia5memchr_append u.scheme_colon
  rw [ncUri, hscheme]
  rfl

theorem uriHost_eq {u : HostUri} (h : u.Delimited) : uriHost (u.host ++ u.afterHost) = u.host := by
  rw [uriHost, HostUri.afterHost]
  cases hport : u.port with
  | some port =>
    rw [Option.elim_some, cons_append, ia5memchr_append u.host_colon]
  | none =>
    have hrest := h.resolve_left (by simp [hport])
    cases hr : u.rest with
    | some rest =>
      have hcolon : colon ∉ u.host ++ slash :: rest := by
        simpa [u.host_colon, hrest rest hr] using (by decide : colon ≠ slash)
      simp only [Option.elim, nil_append, ia5memchr_none hcolon, ia5memchr_append u.host_slash]
    | none =>
      simp only [Option.elim, append_nil, ia5memchr_none u.host_colon, ia5memchr_none u.host_slash]

/-- A colon in the rest makes what is before it part of the host. -/
theorem uriHost_of_not_delimited {u : HostUri} (h : ¬u.Delimited) :
    ∃ part, uriHost (u.host ++ u.afterHost) = u.host ++ slash :: part := by
  rw [HostUri.Delimited] at h
  push Not at h
  obtain ⟨hport, rest, hrest, hcolon⟩ := h
  obtain ⟨part, after, rfl, hpart⟩ := eq_append_cons_of_mem hcolon
  have hbefore : colon ∉ u.host ++ slash :: part := by
    simpa [u.host_colon, hpart] using (by decide : colon ≠ slash)
  have htail : u.host ++ u.afterHost = (u.host ++ slash :: part) ++ colon :: after := by
    simp [HostUri.afterHost, Option.not_isSome_iff_eq_none.1 hport, Option.mem_def.1 hrest]
  exact ⟨part, by rw [uriHost, htail, ia5memchr_append hbefore]⟩

theorem ncHost_self : ncHost host host = .ok ↔ host ≠ [] ∧ host.head? ≠ some dot := by
  cases host with
  | nil => simp [ncHost]
  | cons b host =>
    have hself := (@ia5ncasecmp_eq_zero (b :: host) _ rfl).2 rfl
    simp [ncHost, hself]

theorem length_le_of_ncHost (h : ncHost host base = .ok) : base.length ≤ host.length := by
  unfold ncHost at h
  split at h
  · cases h
  split at h <;> split at h
  · omega
  · cases h
  · cases h
  · omega

/-- A host is in the base when it equals it or ends in it. -/
theorem ncHost_iff (hne : host ≠ []) (hdot : host.head? ≠ some dot) :
    ncHost host base = .ok ↔ HostIn host base := by
  rw [ncHost, if_neg (mt eq_nil_of_length_eq_zero hne), HostIn]
  by_cases hbase : base.head? = some dot
  · have hdiffer : ¬EqNocase host base := by
      intro heq
      have hhead := congrArg List.head? heq
      rw [head?_map, head?_map, hbase, Option.map_some, Option.map_eq_some_iff] at hhead
      obtain ⟨c, hc, hlower⟩ := hhead
      exact hdot (hc.trans (congrArg some ((lower_eq_iff (by decide)).1 hlower)))
    have hpos : 0 < base.length := length_pos_of_mem (mem_of_head? hbase)
    rw [if_pos ⟨hpos, hbase⟩, or_iff_right hdiffer, and_iff_right hbase, suffix_iff_eq_drop,
      ← map_drop]
    by_cases hlt : base.length < host.length
    · have hlen : (host.drop (host.length - base.length)).length = base.length := by
        rw [length_drop]
        omega
      simp [ia5ncasecmp_eq_zero hlen, EqNocase, eq_comm]
    · simp [hlt]
  · by_cases hlen : base.length = host.length
    · simp [hbase, hlen, ia5ncasecmp_eq_zero hlen.symm]
    · have hdiffer : ¬EqNocase host base := fun h => hlen h.length_eq.symm
      simp [hbase, hlen, hdiffer]

/-- **The host alone decides** if and only if there is a host, which does not begin with a dot, and
no colon follows it but that of the port. -/
theorem nc_uri_host_decides_iff (u : HostUri) :
    (∀ base, (ncUri u.text base = .ok ↔ HostIn u.host base) ∧
        ncUri u.text base = ncUri u.bare.text base) ↔
      u.host ≠ [] ∧ u.host.head? ≠ some dot ∧ u.Delimited := by
  have hbare : u.bare.Delimited := .inr (by simp [HostUri.bare])
  simp only [ncUri_text, uriHost_eq hbare]
  constructor
  · intro h
    have hself := (h u.host).1.2 (.inl rfl)
    obtain ⟨hne, hdot⟩ : u.host ≠ [] ∧ u.host.head? ≠ some dot :=
      ncHost_self.1 ((h u.host).2 ▸ hself)
    refine ⟨hne, hdot, ?_⟩
    by_contra hcolon
    obtain ⟨part, hpart⟩ := uriHost_of_not_delimited hcolon
    have hfound := (h (u.host ++ slash :: part)).2
    rw [hpart, ncHost_self.2 ⟨by simp, by rwa [head?_append_of_ne_nil _ hne]⟩] at hfound
    have hlen := length_le_of_ncHost hfound.symm
    simp [HostUri.bare] at hlen
  · rintro ⟨hne, hdot, hdelimited⟩ base
    rw [uriHost_eq hdelimited]
    exact ⟨ncHost_iff hne hdot, rfl⟩

/-- `a://b/c:d` is on the host `b`, and does not match the base `b`. -/
theorem nc_uri_colon_in_path : ∃ u : HostUri, HostIn u.host [0x62] ∧ u.host ≠ [] ∧
    u.host.head? ≠ some dot ∧ ncUri u.text [0x62] = .permittedViolation :=
  ⟨⟨[0x61], [0x62], none, some [0x63, colon, 0x64], by decide, by decide, by decide⟩, .inl rfl,
    by decide, by decide, by decide⟩

end QuicTls.X509
