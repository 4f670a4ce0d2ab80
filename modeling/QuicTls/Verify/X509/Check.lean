import QuicTls.Crypto.X509.Utl

/-!
# Peer names are compared with names of the right kind

The names of a kind are the ones that `nameString` gives a string for. The check looks at them, and
at the subject if there are none, as long as the loop does not come to an other name: that is read
as if it were a string (`x509_check_right_kind`).
-/

namespace QuicTls.X509

open List

variable {env : CheckEnv} {c : Check} {x : Cert} {gens : List GeneralName} {g : GeneralName}
  {st : SanState}

section

variable (env c x g)

/-- The string of a name of the kind that is checked, and how it is compared. -/
def nameString : GeneralName → Option (AsnString × Option Nat)
  | .rfc822Name s => if c.type = .email then some (s, some c.altType) else none
  | .dNSName s => if c.type = .dns then some (s, some c.altType) else none
  | .iPAddress s => if c.type = .ip then some (s, some c.altType) else none
  | .otherName o =>
    if c.type = .email ∧ o.typeId = objSmtpUTF8Mailbox ∧ o.value.type = vAsn1Utf8String then
      some (o.value.value, none)
    else none
  | _ => none

/-- A name of the kind that is checked. -/
def OfKind : Prop := (nameString c g).isSome

/-- A name of the kind that is checked matches the value. -/
def Matches : Prop :=
  ∃ r, nameString c g = some r ∧ (doCheckString env c r.1 r.2).1 = 1

/-- The subject may be consulted. -/
def MayConsult : Prop :=
  ((∀ gens, x.altname = some gens → ∀ g ∈ gens, ¬OfKind c g) ∨ c.flags.alwaysCheckSubject) ∧
    ¬c.flags.neverCheckSubject

/-- What the check should look for: a name of the kind, or an attribute of the subject. -/
def Named : Prop :=
  (∃ gens, x.altname = some gens ∧ ∃ g ∈ gens, Matches env c g) ∨
    MayConsult c x ∧ ∃ cnid, c.cnid = some cnid ∧
      ∃ s ∈ x.subject.valuesOf cnid, (doCheckString env c s none).1 = 1

/-- The member of the union that the type selects. -/
def GeneralName.member : GeneralName → Option Member
  | .otherName _ => some .otherName
  | .rfc822Name _ => some .rfc822Name
  | .dNSName _ => some .dNSName
  | .iPAddress _ => some .iPAddress
  | _ => none

/-- Every read goes through the member that the type selects. -/
def ReadsProper (reads : List (GeneralName × Member)) : Prop :=
  ∀ r ∈ reads, r.1.member = some r.2

/-- The allocations and the conversions of the certificate's strings succeed. -/
structure Succeeds : Prop where
  strndup : env.strndup = true
  subject : ∀ e ∈ x.subject, (env.toUtf8 e.value).isSome
  altname : ∀ gens, x.altname = some gens → ∀ o, GeneralName.otherName o ∈ gens →
    (env.toUtf8 o.value.value).isSome

/-- An other name does no harm if it is a mailbox that matches, or if it is not a mailbox and
e-mail is checked. -/
def Harmless : Prop :=
  ∀ o, g = .otherName o → c.type = .email ∧ (o.typeId = objSmtpUTF8Mailbox → Matches env c g)

/-- All other names are harmless, up to the first name that matches. -/
def Sound : List GeneralName → Prop
  | [] => True
  | g :: gens => Harmless env c g ∧ (¬Matches env c g → Sound gens)

/-- What the body of the loop does with a harmless name. -/
structure Step (st st' : SanState) : Prop where
  rv : (st'.rv = 1 ∧ Matches env c g) ∨ (st'.rv = 0 ∧ ¬Matches env c g)
  sanPresent : st'.sanPresent = true ↔ st.sanPresent = true ∨ OfKind c g
  reads : ReadsProper st.reads → ReadsProper st'.reads

end

/-! ## One name -/

theorem sanStep_of_type (h : g.type = c.type.genType) :
    sanStep env c st g = sanCheck env c st g ∧
      nameString c g = some (g.read env, some c.altType) ∧ g.member = some c.type.member := by
  cases ht : c.type <;> rw [ht] at h <;> cases g <;> cases h <;>
    simp [sanStep, nameString, ht, GeneralName.type, CheckType.genType, GeneralName.read,
      GeneralName.member, CheckType.member]

theorem sanStep_skip (h : g.type ≠ c.type.genType) (hother : g.type ≠ .otherName) :
    sanStep env c st g = st ∧ nameString c g = none := by
  cases ht : c.type <;> rw [ht] at h <;> cases g <;>
    first
    | exact absurd rfl h
    | exact absurd rfl hother
    | simp [sanStep, nameString, ht, GeneralName.type, CheckType.genType]

theorem readsProper_append {reads : List (GeneralName × Member)} {m : Member}
    (h : ReadsProper reads) (hm : g.member = some m) : ReadsProper (reads ++ [(g, m)]) := by
  intro r hr
  rw [mem_append, mem_singleton] at hr
  obtain hr | rfl := hr
  · exact h r hr
  · exact hm

theorem Step.skip (hrv : st.rv = 0) (h : g.type ≠ c.type.genType) (hother : g.type ≠ .otherName) :
    Step env c g st (sanStep env c st g) := by
  obtain ⟨hstep, hname⟩ := @sanStep_skip env c g st h hother
  rw [hstep]
  refine ⟨.inr ⟨hrv, ?_⟩, ?_, id⟩
  · rintro ⟨r, hr, -⟩
    rw [hname] at hr
    cases hr
  · simp [OfKind, hname]

/-- A harmless other name: no mailbox, or a mailbox that matches. -/
theorem Step.other {o : OtherName} (hrv : st.rv = 0) (h : Harmless env c (.otherName o)) :
    Step env c (.otherName o) st (sanStep env c st (.otherName o)) := by
  obtain ⟨htype, hmailbox⟩ := h o rfl
  by_cases hsmtp : o.typeId = objSmtpUTF8Mailbox
  · have hmatches := hmailbox hsmtp
    obtain ⟨r, hname, hcheck⟩ := hmatches
    have hutf8 : o.value.type = vAsn1Utf8String := by
      by_contra hne
      simp [nameString, hne] at hname
    simp only [nameString, htype, hsmtp, hutf8, and_self, if_true, Option.some.injEq] at hname
    subst hname
    have hne : (1 : Int) ≠ 0 := by decide
    simp only [sanStep, htype, hsmtp, hutf8, hcheck, if_true]
    exact
      { rv := .inl ⟨rfl, hmailbox hsmtp⟩
        sanPresent := iff_of_true rfl (.inr (by simp [OfKind, nameString, htype, hsmtp, hutf8]))
        reads := fun hreads => readsProper_append hreads rfl }
  · have hname : nameString c (.otherName o) = none := by simp [nameString, hsmtp]
    simp only [sanStep, htype, hsmtp]
    exact
      { rv := .inr ⟨hrv, by rintro ⟨r, hr, -⟩; rw [hname] at hr; cases hr⟩
        sanPresent := by simp [OfKind, hname]
        reads := fun hreads => readsProper_append hreads rfl }

theorem sanCheck_other (o : OtherName) : ¬ReadsProper (sanCheck env c st (.otherName o)).reads := by
  intro h
  have hlast := h (.otherName o, c.type.member)
    (mem_append_right _ (mem_singleton_self _))
  cases ht : c.type <;> rw [ht] at hlast <;> cases hlast

theorem sanStep_reads : st.reads ⊆ (sanStep env c st g).reads := by
  have hcheck (st' : SanState) (h : st.reads ⊆ st'.reads) :
      st.reads ⊆ (sanCheck env c st' g).reads := subset_append_of_subset_left _ h
  unfold sanStep
  split
  · rename_i o _
    have hread := subset_append_left st.reads [(GeneralName.otherName o, Member.otherName)]
    split
    · split
      · dsimp only
        split
        · exact hread
        · exact hcheck _ hread
      · exact hcheck _ hread
    · exact hread
  · split
    · exact List.Subset.refl _
    · exact hcheck _ (List.Subset.refl _)

theorem sanLoop_reads : st.reads ⊆ (sanLoop env c gens st).reads := by
  induction gens generalizing st with
  | nil => exact List.Subset.refl _
  | cons g gens ih =>
    rw [sanLoop]
    split
    · exact sanStep_reads
    · exact List.Subset.trans sanStep_reads ih

/-- What the loop finds. -/
structure Loop (env : CheckEnv) (c : Check) (gens : List GeneralName) (st st' : SanState) :
    Prop where
  rv : (st'.rv = 1 ∧ ∃ g ∈ gens, Matches env c g) ∨ (st'.rv = 0 ∧ ∀ g ∈ gens, ¬Matches env c g)
  sanPresent : st'.rv = 0 → (st'.sanPresent = true ↔ st.sanPresent = true ∨ ∃ g ∈ gens, OfKind c g)
  reads : ReadsProper st.reads → ReadsProper st'.reads

section

variable (hdup : env.strndup = true)
include hdup

theorem withPeername_rv (equal : Bool) (name : Bytes) :
    (withPeername env c equal name).1 = 0 ∨ (withPeername env c equal name).1 = 1 := by
  unfold withPeername
  split
  · split <;> exact .inr rfl
  · exact .inl rfl

theorem doCheckString_rv {a : AsnString} {cmpType : Option Nat}
    (hutf8 : cmpType = none → (env.toUtf8 a).isSome) :
    (doCheckString env c a cmpType).1 = 0 ∨ (doCheckString env c a cmpType).1 = 1 := by
  unfold doCheckString
  split
  · exact .inl rfl
  cases cmpType with
  | some t =>
    dsimp only
    split
    · exact .inl rfl
    · split <;> exact withPeername_rv hdup _ _
  | none =>
    obtain ⟨astr, hastr⟩ := Option.isSome_iff_exists.1 (hutf8 rfl)
    simp only [hastr]
    exact withPeername_rv hdup _ _

/-- The rest of the body of the loop, for a name of the type that is checked. -/
theorem Step.of_type (h : g.type = c.type.genType) :
    Step env c g st (sanStep env c st g) := by
  obtain ⟨hstep, hname, hmember⟩ := @sanStep_of_type env c g st h
  have hmatches : Matches env c g ↔ (doCheckString env c (g.read env) (some c.altType)).1 = 1 := by
    simp [Matches, hname]
  rw [hstep]
  refine ⟨?_, ?_, fun hreads => readsProper_append hreads hmember⟩
  · rw [hmatches]
    obtain hrv | hrv := @doCheckString_rv env c hdup (g.read env) (some c.altType) nofun
    · exact .inr ⟨hrv, by rw [hrv]; decide⟩
    · exact .inl ⟨hrv, hrv⟩
  · exact iff_of_true rfl (.inr (by rw [OfKind, hname]; rfl))

theorem Step.harmless (hrv : st.rv = 0) (h : Harmless env c g) :
    Step env c g st (sanStep env c st g) := by
  by_cases htype : g.type = c.type.genType
  · exact .of_type hdup htype
  · cases g with
    | otherName o => exact .other hrv h
    | _ => exact .skip hrv htype nofun

/-- Any other name that is not harmless is read as if it were a string. -/
theorem sanStep_not_harmless
    (hutf8 : ∀ o, g = .otherName o → (env.toUtf8 o.value.value).isSome) (h : ¬Harmless env c g) :
    ¬ReadsProper (sanStep env c st g).reads := by
  simp only [Harmless, not_forall] at h
  obtain ⟨o, rfl, h⟩ := h
  cases htype : c.type with
  | dns | ip =>
    have hstep : sanStep env c st (.otherName o) = sanCheck env c st (.otherName o) := by
      simp [sanStep, htype, GeneralName.type]
    rw [hstep]
    exact sanCheck_other o
  | email =>
    obtain ⟨hsmtp, hno⟩ : o.typeId = objSmtpUTF8Mailbox ∧ ¬Matches env c (.otherName o) := by
      simpa [htype] using h
    by_cases hvalue : o.value.type = vAsn1Utf8String
    · -- the mailbox does not match, and is then taken for an `rfc822Name`
      have hzero : (doCheckString env c o.value.value none).1 = 0 := by
        obtain hrv | hrv := @doCheckString_rv env c hdup o.value.value none
          fun _ => hutf8 o rfl
        · exact hrv
        · have hname : nameString c (.otherName o) = some (o.value.value, none) := by
            simp [nameString, htype, hsmtp, hvalue]
          exact absurd ⟨_, hname, hrv⟩ hno
      simp only [sanStep, htype, hsmtp, hvalue, hzero]
      exact sanCheck_other o
    · simp only [sanStep, htype, hsmtp, hvalue, if_true]
      exact sanCheck_other o

/-- The loop over the names matches only names of the right kind. -/
theorem Loop.sound (hrv : st.rv = 0) (h : Sound env c gens) :
    Loop env c gens st (sanLoop env c gens st) := by
  induction gens generalizing st with
  | nil => exact ⟨.inr ⟨hrv, by simp⟩, by simp [sanLoop], id⟩
  | cons g gens ih =>
    have hstep := Step.harmless hdup hrv h.1
    rw [sanLoop]
    obtain ⟨hone, hmatch⟩ | ⟨hzero, hno⟩ := hstep.rv
    · have hne : (sanStep env c st g).rv ≠ 0 := by
        rw [hone]
        decide
      rw [if_pos hne]
      exact ⟨.inl ⟨hone, g, mem_cons_self, hmatch⟩, fun h0 => absurd h0 hne, hstep.reads⟩
    · rw [if_neg (not_not.2 hzero)]
      have hrest := ih hzero (h.2 hno)
      refine ⟨?_, fun h0 => ?_, fun hreads => hrest.reads (hstep.reads hreads)⟩
      · obtain ⟨hone, g', hg', hmatch⟩ | ⟨hzero', hnone⟩ := hrest.rv
        · exact .inl ⟨hone, g', mem_cons_of_mem _ hg', hmatch⟩
        · exact .inr ⟨hzero', forall_mem_cons.2 ⟨hno, hnone⟩⟩
      · simp [hrest.sanPresent h0, hstep.sanPresent, or_assoc]

/-- The loop comes to a name that is not harmless. -/
theorem sanLoop_not_sound (hrv : st.rv = 0)
    (hutf8 : ∀ o, GeneralName.otherName o ∈ gens → (env.toUtf8 o.value.value).isSome)
    (h : ¬Sound env c gens) : ¬ReadsProper (sanLoop env c gens st).reads := by
  induction gens generalizing st with
  | nil => exact absurd trivial h
  | cons g gens ih =>
    rw [sanLoop]
    by_cases hg : Harmless env c g
    · obtain ⟨hno, hrest⟩ : ¬Matches env c g ∧ ¬Sound env c gens := by
        simpa [Sound, hg] using h
      have hstep := Step.harmless hdup hrv hg
      obtain ⟨-, hmatch⟩ | ⟨hzero, -⟩ := hstep.rv
      · exact absurd hmatch hno
      · rw [if_neg (not_not.2 hzero)]
        exact ih hzero (fun o ho => hutf8 o (mem_cons_of_mem _ ho)) hrest
    · have hread : ¬ReadsProper (sanStep env c st g).reads :=
        sanStep_not_harmless hdup (fun o ho => hutf8 o (ho ▸ mem_cons_self)) hg
      split
      · exact hread
      · exact fun hproper => hread fun r hr => hproper r (sanLoop_reads hr)

theorem subjectLoop_rv {values : List AsnString}
    (hutf8 : ∀ s ∈ values, (env.toUtf8 s).isSome) :
    (subjectLoop env c values).1 = 1 ↔ ∃ s ∈ values, (doCheckString env c s none).1 = 1 := by
  induction values with
  | nil => simp [subjectLoop]
  | cons s values ih =>
    simp only [subjectLoop, mem_cons]
    have hrest := ih fun s' hs' => hutf8 s' (mem_cons_of_mem _ hs')
    obtain hrv | hrv := @doCheckString_rv env c hdup s none fun _ => hutf8 s mem_cons_self
    · simp [hrv, hrest]
    · simp [hrv]

end

/-! ## The checks -/

theorem checkSubject_rv (hok : Succeeds env x) (reads : List (GeneralName × Member)) :
    (checkSubject env c x reads).rv = 1 ↔ ¬c.flags.neverCheckSubject ∧ ∃ cnid, c.cnid = some cnid ∧
        ∃ s ∈ x.subject.valuesOf cnid, (doCheckString env c s none).1 = 1 := by
  unfold checkSubject
  split
  · rename_i hcnid
    simp [hcnid]
  rename_i cnid hcnid
  split_ifs with hnever
  · simp [hnever]
  have hutf8 : ∀ s ∈ x.subject.valuesOf cnid, (env.toUtf8 s).isSome := by
    intro s hs
    obtain ⟨e, he, rfl⟩ := mem_map.1 hs
    exact hok.subject e (mem_filter.1 he).1
  simp [hcnid, hnever, subjectLoop_rv hok.strndup hutf8]

theorem checkSubject_reads (reads : List (GeneralName × Member)) :
    (checkSubject env c x reads).reads = reads := by
  unfold checkSubject
  split
  · rfl
  · split <;> rfl

/-- What a check should do: it succeeds if and only if the certificate has the name, and reads
names through the member of their type. -/
structure RightKind (env : CheckEnv) (c : Check) (x : Cert) (r : CheckResult) : Prop where
  rv : r.rv = 1 ↔ Named env c x
  reads : ReadsProper r.reads

/-- A check compares only names of the right kind. -/
theorem doX509Check_sound (hok : Succeeds env x)
    (h : ∀ gens, x.altname = some gens → Sound env c gens) :
    RightKind env c x (doX509Check env x c) := by
  unfold doX509Check
  cases hx : x.altname with
  | none =>
    refine ⟨?_, ?_⟩
    · simp [checkSubject_rv hok, Named, MayConsult, hx]
    · rw [checkSubject_reads]
      exact nofun
  | some gens =>
    have hloop : Loop env c gens sanInit (sanLoop env c gens sanInit) :=
      .sound hok.strndup rfl (h gens hx)
    have hreads := hloop.reads nofun
    dsimp only
    obtain ⟨hone, hmatch⟩ | ⟨hzero, hnone⟩ := hloop.rv
    · rw [if_pos (by rw [hone]; decide)]
      exact ⟨iff_of_true hone (.inl ⟨gens, hx, hmatch⟩), hreads⟩
    have hpresent := hloop.sanPresent hzero
    have hno : ¬∃ gens, x.altname = some gens ∧ ∃ g ∈ gens, Matches env c g := by
      rintro ⟨gens', hx', g, hg, hmatch⟩
      rw [hx, Option.some.injEq] at hx'
      exact hnone g (hx' ▸ hg) hmatch
    rw [if_neg (not_not.2 hzero)]
    have hkind : (sanLoop env c gens sanInit).sanPresent = true ↔ ∃ g ∈ gens, OfKind c g := by
      simpa [sanInit] using hpresent
    have hconsult : MayConsult c x ↔ ((sanLoop env c gens sanInit).sanPresent = false ∨
        c.flags.alwaysCheckSubject) ∧ ¬c.flags.neverCheckSubject := by
      rw [← Bool.not_eq_true, hkind]
      simp [MayConsult, hx]
    split_ifs with hstop
    · refine ⟨iff_of_false (show ¬(0 : Int) = 1 by decide) ?_, hreads⟩
      rintro (hmatch | ⟨hmay, -⟩)
      · exact hno hmatch
      · obtain hfalse | halways := (hconsult.1 hmay).1
        · rw [hstop.1] at hfalse
          cases hfalse
        · simp [halways] at hstop
    · refine ⟨?_, by rw [checkSubject_reads]; exact hreads⟩
      have hgo' : (sanLoop env c gens sanInit).sanPresent = false ∨ c.flags.alwaysCheckSubject := by
        simpa [Decidable.imp_iff_not_or] using hstop
      simp [checkSubject_rv hok, Named, hno, hconsult, hgo']

theorem doX509Check_not_sound (hok : Succeeds env x) (hx : x.altname = some gens)
    (h : ¬Sound env c gens) : ¬ReadsProper (doX509Check env x c).reads := by
  have hreads := @sanLoop_not_sound env c gens sanInit hok.strndup rfl (hok.altname gens hx) h
  unfold doX509Check
  rw [hx]
  dsimp only
  split
  · exact hreads
  · split
    · exact hreads
    · rw [checkSubject_reads]
      exact hreads

/-- The check that a call makes, none if the argument is not a name. -/
def checkOf (type : CheckType) (chk : Option Bytes) (chklen : Nat) (flags : CheckFlags)
    (peername : Bool) : Option Check :=
  match chk, type with
  | none, _ => none
  | some chk, .ip => some (setup .ip chk chklen flags false)
  | some chk, .email => (checkedLength chk chklen).map fun n => setup .email chk n flags false
  | some chk, .dns => (checkedLength chk chklen).map fun n => setup .dns chk n flags peername

variable (type : CheckType) (env : CheckEnv) (x : Cert) (chk : Option Bytes) (chklen : Nat)
  (flags : CheckFlags) (peername : Bool)

theorem x509Check_eq :
    x509Check type env x chk chklen flags peername =
      match checkOf type chk chklen flags peername with
      | none => ⟨-2, none, []⟩
      | some c => doX509Check env x c := by
  cases chk with
  | none => cases type <;> rfl
  | some chk =>
    cases type with
    | ip => rfl
    | email | dns =>
      simp only [x509Check, x509CheckEmail, x509CheckHost, x509CheckString, checkOf]
      cases checkedLength chk chklen <;> rfl

/-- What a call should do: it returns 1 if and only if there is a value to check and the certificate
has that name, and it reads names through the member of their type. -/
def ChecksRightKind : Prop :=
  ((x509Check type env x chk chklen flags peername).rv = 1 ↔
    ∃ c, checkOf type chk chklen flags peername = some c ∧ Named env c x) ∧
  ReadsProper (x509Check type env x chk chklen flags peername).reads

/-- The checks look at names of the right kind if and only if all other names up to the first match
are harmless. -/
theorem x509_check_right_kind (hok : Succeeds env x) :
    ChecksRightKind type env x chk chklen flags peername ↔
      ∀ c gens, checkOf type chk chklen flags peername = some c → x.altname = some gens →
        Sound env c gens := by
  rw [ChecksRightKind, x509Check_eq]
  cases hc : checkOf type chk chklen flags peername with
  | none => simp [ReadsProper]
  | some c =>
    simp only [Option.some.injEq, exists_eq_left']
    constructor
    · rintro ⟨-, hreads⟩ c' gens rfl hx
      by_contra hsound
      exact doX509Check_not_sound hok hx hsound hreads
    · intro hsound
      have h := doX509Check_sound hok fun gens hx => hsound c gens rfl hx
      exact ⟨h.rv, h.reads⟩

/-- Strings are in UTF-8, and the type of an other name that is read as a string is half of a
pointer. -/
def plainEnv : CheckEnv where
  toUtf8 s := some s.data
  punned _ := ⟨0x7F00, [0]⟩
  strndup := true

/-- The name `a.b`. -/
def hostAB : Bytes := [0x61, dot, 0x62]

theorem x509_check_right_kind_dns :
    ChecksRightKind .dns plainEnv ⟨[], some [.rfc822Name ⟨22, hostAB⟩, .dNSName ⟨22, hostAB⟩]⟩
      (some hostAB) 3 noFlags false := by
  refine (x509_check_right_kind _ _ _ _ _ _ _ ⟨rfl, fun _ _ => rfl, ?_⟩).2 ?_
  · exact fun _ _ _ _ => rfl
  · rintro c _ - ⟨⟩
    exact ⟨nofun, fun _ => ⟨nofun, fun _ => trivial⟩⟩

/-- A certificate for the common name `a.b`, with an other name. -/
def otherNameCert : Cert where
  subject := [⟨objCommonName, ⟨vAsn1Utf8String, hostAB⟩, 0⟩]
  altname := some [.otherName ⟨[0x2A], vAsn1Utf8String, ⟨vAsn1Utf8String, [0x78]⟩⟩]

/-- The other name counts as a host name, so the common name is not looked at. -/
theorem x509_check_host_other_name :
    (x509CheckHost plainEnv otherNameCert (some hostAB) 3 noFlags false).rv = 0 ∧
      ¬ChecksRightKind .dns plainEnv otherNameCert (some hostAB) 3 noFlags false := by
  have hrv : (x509CheckHost plainEnv otherNameCert (some hostAB) 3 noFlags false).rv = 0 := by
    decide
  refine ⟨hrv, fun h => ?_⟩
  have hnamed : (x509CheckHost plainEnv otherNameCert (some hostAB) 3 noFlags false).rv = 1 := by
    refine h.1.2 ⟨_, rfl, .inr ⟨⟨.inl ?_, by decide⟩, _, rfl, ⟨vAsn1Utf8String, hostAB⟩, ?_, ?_⟩⟩
    · rintro _ ⟨⟩ g hg
      rw [mem_singleton.1 hg]
      exact nofun
    · decide
    · decide
  cases hnamed

end QuicTls.X509
