import QuicTls.Verify.KeyUpdate.Statem

/-!
# One end of a connection

`Effect` says what a step of an end can do. Two invariants follow from it: `Secrets`, that the
secrets in place are the initial ones updated once for each KeyUpdate message sent or processed, and
`Accounts`, that each KeyUpdate message sent was asked for.
-/

namespace QuicTls

open List

variable {Md : Type} {K : Kdf Md} {md : Md} {last ph : Statem.Phase} {n g : Nat}

variable (K md) in
/-- The secret after `tls13_update_key`. -/
def trafficUpdate (secret : Bytes) : Bytes :=
  K.expandLabel md secret applicationTraffic none (K.size md)

/-- The secrets of the two directions, in the state and in the record layers. -/
structure Keys (md : Md) (k : Tls13State Md) (writeSecret readSecret : Bytes) : Prop where
  handshakeMd : k.handshakeMd = some md
  write : k.appTrafficSecret true = writeSecret
  read : k.appTrafficSecret false = readSecret
  writeLayer : k.recordLayer .write = some writeSecret
  readLayer : k.recordLayer .read = some readSecret

variable {k : Tls13State Md} {w r : Bytes}

theorem Keys.updateKey (hk : Keys md k w r) (sending : Bool) :
    ∃ k', tls13UpdateKey K k sending = .ok k' ∧
      Keys md k' (if sending then trafficUpdate K md w else w)
        (if sending then r else trafficUpdate K md r) := by
  obtain ⟨hmd, rfl, rfl, hw, hr⟩ := hk
  unfold tls13UpdateKey tls13HkdfExpand
  rw [hmd]
  refine ⟨_, rfl, ?_⟩
  cases sending <;> cases hs : k.server
  all_goals
    constructor
    · exact hmd
    · simp [Tls13State.appTrafficSecret, hs, trafficUpdate]
    · simp [Tls13State.appTrafficSecret, hs, trafficUpdate]
    · simp_all [Tls13State.recordLayer, trafficUpdate]
    · simp_all [Tls13State.recordLayer, trafficUpdate]

/-! ### What a step does -/

def Record.IsUpdate (r : Record) : Prop := r.message = some .keyUpdate

def Record.IsRequest (r : Record) : Prop := r.message = some .keyUpdate ∧ r.updateRequested = true

instance (r : Record) : Decidable r.IsUpdate := inferInstanceAs (Decidable (_ = _))

instance (r : Record) : Decidable r.IsRequest := inferInstanceAs (Decidable (_ ∧ _))

/-- The KeyUpdate messages among the records. -/
def updates (rs : List Record) : Nat := rs.countP (·.IsUpdate)

/-- The KeyUpdate messages that request one in return. -/
def requests (rs : List Record) : Nat := rs.countP (·.IsRequest)

namespace Endpoint

open Statem (Quiet Composing)

/-- What a step of an end can do; `next` is the record that would arrive. -/
inductive Effect (K : Kdf Md) (next : Option Record) (p : Endpoint Md) : Endpoint Md → Prop
  | quiet {s : Statem} : Quiet p.statem s → Effect K next p { p with statem := s }
  /-- the application asks for a KeyUpdate message -/
  | asked {s : Statem} : s.phase = p.statem.phase → Composing s →
    Effect K next p { p with statem := s, asked := some .application, calls := p.calls + 1 }
  | composed {s : Statem} : p.statem.phase = .idle → p.statem.keyUpdate ≠ .none →
    s.phase = .composed → Composing s → s.keyUpdate = .none →
    Effect K next p { p with
      statem := s, initBuf := p.statem.keyUpdate = .requested, asked := none
      reply := p.asked = some .peer }
  | sentUpdate {s : Statem} : p.statem.phase = .composed → s.phase = .unflushed → Composing s →
    s.keyUpdate = p.statem.keyUpdate →
    Effect K next p { p with
      statem := s
      written := p.written ++ [⟨p.keys.recordLayer .write, some .keyUpdate, p.initBuf⟩]
      replies := if p.reply then p.replies + 1 else p.replies }
  /-- another record is written -/
  | wrote {s : Statem} {r : Record} : p.statem.phase = .idle → s.phase = .idle → Composing s →
    s.keyUpdate = p.statem.keyUpdate → ¬ r.IsUpdate → ¬ r.IsRequest →
    r.secret = p.keys.recordLayer .write →
    Effect K next p { p with statem := s, written := p.written ++ [r] }
  | flushed {s : Statem} {keys : Tls13State Md} : p.statem.phase = .unflushed → s.phase = .idle →
    Composing s → s.keyUpdate = p.statem.keyUpdate → tls13UpdateKey K p.keys true = .ok keys →
    Effect K next p { p with statem := s, keys := keys, sent := p.sent + 1 }
  | processed {s : Statem} {keys : Tls13State Md} : p.statem.phase = .unprocessed →
    s.phase = .idle → Composing s →
    s.keyUpdate = (if p.initBuf then .notRequested else p.statem.keyUpdate) →
    tls13UpdateKey K p.keys false = .ok keys →
    Effect K next p { p with
      statem := s, keys := keys
      asked := if p.initBuf then some .peer else p.asked
      processed := p.processed + 1
      requests := if p.initBuf then p.requests + 1 else p.requests }
  | received {s : Statem} {r : Record} {initBuf : Bool} : next = some r →
    p.statem.phase = .idle → Composing s →
    s.phase = .closed ∨ s.phase = (if r.IsUpdate then .unprocessed else .idle) →
    s.keyUpdate = p.statem.keyUpdate → (r.IsUpdate → initBuf = r.updateRequested) →
    Effect K next p { p with
      statem := s, initBuf := initBuf, read := p.read ++ [(r, p.keys.recordLayer .read)] }

variable {p : Endpoint Md} {next : Option Record}

theorem Effect.refl (K : Kdf Md) (next : Option Record) (p : Endpoint Md) : Effect K next p p :=
  .quiet (Statem.quiet_of_same rfl rfl rfl rfl)

/-- After a KeyUpdate message was flushed, the write key is updated. -/
theorem effect_postWork (hk : Keys md p.keys w r) (work : Work) :
    Effect K next p (p.postWork K work) := by
  unfold Endpoint.postWork
  by_cases hf : p.statem.flow = .writing .postWork
  · have hstep : (p.statem.step (.postWork work)).1 = p.statem.writePostWork work := by
      simp [Statem.step, if_pos hf]
    rw [hstep]
    rcases Statem.writePostWork_cases hf work with ⟨hw, hret, hflow, hku⟩ | ⟨hnot, hq⟩
    · obtain ⟨keys, hupdate, -⟩ := hk.updateKey true
      have hunflushed : p.statem.phase = .unflushed := by simp only [Statem.phase, hf, hw]; rfl
      have hidle : (p.statem.writePostWork work).phase = .idle := by
        simp [Statem.phase, hflow]
      rw [if_pos ⟨hf, hw, hret⟩]
      unfold updateKey
      rw [hupdate]
      exact .flushed hunflushed hidle (.of_apart (by rw [hflow]; trivial)) hku hupdate
    · rw [if_neg fun h => hnot h.2]
      exact .quiet hq
  · simpa [Statem.step, hf] using Effect.refl K next p

/-- A KeyUpdate message is processed, and the read key is updated. -/
theorem effect_body (hk : Keys md p.keys w r) (b : Body) : Effect K next p (p.body K b) := by
  unfold Endpoint.body
  dsimp only
  generalize hb : (if p.statem.readsKeyUpdate then { b with updateRequested := p.initBuf } else b)
    = b'
  by_cases hf : p.statem.flow = .reading .body
  · have hstep : (p.statem.step (.body b')).1 = p.statem.readBody b' := by
      simp [Statem.step, if_pos hf]
    rw [hstep]
    rcases Statem.readBody_cases hf b' with ⟨hreads, hret, hflow, hku⟩ | ⟨hnot, hq⟩
    · obtain ⟨keys, hupdate, -⟩ := hk.updateKey false
      have hunprocessed : p.statem.phase = .unprocessed := by
        simp only [Statem.phase, hf, hreads]; rfl
      have hidle : (p.statem.readBody b').phase = .idle := by simp [Statem.phase, hflow]
      have hreq : b'.updateRequested = p.initBuf := by rw [← hb, if_pos hreads]
      rw [hreq] at hku
      rw [if_pos ⟨hf, hreads, hret⟩]
      unfold updateKey
      rw [hupdate]
      exact .processed hunprocessed hidle (.of_apart (by rw [hflow]; trivial)) hku hupdate
    · rw [if_neg fun h => hnot h.2]
      exact .quiet hq
  · simpa [Statem.step, hf] using Effect.refl K next p

theorem decrypt_eq (p : Endpoint Md) (r : Record) : ∃ s : Statem,
    p.decrypt r = { p with statem := s, read := p.read ++ [(r, p.keys.recordLayer .read)] }
      ∧ (s = p.statem ∨ s = p.statem.fatal) := by
  unfold decrypt
  dsimp only
  split
  · exact ⟨p.statem, rfl, .inl rfl⟩
  · exact ⟨p.statem.fatal, rfl, .inr rfl⟩

section

variable (hc : Composing p.statem)
include hc

theorem effect_sslKeyUpdate (updatetype : KeyUpdate) :
    Effect K next p (p.sslKeyUpdate updatetype) := by
  unfold Endpoint.sslKeyUpdate Statem.sslKeyUpdate
  split
  · rename_i s hs
    split at hs
    · obtain ⟨-, ht, -⟩ := ‹_ ∧ _›
      cases hs
      exact .asked rfl ⟨hc.send, fun _ _ => ht⟩
    · cases hs
  · exact .refl K _ p

/-- Before writing, a KeyUpdate message may be composed. -/
theorem effect_preWork (w : Work) (send ok : Bool) :
    Effect K next p (p.preWork w send ok) := by
  unfold Endpoint.preWork
  by_cases hf : p.statem.flow = .writing .preWork
  · have hstep : (p.statem.step (.preWork w send ok)).1 = p.statem.writePreWork w send ok := by
      simp [Statem.step, if_pos hf]
    have hidle : p.statem.phase = .idle := by simp [Statem.phase, hf]
    rw [hstep]
    rcases Statem.writePreWork_cases hf w send ok with ⟨hq, hp⟩ | ⟨hw, hflow, hw', hk⟩
    · rw [if_neg]
      · exact .quiet hq
      · intro h
        exact hp (by simp only [Statem.phase, h.2]; rfl)
    rw [if_pos ⟨hf, hflow⟩]
    refine .composed hidle (hc.announced hf hw) (by simp only [Statem.phase, hflow]; rfl) ?_ hk
    constructor
    · intro mt hmt
      rw [hflow] at hmt
      cases hmt
      exact ⟨fun _ => hw', fun _ => rfl⟩
    · intro h
      rw [hflow] at h
      cases h
  · simpa [Statem.step, hf] using Effect.refl K next p

theorem effect_send : Effect K next p p.send := by
  unfold Endpoint.send
  simp only [Statem.step]
  cases hf : p.statem.flow with
  | writing st =>
    cases st with
    | send mt =>
      have hphase := Statem.send_phase hc hf
      by_cases hmt : mt = .keyUpdate
      · subst hmt
        simp only [true_and, Bool.decide_eq_true]
        exact .sentUpdate (by simp only [Statem.phase, hf]; rfl) hphase
          ⟨by simp, by simp⟩ rfl
      rw [if_neg hmt] at hphase
      simp only [hmt]
      refine .wrote (by simp [Statem.phase, hf, if_neg hmt]) hphase
        ⟨by simp, by simp⟩ rfl ?_ ?_ rfl
      · exact fun h => hmt (Option.some.inj h)
      · exact fun h => hmt (Option.some.inj h.1)
    | transition | preWork | postWork => exact .refl K _ p
  | uninited | error | reading | finished => exact .refl K _ p

theorem effect_machine (hk : Keys md p.keys w r) (e : StatemEvent) :
    Effect K next p (p.machine K e) := by
  cases e with
  | header => exact .refl K _ p
  | keyUpdate updatetype => exact effect_sslKeyUpdate hc updatetype
  | preWork work send ok => exact effect_preWork hc work send ok
  | send => exact effect_send hc
  | postWork work => exact effect_postWork hk work
  | body b => exact effect_body hk b
  | app | call | record | writeDue | renegotiate | renegotiateCheck | verifyClient | postProcess
  | transition =>
    exact .quiet (Statem.quiet_step trivial)

theorem effect_write : Effect K next p p.write := by
  unfold Endpoint.write
  split
  · rename_i h
    have hidle : p.statem.phase = .idle := by simp [Statem.phase, h.1]
    exact .wrote hidle hidle hc rfl (by rintro ⟨⟩) (by rintro ⟨⟨⟩, -⟩) rfl
  · exact .refl K _ p

/-- A record arrives. -/
theorem effect_receive (r : Record) (restored sizeOk : Bool) :
    Effect K (some r) p (p.receive r restored sizeOk) := by
  obtain ⟨s, hd, hs⟩ := decrypt_eq p r
  have hcs : Composing s := by
    rcases hs with rfl | rfl
    · exact hc
    · exact .of_apart trivial
  have hks : s.keyUpdate = p.statem.keyUpdate := by rcases hs with rfl | rfl <;> rfl
  unfold Endpoint.receive
  split
  · rename_i hr
    have hnot : ¬ r.IsUpdate := fun h => by
      rw [Record.IsUpdate, hr] at h
      cases h
    split
    · rename_i hf
      have hidle : p.statem.phase = .idle := by
        rcases hf with h | h <;> simp [Statem.phase, h]
      rw [hd]
      refine .received rfl hidle hcs ?_ hks fun h => absurd h hnot
      rcases hs with rfl | rfl
      · exact .inr (by rw [hidle, if_neg hnot])
      · exact .inl rfl
    · exact .refl K _ p
  · rename_i mt hr
    have hiff : r.IsUpdate ↔ mt = .keyUpdate := by
      rw [Record.IsUpdate, hr, Option.some.injEq]
    split
    · rename_i hf
      have hidle : p.statem.phase = .idle := by simp [Statem.phase, hf]
      rw [hd]
      dsimp only
      rcases hs with rfl | rfl
      · have hstep : (p.statem.step (.header mt restored sizeOk)).1
            = p.statem.readHeader mt restored sizeOk := by
          simp [Statem.step, if_pos hf]
        obtain ⟨hcomp, hkeep⟩ := Statem.composing_readHeader hf mt restored sizeOk
        rw [hstep]
        refine .received rfl hidle hcomp ?_ hkeep fun _ => rfl
        rw [if_congr hiff rfl rfl]
        exact Statem.readHeader_phase hf mt restored sizeOk
      · exact .received rfl hidle (.of_apart trivial) (.inl rfl) rfl fun _ => rfl
    · exact .refl K _ p

theorem effect_step (hk : Keys md p.keys w r) (peer : Endpoint Md) (e : EndpointEvent) :
    Effect K peer.written[p.read.length]? p (p.step K peer e) := by
  cases e with
  | machine e => exact effect_machine hc hk e
  | write => exact effect_write hc
  | receive restored sizeOk =>
    unfold Endpoint.step
    dsimp only
    split
    · rename_i r hr
      rw [hr]
      exact effect_receive hc r restored sizeOk
    · exact .refl K _ p

end

/-! ### Secrets -/

/-- Every record of the list stands at the place `P` wants it at, given those before it. -/
def Ordered {α : Type} (P : List α → α → Prop) (l : List α) : Prop :=
  ∀ pre a post, l = pre ++ a :: post → P pre a

theorem ordered_nil {α : Type} {P : List α → α → Prop} : Ordered P [] := by
  intro pre a post h
  simp at h

theorem Ordered.concat {α : Type} {P : List α → α → Prop} {l : List α} {x : α} (hl : Ordered P l)
    (hx : P l x) : Ordered P (l ++ [x]) := by
  intro pre a post h
  rcases eq_nil_or_concat post with rfl | ⟨post, y, rfl⟩
  · obtain ⟨rfl, heq⟩ := append_inj' h rfl
    cases heq
    exact hx
  · rw [concat_eq_append, ← cons_append, ← append_assoc] at h
    exact hl pre a post (append_inj' h rfl).1

/-- Of `n` messages `g` have changed the secret; the last one has not yet in the phase `last`. -/
def Counted (last phase : Statem.Phase) (n g : Nat) : Prop :=
  phase ≠ .closed → n = g + if phase = last then 1 else 0

theorem Counted.mono {ph' : Statem.Phase} (h : Counted last ph n g)
    (hph : ph' = ph ∨ ph' = .closed) : Counted last ph' n g := by
  intro hne
  rcases hph with rfl | rfl
  · exact h hne
  · exact absurd rfl hne

theorem Counted.eq (h : Counted last ph n g) (hne : ph ≠ .closed) (hlast : ph ≠ last) : n = g := by
  have := h hne
  rwa [if_neg hlast] at this

theorem counted_of_eq (h : n = g) (hlast : ph ≠ last) : Counted last ph n g := by
  intro _
  rw [if_neg hlast, h, Nat.add_zero]

/-- The secrets in place are the initial ones, updated once for each KeyUpdate message sent or
processed, and so were those in place for each record. -/
structure Secrets (K : Kdf Md) (md : Md) (writeSecret readSecret : Bytes) (p : Endpoint Md) :
    Prop where
  composing : Composing p.statem
  keys : Keys md p.keys ((trafficUpdate K md)^[p.sent] writeSecret)
    ((trafficUpdate K md)^[p.processed] readSecret)
  sent : Counted .unflushed p.statem.phase (updates p.written) p.sent
  written : Ordered (fun pre r => r.secret = some ((trafficUpdate K md)^[updates pre] writeSecret))
    p.written
  processed : Counted .unprocessed p.statem.phase (updates (p.read.map Prod.fst)) p.processed
  read : Ordered (fun pre x =>
    x.2 = some ((trafficUpdate K md)^[updates (pre.map Prod.fst)] readSecret)) p.read

theorem updates_concat (rs : List Record) (r : Record) :
    updates (rs ++ [r]) = updates rs + if r.IsUpdate then 1 else 0 := by
  simp [updates]

theorem requests_concat (rs : List Record) (r : Record) :
    QuicTls.requests (rs ++ [r]) = QuicTls.requests rs + if r.IsRequest then 1 else 0 := by
  simp [QuicTls.requests]

variable {p' : Endpoint Md} {writeSecret readSecret : Bytes}

/-- A step keeps the secrets in step with the messages. -/
theorem Secrets.step (hp : Secrets K md writeSecret readSecret p) (he : Effect K next p p') :
    Secrets K md writeSecret readSecret p' := by
  have hsent := hp.sent
  have hprocessed := hp.processed
  cases he with
  | quiet hq =>
    exact { hp with
      composing := hq.composing hp.composing
      sent := hsent.mono hq.phase
      processed := hprocessed.mono hq.phase }
  | asked hphase hc =>
    exact { hp with
      composing := hc
      sent := hsent.mono (.inl hphase)
      processed := hprocessed.mono (.inl hphase) }
  | composed hidle _ hphase hc _ =>
    rw [hidle] at hsent hprocessed
    refine { hp with composing := hc, sent := ?_, processed := ?_ }
    · exact counted_of_eq (hsent.eq nofun nofun) (by rw [hphase]; nofun)
    · exact counted_of_eq (hprocessed.eq nofun nofun) (by rw [hphase]; nofun)
  | @sentUpdate s hcomposed hphase hc _ =>
    rw [hcomposed] at hsent hprocessed
    have hn : updates p.written = p.sent := hsent.eq nofun nofun
    refine { hp with composing := hc, sent := ?_, written := ?_, processed := ?_ }
    · intro _
      rw [updates_concat, hn, if_pos hphase]
      rfl
    · refine hp.written.concat ?_
      rw [hn]
      exact hp.keys.writeLayer
    · exact counted_of_eq (hprocessed.eq nofun nofun) (by rw [hphase]; nofun)
  | wrote hidle hphase hc _ hnot _ hsecret =>
    rw [hidle] at hsent hprocessed
    have hn : updates p.written = p.sent := hsent.eq nofun nofun
    refine { hp with composing := hc, sent := ?_, written := ?_, processed := ?_ }
    · refine counted_of_eq ?_ (by rw [hphase]; nofun)
      rw [updates_concat, if_neg hnot, Nat.add_zero, hn]
    · refine hp.written.concat ?_
      rw [hn, hsecret]
      exact hp.keys.writeLayer
    · exact counted_of_eq (hprocessed.eq nofun nofun) (by rw [hphase]; nofun)
  | flushed hunflushed hphase hc _ hupdate =>
    obtain ⟨k', hok, hkeys⟩ := hp.keys.updateKey true
    cases hupdate.symm.trans hok
    rw [hunflushed] at hsent hprocessed
    refine { hp with composing := hc, keys := ?_, sent := ?_, processed := ?_ }
    · rw [Function.iterate_succ_apply']
      exact hkeys
    · exact counted_of_eq (hsent nofun) (by rw [hphase]; nofun)
    · exact counted_of_eq (hprocessed.eq nofun nofun) (by rw [hphase]; nofun)
  | processed hunprocessed hphase hc _ hupdate =>
    obtain ⟨k', hok, hkeys⟩ := hp.keys.updateKey false
    cases hupdate.symm.trans hok
    rw [hunprocessed] at hsent hprocessed
    refine { hp with composing := hc, keys := ?_, sent := ?_, processed := ?_ }
    · rw [Function.iterate_succ_apply']
      exact hkeys
    · exact counted_of_eq (hsent.eq nofun nofun) (by rw [hphase]; nofun)
    · exact counted_of_eq (hprocessed nofun) (by rw [hphase]; nofun)
  | @received s r _ _ hidle hc hphase _ _ =>
    rw [hidle] at hsent hprocessed
    have hn : updates (p.read.map Prod.fst) = p.processed := hprocessed.eq nofun nofun
    refine { hp with composing := hc, sent := ?_, processed := ?_, read := ?_ }
    · refine counted_of_eq (hsent.eq nofun nofun) ?_
      rcases hphase with h | h
      · rw [h]
        nofun
      · rw [h]
        split <;> nofun
    · intro hne
      have hph := hphase.resolve_left hne
      rw [map_append, map_singleton, updates_concat, hn, hph]
      by_cases hr : r.IsUpdate
      · rw [if_pos hr, if_pos hr, if_pos rfl]
      · rw [if_neg hr, if_neg hr, if_neg nofun]
    · refine hp.read.concat ?_
      rw [hn]
      exact hp.keys.readLayer

/-- Each KeyUpdate message was asked for, by the application or by a message that requests it; a
reply requests nothing. -/
structure Accounts (p : Endpoint Md) : Prop where
  asked : p.statem.keyUpdate ≠ .none → p.asked ≠ none
  requested : p.statem.keyUpdate = .requested → p.asked = some .application
  written : updates p.written + (if p.statem.phase = .composed then 1 else 0)
    + (if p.asked ≠ none then 1 else 0) ≤ p.calls + p.requests
  replies : p.replies + (if p.statem.phase = .composed ∧ p.reply = true then 1 else 0)
    + (if p.asked = some .peer then 1 else 0) ≤ p.requests
  calls : QuicTls.requests p.written
    + (if p.statem.phase = .composed ∧ p.initBuf = true then 1 else 0)
    + (if p.asked = some .application then 1 else 0) ≤ p.calls
  requests : p.requests + (if p.statem.phase = .unprocessed ∧ p.initBuf = true then 1 else 0)
    ≤ QuicTls.requests (p.read.map Prod.fst)

/-- A step keeps the accounts of requests and replies. -/
theorem Accounts.step (hp : Accounts p) (he : Effect K next p p') : Accounts p' := by
  obtain ⟨h1, h2, h3, h4, h5, h6⟩ := hp
  cases he with
  | quiet hq =>
    obtain ⟨-, hq1, hq2⟩ := hq
    constructor <;> dsimp only
    all_goals grind
  | asked hphase hc | composed hidle _ hphase hc _ =>
    constructor <;> dsimp only
    all_goals grind
  | @sentUpdate s hcomposed hphase hc _ =>
    constructor <;> dsimp only
    all_goals grind [updates_concat, requests_concat, Record.IsRequest]
  | wrote hidle hphase hc _ hnot _ hsecret =>
    constructor <;> dsimp only
    all_goals grind [updates_concat, requests_concat]
  | flushed hunflushed hphase hc _ hupdate | processed hunprocessed hphase hc _ hupdate =>
    constructor <;> dsimp only
    all_goals grind
  | @received s r _ _ hidle hc hphase _ _ =>
    constructor <;> dsimp only
    all_goals grind [requests_concat, Record.IsUpdate, Record.IsRequest]

theorem Effect.written_prefix (he : Effect K next p p') : p.written <+: p'.written := by
  cases he with
  | sentUpdate | wrote => exact prefix_append ..
  | quiet | asked | composed | flushed | processed | received => exact prefix_rfl

/-- What has been read stays a prefix of what the peer has written. -/
theorem Effect.read_prefix {rs : List Record} (he : Effect K rs[p.read.length]? p p')
    (hp : p.read.map Prod.fst <+: rs) : p'.read.map Prod.fst <+: rs := by
  cases he with
  | received hr =>
    rw [map_append]
    obtain ⟨post, rfl⟩ := hp
    rw [getElem?_append_right (by rw [length_map]), length_map, Nat.sub_self] at hr
    cases post with
    | nil => cases hr
    | cons r' post =>
      cases hr
      exact ⟨post, by rw [append_assoc]; rfl⟩
  | quiet | asked | composed | sentUpdate | wrote | flushed | processed => exact hp

end Endpoint
end QuicTls
