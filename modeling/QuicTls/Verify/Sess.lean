import Mathlib.Data.List.Induction
import Mathlib.Data.List.Nodup
import Mathlib.Data.List.Perm.Subperm
import QuicTls.Ssl.Sess
import QuicTls.Theory.Run

/-!
# The capacity of the session cache

A session is put into the hash table before room is made for it, so the loop leaves `N - 2` of the
others in a cache of `N` sessions. The cache is never used up unless it has only one place
(`session_cache_capacity_iff`).
-/

namespace QuicTls.Sess

open List Run

variable {ctx : SslCtx} {c t : SslSession} {S L : List SslSession} {N now : Nat} {u : Bool}

/-- Both tables hold the same sessions, which have different identifiers. -/
structure Inv (ctx : SslCtx) : Prop where
  perm : ctx.sessions ~ ctx.cache
  nodup : (ctx.cache.map (·.sessionId)).Nodup
  ids : ∀ s ∈ ctx.cache, s.sessionId ≠ []

theorem find?_key (h : (S.map (·.sessionId)).Nodup) (ht : t ∈ S) :
    S.find? (·.key = t.key) = some t := by
  have hsome : (S.find? (·.key = t.key)).isSome := by simpa using ⟨t, ht, rfl⟩
  obtain ⟨r, hr⟩ := Option.isSome_iff_exists.1 hsome
  have hkey : r.key = t.key := by simpa using find?_some hr
  rw [hr, inj_on_of_nodup_map h (mem_of_find?_eq_some hr) ht (congrArg Prod.snd hkey)]

theorem erase_concat (h : t ∉ L) : (L ++ [t]).erase t = L := by
  rw [erase_append_right _ h]
  simp

/-- **The loop leaves two places**, one of which is for the session that is being added. -/
theorem makeRoom_spec {n : Nat} (hn : L.length ≤ n) (hperm : S ~ c :: L)
    (hnodup : ((c :: L).map (·.sessionId)).Nodup) (hids : ∀ s ∈ L, s.sessionId ≠ []) :
    ∃ S', makeRoom n ⟨S, L, N, u⟩ = ⟨S', L.take (N - 2), N, u⟩ ∧ S' ~ c :: L.take (N - 2) := by
  induction L using reverseRecOn generalizing S n with
  | nil =>
    refine ⟨S, ?_, by simpa using hperm⟩
    cases n <;> simp [makeRoom, removeSession]
  | append_singleton L t ih =>
    have hlen := hperm.length_eq
    simp only [length_cons, length_append, length_nil] at hlen hn
    obtain _ | n := n
    · omega
    rw [makeRoom]
    split_ifs with hroom
    · have htake : (L ++ [t]).take (N - 2) = L ++ [t] :=
        take_of_length_le (by simp at hroom ⊢; omega)
      exact ⟨S, by rw [htake], by rwa [htake]⟩
    have htake : (L ++ [t]).take (N - 2) = L.take (N - 2) :=
      take_append_of_le_length (by simp at hroom; omega)
    have hmem : t ∈ L ++ [t] := mem_append_right _ mem_cons_self
    have hfind := find?_key ((hperm.map _).nodup_iff.2 hnodup)
      (hperm.mem_iff.2 (mem_cons_of_mem _ hmem))
    have hnot : t ∉ c :: L := by
      have hall := Nodup.of_map _ hnodup
      rw [← cons_append, nodup_append] at hall
      exact fun h => hall.2.2 t h t mem_cons_self rfl
    have hlast : (L ++ [t]).erase t = L := erase_concat (mt (mem_cons_of_mem c) hnot)
    have hremove : removeSession ⟨S, L ++ [t], N, u⟩ (L ++ [t]).getLast? =
        some ⟨S.erase t, L, N, u⟩ := by
      simp [removeSession, hids t hmem, hfind, hlast]
    rw [hremove, htake]
    refine ih (by omega) ?_ ?_ fun s hs => hids s (mem_append_left _ hs)
    · have herase := hperm.erase t
      rwa [← cons_append, erase_concat hnot] at herase
    · exact hnodup.sublist (((sublist_append_left L [t]).cons_cons c).map _)

theorem insertBetween_perm (h : ∃ x ∈ L, x.calcTimeout ≤ c.calcTimeout) :
    insertBetween c L ~ c :: L := by
  induction L with
  | nil => simp at h
  | cons x L ih =>
    rw [insertBetween]
    split
    · exact .rfl
    · rename_i hlt
      exact ((ih (by simpa [hlt] using h)).cons x).trans (.swap ..)

theorem listAdd_perm (hc : c ∉ L) : listAdd c L ~ c :: L := by
  rw [listAdd, erase_of_not_mem hc]
  cases L with
  | nil => exact .rfl
  | cons head rest =>
    dsimp only
    split
    · exact .rfl
    split
    · exact perm_append_singleton ..
    rename_i hhead hlast
    have hrest : ∃ x ∈ rest, x.calcTimeout ≤ c.calcTimeout := by
      cases rest with
      | nil => exact absurd (not_lt.1 hlast) hhead
      | cons x rest => exact ⟨_, getLast_mem (cons_ne_nil x rest), not_lt.1 hlast⟩
    exact ((insertBetween_perm hrest).cons head).trans (.swap ..)

theorem sessionId_touched : (touched ctx now c).sessionId = c.sessionId := by
  rw [touched]
  split <;> rfl

/-- A session with a new identifier is added to those that the loop leaves. -/
theorem Inv.add (h : Inv ctx) (hN : 0 < ctx.sessionCacheSize) (hc : c.sessionId ≠ [])
    (hnew : ((touched ctx now c :: ctx.cache).map (·.sessionId)).Nodup) :
    Inv (sslCtxAddSession ctx now c).1 ∧
      (sslCtxAddSession ctx now c).1.sessionCacheSize = ctx.sessionCacheSize ∧
      (sslCtxAddSession ctx now c).1.sessions ~
        touched ctx now c :: ctx.cache.take (ctx.sessionCacheSize - 2) := by
  have hkeys : ∀ s ∈ ctx.sessions, s.key ≠ c.key := by
    intro s hs hkey
    have hid : s.sessionId = c.sessionId := congrArg Prod.snd hkey
    rw [map_cons, sessionId_touched, nodup_cons, ← hid] at hnew
    exact hnew.1 (mem_map_of_mem (h.perm.mem_iff.1 hs))
  have hfind : ctx.sessions.find? (·.key = c.key) = none := by simpa using hkeys
  have hfilter : ctx.sessions.filter (·.key ≠ c.key) = ctx.sessions := by simpa using hkeys
  obtain ⟨S, hroom, hS⟩ := @makeRoom_spec (touched ctx now c) (touched ctx now c :: ctx.sessions)
    ctx.cache ctx.sessionCacheSize ctx.updateTime (ctx.sessions.length + 1)
    (by rw [h.perm.length_eq]; omega) (h.perm.cons _) hnew h.ids
  have hresult : (sslCtxAddSession ctx now c).1 = ⟨S, listAdd (touched ctx now c)
      (ctx.cache.take (ctx.sessionCacheSize - 2)), ctx.sessionCacheSize, ctx.updateTime⟩ := by
    simp only [sslCtxAddSession, hfind, hfilter, reduceCtorEq, if_false, Option.elim_none,
      if_pos hN, length_cons, hroom]
  have hsub := (take_sublist (ctx.sessionCacheSize - 2) ctx.cache).cons_cons (touched ctx now c)
  have hnodup := hnew.sublist (hsub.map _)
  have hlist := listAdd_perm (nodup_cons.1 (Nodup.of_map _ hnodup)).1
  rw [hresult]
  refine ⟨⟨hS.trans hlist.symm, (hlist.map _).nodup_iff.2 hnodup, fun s hs => ?_⟩, rfl, hS⟩
  rcases mem_cons.1 (hsub.subset (hlist.mem_iff.1 hs)) with rfl | hs
  · rwa [sessionId_touched]
  · exact h.ids s hs

/-- What a call should do to the cached sessions. -/
structure Obeys (N : Nat) (before : List SslSession) (c : SslSession) (after : List SslSession) :
    Prop where
  size : after.length ≤ N
  full : ∀ s ∈ before, s ∉ after → N < before.length + 1
  earliest : ∀ s ∈ before, s ∉ after → ∀ t ∈ before, s.calcTimeout ≤ t.calcTimeout
  added : c ∈ after

/-- One call obeys the limit when it is one or not yet reached. -/
theorem obeys_iff (hN : 0 < N) (hlen : L.length ≤ N - 2 + 1) (hnodup : (c :: L).Nodup)
    (hS : S ~ L) {after : List SslSession} (hafter : after ~ c :: L.take (N - 2)) :
    Obeys N S c after ↔ N = 1 ∨ L.length + 1 < N := by
  have hcard := hS.length_eq
  have hadded : c ∈ after := hafter.mem_iff.2 mem_cons_self
  constructor
  · intro h
    by_contra hcap
    have hkept : ∀ s ∈ S, s ∈ after := by
      intro s hs
      by_contra hout
      have := h.full s hs hout
      omega
    have hcS : (c :: S).Nodup := (hS.cons c).nodup_iff.2 hnodup
    have hle := (subperm_of_subset hcS (forall_mem_cons.2 ⟨hadded, hkept⟩)).length_le
    rw [hafter.length_eq, length_cons, length_cons, length_take] at hle
    omega
  · rintro (rfl | hroom)
    · refine ⟨by simp [hafter.length_eq], fun s hs _ => ?_, fun s hs _ t ht => ?_, hadded⟩
      · have := length_pos_of_mem hs
        omega
      · have hone : S.length = 1 := by
          have := length_pos_of_mem hs
          omega
        obtain ⟨x, rfl⟩ := length_eq_one_iff.1 hone
        rw [mem_singleton.1 hs, mem_singleton.1 ht]
    · rw [take_of_length_le (by omega)] at hafter
      have hkept : ∀ s ∈ S, s ∈ after := fun s hs =>
        hafter.mem_iff.2 (mem_cons_of_mem _ (hS.mem_iff.1 hs))
      refine ⟨?_, fun s hs hout => absurd (hkept s hs) hout,
        fun s hs hout => absurd (hkept s hs) hout, hadded⟩
      rw [hafter.length_eq, length_cons]
      omega

/-- A call of `SSL_CTX_add_session`, with its time. -/
def addCall (ctx : SslCtx) (x : Nat × SslSession) : SslCtx × Bool := sslCtxAddSession ctx x.1 x.2

/-- The call does to the cached sessions what it should. -/
def CallObeys (ctx : SslCtx) (x : Nat × SslSession) : Prop :=
  Obeys ctx.sessionCacheSize ctx.sessions (touched ctx x.1 x.2) (addCall ctx x).1.sessions

/-- All calls of a run obey the limit. -/
theorem Inv.along_iff (h : Inv ctx) (hN : 0 < ctx.sessionCacheSize)
    (hlen : ctx.cache.length ≤ ctx.sessionCacheSize - 2 + 1) {calls : List (Nat × SslSession)}
    (hids : (ctx.cache.map (·.sessionId) ++ calls.map (·.2.sessionId)).Nodup)
    (hne : ∀ x ∈ calls, x.2.sessionId ≠ []) :
    Along addCall CallObeys ctx calls ↔
      ctx.sessionCacheSize = 1 ∨ ctx.cache.length + calls.length < ctx.sessionCacheSize := by
  induction calls generalizing ctx with
  | nil =>
    refine ⟨fun _ => ?_, fun _ => trivial⟩
    rw [length_nil]
    omega
  | cons x calls ih =>
    have hall := perm_middle.nodup_iff.1 hids
    have hnew : ((touched ctx x.1 x.2 :: ctx.cache).map (·.sessionId)).Nodup := by
      rw [map_cons, sessionId_touched]
      exact hall.sublist ((sublist_append_left ..).cons_cons _)
    obtain ⟨hinv, hsize, hafter⟩ := h.add hN (hne x mem_cons_self) hnew
    have hcache := hinv.perm.symm.trans hafter
    have hcount := hcache.length_eq
    rw [length_cons, length_take] at hcount
    have hobeys : CallObeys ctx x ↔ _ := obeys_iff hN hlen (Nodup.of_map _ hnew) h.perm hafter
    have hrest := @ih (addCall ctx x).1 hinv (hsize.symm ▸ hN) (by rw [addCall]; omega) ?_
      fun y hy => hne y (mem_cons_of_mem _ hy)
    · rw [Along, hobeys, hrest, addCall, length_cons]
      omega
    · refine (((hcache.map _).append_right _).nodup_iff.2 ?_)
      rw [map_cons, sessionId_touched]
      exact hall.sublist ((((take_sublist ..).map _).append_right _).cons_cons _)

/-- **The cache uses its capacity**, in a run that adds sessions with different identifiers to an
empty cache, if and only if it has one place or is never full. -/
theorem session_cache_capacity_iff (hN : 1 ≤ N) (u : Bool) (calls : List (Nat × SslSession))
    (hids : (calls.map (·.2.sessionId)).Nodup) (hne : ∀ x ∈ calls, x.2.sessionId ≠ []) :
    Along addCall CallObeys ⟨[], [], N, u⟩ calls ↔ N = 1 ∨ calls.length < N := by
  have hinv : Inv ⟨[], [], N, u⟩ := ⟨.rfl, nodup_nil, by simp⟩
  simpa using hinv.along_iff hN (Nat.zero_le _) (by simpa using hids) hne

/-- A session of an hour, with an identifier of one byte. -/
def hourSession (id : UInt8) : SslSession := ⟨0x0303, [id], 0, 3600, 3600⟩

/-- With one place every session drives out the one before it, as it should. With three places two
sessions stay, and the third one drives one of them out although there is a place for it. -/
theorem session_cache_capacity_iff_three_calls :
    let calls := [(7, hourSession 1), (9, hourSession 3), (8, hourSession 2)]
    Along addCall CallObeys ⟨[], [], 1, true⟩ calls ∧
      Along addCall CallObeys ⟨[], [], 3, true⟩ (calls.take 2) ∧
      ¬Along addCall CallObeys ⟨[], [], 3, false⟩ calls := by
  intro calls
  have hids : (calls.map (·.2.sessionId)).Nodup := by decide
  have hne : ∀ x ∈ calls, x.2.sessionId ≠ [] := by decide
  refine ⟨(session_cache_capacity_iff (by decide) true calls hids hne).2 (.inl rfl), ?_, ?_⟩
  · exact (session_cache_capacity_iff (by decide) true (calls.take 2) (by decide) (by decide)).2
      (.inr (by decide))
  · rw [session_cache_capacity_iff (by decide) false calls hids hne]
    decide

/-- The second session of a cache with two places drives out the first. -/
theorem session_cache_drops_first :
    ¬Along addCall CallObeys ⟨[], [], 2, true⟩ [(7, hourSession 1), (8, hourSession 2)] := by
  intro h
  have hfull := h.2.1.full ⟨0x0303, [1], 7, 3600, 3607⟩ (by decide) (by decide)
  exact absurd hfull (by decide)

end QuicTls.Sess
