import Mathlib.Algebra.Order.Ring.Int
import QuicTls.Ssl.Types

/-!
# The session cache (ssl/ssl_sess.c)

The hash table `sessions` is the list of its elements, in no particular order, and `cache` is the
list from `session_cache_head` to `session_cache_tail`. Sessions are told apart by their fields.
Allocations succeed; locks, reference counts, statistics, `remove_session_cb` and the field
`not_resumable` of a removed session are left out.
-/

namespace QuicTls.Sess

structure SslSession where
  sslVersion : Nat
  sessionId : Bytes
  time : Nat
  timeout : Nat
  calcTimeout : Nat
  deriving DecidableEq, Repr

/-- What `ssl_session_cmp` compares. -/
def SslSession.key (s : SslSession) : Nat × Bytes := (s.sslVersion, s.sessionId)

structure SslCtx where
  sessions : List SslSession
  cache : List SslSession
  sessionCacheSize : Nat
  /-- `SSL_SESS_CACHE_UPDATE_TIME` -/
  updateTime : Bool
  deriving Repr

/-- `ossl_time_add`, which ends at `ossl_time_infinite` -/
def timeAdd (a b : Nat) : Nat := min (a + b) (2 ^ 64 - 1)

def sslSessionCalculateTimeout (s : SslSession) : SslSession :=
  { s with calcTimeout := timeAdd s.time s.timeout }

/-- `remove_session_lock`, none for 0 -/
def removeSession (ctx : SslCtx) : Option SslSession → Option SslCtx
  | none => none
  | some c =>
    if c.sessionId.length = 0 then none
    else
      match ctx.sessions.find? (·.key = c.key) with
      | none => none
      | some r => some { ctx with sessions := ctx.sessions.erase r, cache := ctx.cache.erase r }

/-- The search of `SSL_SESSION_list_add` behind the head. -/
def insertBetween (s : SslSession) : List SslSession → List SslSession
  | [] => []
  | next :: rest =>
    if next.calcTimeout ≤ s.calcTimeout then s :: next :: rest else next :: insertBetween s rest

/-- `SSL_SESSION_list_add` -/
def listAdd (s : SslSession) (cache : List SslSession) : List SslSession :=
  match cache.erase s with
  | [] => [s]
  | head :: rest =>
    if head.calcTimeout ≤ s.calcTimeout then s :: head :: rest
    else if s.calcTimeout < (rest.getLastD head).calcTimeout then head :: rest ++ [s]
    else head :: insertBetween s rest

/-- The loop that makes room in the cache. Every turn removes a session, so that as many turns as
there are sessions are enough. -/
def makeRoom : Nat → SslCtx → SslCtx
  | 0, ctx => ctx
  | n + 1, ctx =>
    if ctx.sessions.length < ctx.sessionCacheSize then ctx
    else
      match removeSession ctx ctx.cache.getLast? with
      | none => ctx
      | some ctx => makeRoom n ctx

/-- The session that `SSL_CTX_add_session` leaves in the cache, with the time of the call. -/
def touched (ctx : SslCtx) (now : Nat) (c : SslSession) : SslSession :=
  if ctx.updateTime then sslSessionCalculateTimeout { c with time := now } else c

/-- `SSL_CTX_add_session` at a time. The tables hold pointers, so that the session is in them with
the time that is set. -/
def sslCtxAddSession (ctx : SslCtx) (now : Nat) (c : SslSession) : SslCtx × Bool :=
  let s := ctx.sessions.find? (·.key = c.key)
  let c' := touched ctx now c
  let sessions := c' :: ctx.sessions.filter (·.key ≠ c.key)
  if s = some c then
    ({ ctx with sessions := sessions, cache := listAdd c' (ctx.cache.erase c) }, false)
  else
    let ctx := { ctx with sessions := sessions, cache := s.elim ctx.cache ctx.cache.erase }
    let ctx := if 0 < ctx.sessionCacheSize then makeRoom ctx.sessions.length ctx else ctx
    ({ ctx with cache := listAdd c' ctx.cache }, true)

end QuicTls.Sess
