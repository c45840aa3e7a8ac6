import Totem.Lib.Dict
import Totem.Lib.Run
import Mathlib.Algebra.Order.Ring.Rat
import Mathlib.Logic.Function.Basic

/-!
# Totem.Tenancy.Pools — the connection pools of one process

The threads of a process look connections up, take sessions from the pool of their database and give them back,
while pools are evicted, databases are forgotten, and migrations run under a `lock_timeout` of their own.  Only
the loop of `evict_idle_pools` and the second half of `forget_database` hold the lock: between any two steps of a
lookup, of the loop or of a connection, other threads do theirs.

* `Process.step`: one thing that a thread does; the pools and what they answer are those of the driver.
* `Inv`: where the sessions are; `Points`: what the threads in the middle of something know; `inv_step`, `inv_run`.
* `lock_timeout_confined`: the `lock_timeout` of a migration does not stay in a pool.
-/

namespace Totem.Tenancy.Pools

open Totem.Lib

/-! ## The state of a process -/

/-- Who closed a pool. -/
inductive Closer
  | evicted
  | forgotten
  deriving DecidableEq

/-- Where a session is; of one that is taken, the thread and the alias of the connection that has it. -/
inductive Place (T : Type*)
  | unopened
  | idle (pool : ℕ)
  | taken (pool : ℕ) (thread : T) (dbAlias : String)
  | closed
  deriving DecidableEq

/-- How far a thread is in `_migrate` or in `forget_database`. -/
inductive Phase
  | idle
  /-- From `_set_lock_timeout` on. -/
  | migrating (dbAlias : String)
  /-- The connection of the thread is closed, the pool is not yet. -/
  | forgetting (dbAlias : String)
  deriving DecidableEq

/-- Where a thread is in `__getitem__`, from the reading of the clock on, or in the making of a connection. -/
inductive Point
  | free
  /-- `_touch` has the time, and is about to write it. -/
  | touches (dbAlias : String) (now : ℚ)
  /-- It is about to compare it with that of the last look at the pools. -/
  | compares (now : ℚ)
  | renews (now : ℚ)
  /-- `evict_idle_pools` is about to take the lock. -/
  | awaits (now : ℚ)
  /-- It has the lock, and the loop is to come to these pools. -/
  | evicts (now : ℚ) (pools : List (String × ℕ))
  /-- The loop is about to read the statistics of the pool. -/
  | measures (now : ℚ) (dbAlias : String) (pool : ℕ) (pools : List (String × ℕ))
  /-- It is about to close the pool. -/
  | closes (now : ℚ) (dbAlias : String) (pool : ℕ) (pools : List (String × ℕ))
  /-- `get_new_connection` has the pool, and no session yet. -/
  | connects (dbAlias : String) (pool : ℕ)
  deriving DecidableEq

/-- What happened to the pools and the sessions. -/
inductive Entry
  /-- A time was written for the alias. -/
  | used (dbAlias : String) (now : ℚ)
  /-- A look at this time found the time of the alias old enough. -/
  | idle (dbAlias : String) (pool : ℕ) (now : ℚ)
  /-- The statistics of the pool said that no session of it is taken. -/
  | unborrowed (pool : ℕ)
  | evicted (dbAlias : String) (pool : ℕ) (now : ℚ)
  | taken (session pool : ℕ)
  deriving DecidableEq

structure Process (T : Type*) where
  /-- `DatabaseWrapper._connection_pools`. -/
  connectionPools : Dict String ℕ
  /-- The alias each pool was made for, and who closed it. -/
  poolAlias : ℕ → String
  closed : ℕ → Option Closer
  nextPool : ℕ
  place : ℕ → Place T
  nextSession : ℕ
  /-- The `lock_timeout` of the session is not the one of the server. -/
  lockTimeout : ℕ → Bool
  /-- The server has ended the session. -/
  terminated : ℕ → Bool
  /-- The connections of each thread, with the session each has. -/
  connections : T → String → Option (Option ℕ)
  phase : T → Phase
  point : T → Point
  /-- The thread that is in the loop of `evict_idle_pools`. -/
  lock : Option T
  lastUsed : Dict String ℚ
  lastEvictionCheck : ℚ
  clock : ℚ
  /-- When the time of an alias was written. -/
  usedAt : String → ℚ
  /-- When a pool was made, got a session back, or was seen to open one. -/
  freed : ℕ → ℚ
  log : List Entry

/-- `EVICTION_CHECK_INTERVAL`. -/
def evictionCheckInterval : ℚ := 60

namespace Process

variable {T : Type*} [DecidableEq T] (evictAfter : ℚ)

/-- `pool_size - pool_available`, the sessions of a pool that are taken. -/
def borrowed (s : Process T) (p : ℕ) : ℕ :=
  (List.range s.nextSession).countP fun id =>
    match s.place id with
    | .taken q _ _ => decide (q = p)
    | _ => false

/-- `pool.close()`: the sessions in it are closed. -/
def closePool (s : Process T) (p : ℕ) (closer : Closer) : Process T :=
  { s with closed := Function.update s.closed p (some closer)
           place := fun id => if s.place id = .idle p then .closed else s.place id }

def setConnection (s : Process T) (t : T) (dbAlias : String) (session : Option (Option ℕ)) : Process T :=
  { s with connections := Function.update s.connections t (Function.update (s.connections t) dbAlias session) }

def setPoint (s : Process T) (t : T) (x : Point) : Process T := { s with point := Function.update s.point t x }

/-- `__getitem__`, of an alias that is resolved and in the settings, up to the reading of the clock. -/
def getItem (s : Process T) (t : T) (dbAlias : String) (now : ℚ) : Process T :=
  ({ s with clock := now }.setConnection t dbAlias (some ((s.connections t dbAlias).getD none))).setPoint t
    (.touches dbAlias now)

/-- The next step of `_touch` or of `evict_idle_pools`. -/
def advance (s : Process T) (t : T) : Option (Process T) :=
  match s.point t with
  | .touches dbAlias now =>
    some ({ s with
      lastUsed := s.lastUsed.set dbAlias now
      usedAt := Function.update s.usedAt dbAlias s.clock
      log := .used dbAlias now :: s.log }.setPoint t (.compares now))
  | .compares now =>
    some (s.setPoint t (if evictionCheckInterval ≤ now - s.lastEvictionCheck then .renews now else .free))
  | .renews now => some ({ s with lastEvictionCheck := now }.setPoint t (.awaits now))
  | .awaits now =>
    if s.lock = none then some ({ s with lock := some t }.setPoint t (.evicts now s.connectionPools.entries)) else none
  | .evicts _ [] => some ({ s with lock := none }.setPoint t .free)
  | .evicts now (entry :: pools) =>
    if now - (s.lastUsed.get entry.1).getD now < evictAfter then some (s.setPoint t (.evicts now pools))
    else some ({ s with log := .idle entry.1 entry.2 now :: s.log }.setPoint t (.measures now entry.1 entry.2 pools))
  | .closes now dbAlias p pools =>
    -- a thread that finds the pool when it is closed, and not removed yet, might as well have found it before
    some ({ s.closePool p .evicted with
      connectionPools := s.connectionPools.pop dbAlias
      log := .evicted dbAlias p now :: s.log }.setPoint t (.evicts now pools))
  | _ => none

/-- `pool.get_stats()`, in the loop: a session that is being opened is one that is not available, too. -/
def stats (s : Process T) (t : T) (opening : Bool) : Option (Process T) :=
  match s.point t with
  | .measures now dbAlias p pools =>
    if opening then some ({ s with freed := Function.update s.freed p s.clock }.setPoint t (.evicts now pools))
    else if 0 < s.borrowed p then some (s.setPoint t (.evicts now pools))
    else some ({ s with log := .unborrowed p :: s.log }.setPoint t (.closes now dbAlias p pools))
  | _ => none

/-- `DatabaseWrapper.pool`, made on its first use. -/
def pool (s : Process T) (dbAlias : String) : Process T × ℕ :=
  match s.connectionPools.get dbAlias with
  | some p => (s, p)
  | none =>
    ({ s with connectionPools := s.connectionPools.set dbAlias s.nextPool
              poolAlias := Function.update s.poolAlias s.nextPool dbAlias
              nextPool := s.nextPool + 1
              freed := Function.update s.freed s.nextPool s.clock }, s.nextPool)

def setPlace (s : Process T) (id : ℕ) (x : Place T) : Process T := { s with place := Function.update s.place id x }

/-- The connection has the session. -/
def take (s : Process T) (t : T) (dbAlias : String) (p id : ℕ) : Process T :=
  ({ s with log := .taken id p :: s.log }.setPlace id (.taken p t dbAlias)).setConnection t dbAlias (some (some id))

/-- What `pool.getconn()` answers. -/
inductive Answer
  | idle (id : ℕ)
  | fresh
  | failed
  deriving DecidableEq

/-- The first query of a connection without a session: its pool. -/
def getPool (s : Process T) (t : T) (dbAlias : String) : Option (Process T) :=
  if s.connections t dbAlias = some none then
    some ((s.pool dbAlias).1.setPoint t (.connects dbAlias (s.pool dbAlias).2))
  else none

/-- `pool.getconn()`: a pool that is closed has no session. -/
def getconn (s : Process T) (t : T) (answer : Answer) : Option (Process T) :=
  match s.point t with
  | .connects dbAlias p =>
    match answer with
    | .idle id =>
      -- a session that is handed out was checked
      if s.place id = .idle p ∧ s.terminated id = false then some ((s.take t dbAlias p id).setPoint t .free) else none
    | .fresh =>
      if s.closed p = none then
        some (({ s with nextSession := s.nextSession + 1 }.take t dbAlias p s.nextSession).setPoint t .free)
      else none
    | .failed => some (s.setPoint t .free)
  | _ => none

/-- `pool.putconn`: a pool that is closed, or a session that was ended, closes the session. -/
def putBack (s : Process T) (p id : ℕ) : Process T :=
  { s.setPlace id (if s.closed p = none ∧ s.terminated id = false then .idle p else .closed) with
    freed := Function.update s.freed p s.clock }

/-- `conn.close()`. -/
def close (s : Process T) (t : T) (dbAlias : String) : Process T :=
  match s.connections t dbAlias with
  | some (some id) =>
    match s.place id with
    | .taken p _ _ => (s.putBack p id).setConnection t dbAlias (some none)
    | _ => s.setConnection t dbAlias (some none)
  | _ => s

def setPhase (s : Process T) (t : T) (phase : Phase) : Process T :=
  { s with phase := Function.update s.phase t phase }

/-- `forget_database`, up to its lock: the connection of this thread. -/
def forget (s : Process T) (t : T) (dbAlias : String) : Process T :=
  ((s.close t dbAlias).setConnection t dbAlias none).setPhase t (.forgetting dbAlias)

/-- `forget_database`, under its lock: the pool.  A session that is taken from it after it is found, and before it is
closed, might as well be taken before. -/
def forgetPool (s : Process T) (dbAlias : String) : Process T :=
  let s := match s.connectionPools.get dbAlias with
    | some p => s.closePool p .forgotten
    | none => s
  { s with connectionPools := s.connectionPools.pop dbAlias, lastUsed := s.lastUsed.pop dbAlias }

/-- The `lock_timeout` of the session of the connection; `none` when the statement cannot run. -/
def setConfig (s : Process T) (t : T) (dbAlias : String) (value : Bool) : Option (Process T) :=
  match s.connections t dbAlias with
  | some (some id) =>
    if s.terminated id = true then none
    else some { s with lockTimeout := Function.update s.lockTimeout id value }
  | _ => none

end Process

/-- What a thread begins. -/
inductive Action
  | getItem (dbAlias : String) (now : ℚ)
  | getPool (dbAlias : String)
  | close (dbAlias : String)
  | forget (dbAlias : String)
  | forgetPool
  /-- `_set_lock_timeout`, which the server may refuse. -/
  | setLockTimeout (dbAlias : String) (refused : Bool)
  /-- `_reset_lock_timeout`, which the server may refuse. -/
  | resetLockTimeout (refused : Bool)

/-- What a thread does, or the server. -/
inductive Event (T : Type*)
  | acts (t : T) (action : Action)
  | advance (t : T)
  | stats (t : T) (opening : Bool)
  | getconn (t : T) (answer : Process.Answer)
  /-- The server ends a session. -/
  | terminate (id : ℕ)

namespace Process

variable {T : Type*} [DecidableEq T] (evictAfter : ℚ)

/-- A thread that migrates keeps its connection to the end. -/
def act (s : Process T) (t : T) : Action → Option (Process T)
  | .getItem dbAlias now => if s.clock ≤ now then some (s.getItem t dbAlias now) else none
  | .getPool dbAlias => s.getPool t dbAlias
  | .close dbAlias => if s.phase t = .migrating dbAlias then none else some (s.close t dbAlias)
  | .forget dbAlias => if s.phase t = .idle then some (s.forget t dbAlias) else none
  | .forgetPool =>
    match s.phase t with
    | .forgetting dbAlias => if s.lock = none then some ((s.forgetPool dbAlias).setPhase t .idle) else none
    | _ => none
  | .setLockTimeout dbAlias refused =>
    if s.phase t = .idle then
      some (((if refused then none else s.setConfig t dbAlias true).getD s).setPhase t (.migrating dbAlias))
    else none
  | .resetLockTimeout refused =>
    match s.phase t with
    | .migrating dbAlias =>
      match if refused then none else s.setConfig t dbAlias false with
      | some s => some (s.setPhase t .idle)
      | none => some (s.forget t dbAlias)
    | _ => none

/-- One event.  A thread that is in the middle of something begins nothing else. -/
def step (s : Process T) : Event T → Option (Process T)
  | .acts t action => if s.point t = .free then s.act t action else none
  | .advance t => s.advance evictAfter t
  | .stats t opening => s.stats t opening
  | .getconn t answer => s.getconn t answer
  | .terminate id => some { s with terminated := Function.update s.terminated id true }

/-- A process that has not used a database yet. -/
def start (clock : ℚ) : Process T where
  connectionPools := .empty
  poolAlias _ := ""
  closed _ := none
  nextPool := 0
  place _ := .unopened
  nextSession := 0
  lockTimeout _ := false
  terminated _ := false
  connections _ _ := none
  phase _ := .idle
  point _ := .free
  lock := none
  lastUsed := .empty
  lastEvictionCheck := clock
  clock := clock
  usedAt _ := clock
  freed _ := clock
  log := []

end Process

/-! ## Where the sessions are -/

section Sessions

variable {T : Type*} [DecidableEq T] {evictAfter now : ℚ} {s s' : Process T} {t t' : T} {a a' : String} {p q id : ℕ}

/-- A pool that is open is the one of its alias; a session that is taken is the one of its connection; and a session
with the `lock_timeout` of a migration is that of the migration, or its pool is closed, or about to be. -/
structure Inv (s : Process T) : Prop where
  registered : ∀ a p, s.connectionPools.get a = some p → p < s.nextPool ∧ s.poolAlias p = a ∧ s.closed p = none
  opened : ∀ p, p < s.nextPool → s.closed p = none → s.connectionPools.get (s.poolAlias p) = some p
  unmade : ∀ p, s.nextPool ≤ p → s.closed p = none
  idle : ∀ id p, s.place id = .idle p → p < s.nextPool ∧ s.closed p = none ∧ id < s.nextSession
  taken : ∀ id p t a, s.place id = .taken p t a →
    p < s.nextPool ∧ s.poolAlias p = a ∧ s.connections t a = some (some id) ∧ id < s.nextSession
  held : ∀ id t a, s.connections t a = some (some id) → ∃ p, s.place id = .taken p t a
  unset : ∀ id, s.nextSession ≤ id → s.lockTimeout id = false
  setIdle : ∀ id p, s.lockTimeout id = true → s.place id = .idle p → ∃ t, s.phase t = .forgetting (s.poolAlias p)
  setTaken : ∀ id p t a, s.lockTimeout id = true → s.place id = .taken p t a →
    s.phase t = .migrating a ∨ s.closed p ≠ none ∨ ∃ t', s.phase t' = .forgetting a

namespace Process

theorem connections_setConnection (x : Option (Option ℕ)) : (s.setConnection t a x).connections t' a' =
    if t' = t ∧ a' = a then x else s.connections t' a' := by
  unfold setConnection
  by_cases ht : t' = t
  · subst ht
    by_cases ha : a' = a
    · subst ha
      simp
    · simp [ha]
  · simp [ht]

omit [DecidableEq T] in
theorem place_setPlace (x : Place T) (id' : ℕ) :
    (s.setPlace id x).place id' = if id' = id then x else s.place id' := by
  unfold setPlace
  by_cases h : id' = id
  · subst h
    simp
  · simp [h]

end Process

omit [DecidableEq T] in
theorem inv_start (clock : ℚ) : Inv (Process.start clock : Process T) where
  registered _ _ h := by cases h
  opened _ h _ := absurd h (Nat.not_lt_zero _)
  unmade _ _ := rfl
  idle _ _ h := by cases h
  taken _ _ _ _ h := by cases h
  held _ _ _ h := by cases h
  unset _ _ := rfl
  setIdle _ _ h _ := by cases h
  setTaken _ _ _ _ h _ := by cases h

omit [DecidableEq T] in
/-- A session that is taken is so from one pool, by one connection. -/
theorem Inv.place_of_connection (h : Inv s) (hc : s.connections t a = some (some id)) :
    ∃ p, s.place id = .taken p t a ∧ s.poolAlias p = a ∧ p < s.nextPool := by
  obtain ⟨p, hp⟩ := h.held id t a hc
  exact ⟨p, hp, (h.taken id p t a hp).2.1, (h.taken id p t a hp).1⟩

/-- A connection that is looked up. -/
theorem Inv.lookedUp (h : Inv s) : Inv (s.setConnection t a (some ((s.connections t a).getD none))) := by
  have hsame : ∀ t' a' id, (s.setConnection t a (some ((s.connections t a).getD none))).connections t' a' =
      some (some id) ↔ s.connections t' a' = some (some id) := by
    intro t' a' id
    rw [Process.connections_setConnection]
    split_ifs with heq
    · obtain ⟨rfl, rfl⟩ := heq
      cases hc : s.connections t' a' <;> simp
    · rfl
  exact ⟨h.registered, h.opened, h.unmade, h.idle,
    fun id p t' a' hp => by rw [hsame]; exact h.taken id p t' a' hp,
    fun id t' a' hc => h.held id t' a' ((hsame t' a' id).mp hc), h.unset, h.setIdle, h.setTaken⟩

theorem place_closePool_taken (closer : Closer) :
    (s.closePool p closer).place id = .taken q t a ↔ s.place id = .taken q t a := by
  show (if s.place id = .idle p then Place.closed else s.place id) = .taken q t a ↔ _
  split_ifs with heq
  · simp [heq]
  · rfl

/-- The pool of an alias is closed, and its alias goes. -/
theorem Inv.closes (h : Inv s) (hp : s.connectionPools.get a = some p) (closer : Closer) :
    Inv { s.closePool p closer with connectionPools := s.connectionPools.pop a } := by
  obtain ⟨hlt, halias, hopen⟩ := h.registered a p hp
  have hidle : ∀ id q, (s.closePool p closer).place id = .idle q ↔ s.place id = .idle q ∧ q ≠ p := by
    intro id q
    show (if s.place id = .idle p then Place.closed else s.place id) = .idle q ↔ _
    split_ifs with heq
    · simp only [heq, Place.idle.injEq, false_iff, not_and, not_not]
      exact Eq.symm
    · constructor
      · exact fun hq => ⟨hq, fun hqp => heq (hqp ▸ hq)⟩
      · exact And.left
  have hclosed : ∀ q, q ≠ p → (s.closePool p closer).closed q = s.closed q := fun q hq => Function.update_of_ne hq ..
  refine ⟨fun a' q hq => ?_, fun q hq hq' => ?_, fun q hq => ?_, fun id q hid => ?_, fun id q t a' hid => ?_,
    fun id t a' hc => ?_, h.unset, fun id q hset hid => ?_, fun id q t a' hset hid => ?_⟩
  · rw [Dict.get_pop] at hq
    split_ifs at hq with heq
    obtain ⟨hq₁, hq₂, hq₃⟩ := h.registered a' q hq
    have hne : q ≠ p := by
      rintro rfl
      exact heq (hq₂.symm.trans halias)
    exact ⟨hq₁, hq₂, (hclosed q hne).trans hq₃⟩
  · have hne : q ≠ p := by
      rintro rfl
      have hself : (s.closePool q closer).closed q = some closer := Function.update_self ..
      rw [hself] at hq'
      cases hq'
    rw [hclosed q hne] at hq'
    have hget := h.opened q hq hq'
    show (s.connectionPools.pop a).get (s.poolAlias q) = some q
    rw [Dict.get_pop, if_neg, hget]
    intro heq
    rw [heq, hp] at hget
    exact hne (Option.some.inj hget).symm
  · have hle : s.nextPool ≤ q := hq
    exact (hclosed q (by omega)).trans (h.unmade q hle)
  · obtain ⟨hid, hne⟩ := (hidle id q).mp hid
    obtain ⟨hq₁, hq₂, hq₃⟩ := h.idle id q hid
    exact ⟨hq₁, (hclosed q hne).trans hq₂, hq₃⟩
  · exact h.taken id q t a' ((place_closePool_taken closer).mp hid)
  · obtain ⟨q, hq⟩ := h.held id t a' hc
    exact ⟨q, (place_closePool_taken closer).mpr hq⟩
  · exact h.setIdle id q hset ((hidle id q).mp hid).1
  · refine (h.setTaken id q t a' hset ((place_closePool_taken closer).mp hid)).imp_right (Or.imp_left fun hq => ?_)
    by_cases hne : q = p
    · subst hne
      have hself : (s.closePool q closer).closed q = some closer := Function.update_self ..
      intro heq
      rw [hself] at heq
      cases heq
    · exact fun heq => hq ((hclosed q hne).symm.trans heq)

omit [DecidableEq T] in
/-- The pool of an alias, made if there is none. -/
theorem Inv.pool (h : Inv s) (a : String) :
    Inv (s.pool a).1 ∧ (s.pool a).1.connectionPools.get a = some (s.pool a).2 := by
  unfold Process.pool
  cases hget : s.connectionPools.get a with
  | some p => exact ⟨h, hget⟩
  | none =>
    have hold : ∀ q, q < s.nextPool → (Function.update s.poolAlias s.nextPool a) q = s.poolAlias q := fun q hq =>
      Function.update_of_ne (by omega) ..
    refine ⟨⟨fun a' q hq => ?_, fun q hq hopen => ?_, fun q hq => ?_, fun id q hid => ?_, fun id q t a' hid => ?_,
      h.held, h.unset, fun id q hset hid => ?_, h.setTaken⟩, ?_⟩
    · rw [Dict.get_set] at hq
      split_ifs at hq with heq
      · obtain rfl := Option.some.inj hq
        subst heq
        exact ⟨Nat.lt_succ_self _, Function.update_self .., h.unmade _ le_rfl⟩
      · obtain ⟨hq₁, hq₂, hq₃⟩ := h.registered a' q hq
        exact ⟨Nat.lt_succ_of_lt hq₁, (hold q hq₁).trans hq₂, hq₃⟩
    · show (s.connectionPools.set a s.nextPool).get ((Function.update s.poolAlias s.nextPool a) q) = some q
      rw [Dict.get_set]
      rcases Nat.lt_succ_iff_lt_or_eq.mp hq with hlt | rfl
      · rw [hold q hlt]
        have hq' := h.opened q hlt hopen
        rw [if_neg, hq']
        intro heq
        rw [heq, hget] at hq'
        cases hq'
      · rw [Function.update_self, if_pos rfl]
    · have hle : s.nextPool + 1 ≤ q := hq
      exact h.unmade q (by omega)
    · obtain ⟨hq₁, hq₂, hq₃⟩ := h.idle id q hid
      exact ⟨Nat.lt_succ_of_lt hq₁, hq₂, hq₃⟩
    · obtain ⟨hq₁, hq₂, hq₃, hq₄⟩ := h.taken id q t a' hid
      exact ⟨Nat.lt_succ_of_lt hq₁, (hold q hq₁).trans hq₂, hq₃, hq₄⟩
    · obtain ⟨t, ht⟩ := h.setIdle id q hset hid
      exact ⟨t, ht.trans (congrArg Phase.forgetting (hold q (h.idle id q hid).1).symm)⟩
    · rw [Dict.get_set, if_pos rfl]

/-- A connection without a session takes one that is idle in a pool of its alias, or was just opened. -/
theorem Inv.take (h : Inv s) (hc : s.connections t a = some none) (hp₁ : p < s.nextPool) (hp₂ : s.poolAlias p = a)
    (hid : s.place id = .idle p ∨ (∀ t a, s.connections t a ≠ some (some id)) ∧ s.lockTimeout id = false)
    (hlt : id < s.nextSession) :
    Inv (s.take t a p id) := by
  have hplace : ∀ id', (s.take t a p id).place id' = if id' = id then .taken p t a else s.place id' := fun id' =>
    Process.place_setPlace _ id'
  have hconn : ∀ t' a', (s.take t a p id).connections t' a' = if t' = t ∧ a' = a then some (some id)
      else s.connections t' a' := fun t' a' => Process.connections_setConnection _
  have hfree : ∀ t' a', s.connections t' a' ≠ some (some id) := by
    intro t' a' hc'
    rcases hid with hid | ⟨hid, -⟩
    · obtain ⟨q, hq⟩ := h.held id t' a' hc'
      rw [hid] at hq
      cases hq
    · exact hid t' a' hc'
  refine ⟨h.registered, h.opened, h.unmade, fun id' q hq => ?_, fun id' q t' a' hq => ?_, fun id' t' a' hc' => ?_,
    h.unset, fun id' q hset hq => ?_, fun id' q t' a' hset hq => ?_⟩
  · rw [hplace] at hq
    split_ifs at hq
    exact h.idle id' q hq
  · rw [hplace] at hq
    rw [hconn]
    split_ifs at hq with heq
    · obtain ⟨rfl, rfl, rfl⟩ := Place.taken.inj hq
      exact ⟨hp₁, hp₂, by rw [if_pos ⟨rfl, rfl⟩, heq], heq ▸ hlt⟩
    · obtain ⟨hq₁, hq₂, hq₃, hq₄⟩ := h.taken id' q t' a' hq
      refine ⟨hq₁, hq₂, ?_, hq₄⟩
      rw [if_neg, hq₃]
      rintro ⟨rfl, rfl⟩
      rw [hc] at hq₃
      cases hq₃
  · rw [hconn] at hc'
    split_ifs at hc' with heq
    · obtain ⟨rfl, rfl⟩ := heq
      obtain rfl := Option.some.inj (Option.some.inj hc')
      exact ⟨p, by rw [hplace, if_pos rfl]⟩
    · obtain ⟨q, hq⟩ := h.held id' t' a' hc'
      refine ⟨q, ?_⟩
      rw [hplace, if_neg, hq]
      rintro rfl
      exact hfree t' a' hc'
  · rw [hplace] at hq
    split_ifs at hq
    exact h.setIdle id' q hset hq
  · rw [hplace] at hq
    split_ifs at hq with heq
    · obtain ⟨rfl, rfl, rfl⟩ := Place.taken.inj hq
      subst heq
      rcases hid with hid | ⟨-, hunset⟩
      · obtain ⟨t', ht'⟩ := h.setIdle id' p hset hid
        exact .inr (.inr ⟨t', ht'.trans (by rw [hp₂])⟩)
      · have hset' : s.lockTimeout id' = true := hset
        rw [hunset] at hset'
        cases hset'
    · exact h.setTaken id' q t' a' hset hq

omit [DecidableEq T] in
/-- A session is opened. -/
theorem Inv.opens (h : Inv s) : Inv { s with nextSession := s.nextSession + 1 } where
  registered := h.registered
  opened := h.opened
  unmade := h.unmade
  idle id p hid := ⟨(h.idle id p hid).1, (h.idle id p hid).2.1, Nat.lt_succ_of_lt (h.idle id p hid).2.2⟩
  taken id p t a hid := by
    obtain ⟨h₁, h₂, h₃, h₄⟩ := h.taken id p t a hid
    exact ⟨h₁, h₂, h₃, Nat.lt_succ_of_lt h₄⟩
  held := h.held
  unset id hid := h.unset id (Nat.le_of_succ_le hid)
  setIdle := h.setIdle
  setTaken := h.setTaken

/-- `pool.getconn()` of a thread that has a pool of the alias of its connection. -/
theorem Inv.getconn (h : Inv s) {answer : Process.Answer} (hstep : s.getconn t answer = some s')
    (hconnects : ∀ a p, s.point t = .connects a p →
      p < s.nextPool ∧ s.poolAlias p = a ∧ s.connections t a = some none) : Inv s' := by
  unfold Process.getconn at hstep
  split at hstep
  case h_2 => cases hstep
  rename_i a p hpoint
  obtain ⟨hlt, halias, hc⟩ := hconnects a p hpoint
  cases answer with
  | idle id =>
    simp only at hstep
    split_ifs at hstep with hid
    obtain rfl := Option.some.inj hstep
    have htake := h.take hc hlt halias (.inl hid.1) (h.idle id _ hid.1).2.2
    exact ⟨htake.1, htake.2, htake.3, htake.4, htake.5, htake.6, htake.7, htake.8, htake.9⟩
  | fresh =>
    simp only at hstep
    split_ifs at hstep
    obtain rfl := Option.some.inj hstep
    have hopened : ∀ t' a', s.connections t' a' ≠ some (some s.nextSession) := by
      intro t' a' ht'
      obtain ⟨q, hq⟩ := h.held _ t' a' ht'
      exact absurd (h.taken _ q t' a' hq).2.2.2 (Nat.lt_irrefl _)
    have htake := h.opens.take hc hlt halias (.inr ⟨hopened, h.unset _ le_rfl⟩) (Nat.lt_succ_self _)
    exact ⟨htake.1, htake.2, htake.3, htake.4, htake.5, htake.6, htake.7, htake.8, htake.9⟩
  | failed =>
    obtain rfl := Option.some.inj hstep
    exact ⟨h.1, h.2, h.3, h.4, h.5, h.6, h.7, h.8, h.9⟩

/-- A session of a pool that is closed does not go back to it. -/
theorem Inv.close_taken (h : Inv s) (hid : s.place id = .taken p t a) (hclosed : s.closed p ≠ none) :
    (s.close t a).place id = .closed := by
  obtain ⟨-, -, hc, -⟩ := h.taken id p t a hid
  unfold Process.close
  simp only [hc, hid]
  show (s.setPlace id _).place id = _
  rw [Process.place_setPlace, if_pos rfl, if_neg fun hopen => hclosed hopen.1]

/-- A connection that is closed; a session with the `lock_timeout` of a migration may go back to its pool when that is
about to be closed. -/
theorem Inv.close (h : Inv s) (hphase : ∀ id, s.connections t a = some (some id) → s.lockTimeout id = true →
    s.phase t ≠ .migrating a ∨ ∃ t', s.phase t' = .forgetting a) : Inv (s.close t a) := by
  unfold Process.close
  split
  · rename_i id hc
    obtain ⟨p, hplace, halias, hlt⟩ := h.place_of_connection hc
    simp only [hplace]
    have hplaces : ∀ id' x, ((s.putBack p id).setConnection t a (some none)).place id' = x ↔
        (if id' = id then (if s.closed p = none ∧ s.terminated id = false then Place.idle p else .closed)
          else s.place id') = x := fun id' x => by
      rw [← Process.place_setPlace]
      rfl
    have hconn : ∀ t' a', ((s.putBack p id).setConnection t a (some none)).connections t' a' =
        if t' = t ∧ a' = a then some none else s.connections t' a' := fun t' a' => Process.connections_setConnection _
    refine ⟨h.registered, h.opened, h.unmade, fun id' q hq => ?_, fun id' q t' a' hq => ?_, fun id' t' a' hc' => ?_,
      h.unset, fun id' q hset hq => ?_, fun id' q t' a' hset hq => ?_⟩
    · rw [hplaces] at hq
      split_ifs at hq with heq hopen
      · obtain rfl := Place.idle.inj hq
        exact ⟨hlt, hopen.1, heq ▸ (h.taken id p t a hplace).2.2.2⟩
      · exact h.idle id' q hq
    · rw [hplaces] at hq
      rw [hconn]
      split_ifs at hq with heq
      obtain ⟨hq₁, hq₂, hq₃, hq₄⟩ := h.taken id' q t' a' hq
      refine ⟨hq₁, hq₂, ?_, hq₄⟩
      rw [if_neg, hq₃]
      rintro ⟨rfl, rfl⟩
      exact heq (Option.some.inj (Option.some.inj (hq₃.symm.trans hc)))
    · rw [hconn] at hc'
      split_ifs at hc' with heq
      · cases hc'
      · obtain ⟨q, hq⟩ := h.held id' t' a' hc'
        refine ⟨q, (hplaces id' _).mpr ?_⟩
        rw [if_neg, hq]
        rintro rfl
        rw [hplace] at hq
        obtain ⟨-, rfl, rfl⟩ := Place.taken.inj hq
        exact heq ⟨rfl, rfl⟩
    · rw [hplaces] at hq
      split_ifs at hq with heq hopen
      · obtain rfl := Place.idle.inj hq
        subst heq
        show ∃ t, s.phase t = .forgetting (s.poolAlias p)
        rw [halias]
        rcases h.setTaken id' p t a hset hplace with hm | hclosed | hforgetting
        · exact (hphase id' hc hset).resolve_left (not_not_intro hm)
        · exact absurd hopen.1 hclosed
        · exact hforgetting
      · exact h.setIdle id' q hset hq
    · rw [hplaces] at hq
      split_ifs at hq
      exact h.setTaken id' q t' a' hset hq
  · exact h

/-- A thread goes on.  When it has forgotten a database, the pools of that are closed; when it has migrated one, its
session has the `lock_timeout` of the server again. -/
theorem Inv.setPhase (h : Inv s) {x : Phase}
    (hforgetting : ∀ a, s.phase t = .forgetting a → ∀ p, p < s.nextPool → s.poolAlias p = a → s.closed p ≠ none)
    (hmigrating : ∀ a, s.phase t = .migrating a → x = .forgetting a ∨
      ∀ id p, s.lockTimeout id = true → s.place id ≠ .taken p t a) : Inv (s.setPhase t x) := by
  have hphase : ∀ t', (s.setPhase t x).phase t' = if t' = t then x else s.phase t' := by
    intro t'
    unfold Process.setPhase
    by_cases ht : t' = t
    · subst ht
      simp
    · simp [ht]
  refine ⟨h.registered, h.opened, h.unmade, h.idle, h.taken, h.held, h.unset, fun id p hset hid => ?_,
    fun id p t' a' hset hid => ?_⟩
  · obtain ⟨t', ht'⟩ := h.setIdle id p hset hid
    have hne : t' ≠ t := by
      rintro rfl
      exact hforgetting _ ht' p (h.idle id p hid).1 rfl (h.idle id p hid).2.1
    exact ⟨t', by rw [hphase, if_neg hne, ht']; rfl⟩
  · rcases h.setTaken id p t' a' hset hid with hm | hclosed | ⟨t'', ht''⟩
    · by_cases hne : t' = t
      · subst hne
        rcases hmigrating a' hm with rfl | hnone
        · exact .inr (.inr ⟨t', by rw [hphase, if_pos rfl]⟩)
        · exact absurd hid (hnone id p hset)
      · exact .inl (by rw [hphase, if_neg hne, hm])
    · exact .inr (.inl hclosed)
    · by_cases hne : t'' = t
      · subst hne
        obtain ⟨hlt, halias, -⟩ := h.taken id p t' a' hid
        exact .inr (.inl (hforgetting a' ht'' p hlt halias))
      · exact .inr (.inr ⟨t'', by rw [hphase, if_neg hne, ht'']⟩)

/-- The first half of `forget_database`, for a thread that migrates this database or none. -/
theorem Inv.forget (h : Inv s) (hphase : s.phase t = .idle ∨ s.phase t = .migrating a) : Inv (s.forget t a) := by
  have heq : s.forget t a = ((s.setPhase t (.forgetting a)).close t a).setConnection t a none := by
    unfold Process.forget Process.close
    show _ = (match s.connections t a with
      | some (some id) => match s.place id with
        | .taken p _ _ => ((s.setPhase t (.forgetting a)).putBack p id).setConnection t a (some none)
        | _ => (s.setPhase t (.forgetting a)).setConnection t a (some none)
      | _ => s.setPhase t (.forgetting a)).setConnection t a none
    split
    · split <;> rfl
    · rfl
  have hset : Inv (s.setPhase t (.forgetting a)) := by
    refine h.setPhase (fun a' ha' => ?_) fun a' ha' => .inl ?_
    · rcases hphase with hphase | hphase <;> rw [hphase] at ha' <;> cases ha'
    · rcases hphase with hphase | hphase <;> rw [hphase] at ha' <;> cases ha'
      rfl
  have hclosed : Inv ((s.setPhase t (.forgetting a)).close t a) :=
    hset.close fun _ _ _ => .inr ⟨t, Function.update_self ..⟩
  -- the connection has no session left
  have hnone : ∀ id, ((s.setPhase t (.forgetting a)).close t a).connections t a ≠ some (some id) := by
    intro id
    unfold Process.close
    split
    · split <;> rw [Process.connections_setConnection, if_pos ⟨rfl, rfl⟩] <;> simp
    · rename_i hc
      exact hc id
  rw [heq]
  refine ⟨hclosed.registered, hclosed.opened, hclosed.unmade, hclosed.idle, fun id p t' a' hid => ?_,
    fun id t' a' hc => ?_, hclosed.unset, hclosed.setIdle, hclosed.setTaken⟩
  · obtain ⟨h₁, h₂, h₃, h₄⟩ := hclosed.taken id p t' a' hid
    refine ⟨h₁, h₂, ?_, h₄⟩
    rw [Process.connections_setConnection, if_neg, h₃]
    rintro ⟨rfl, rfl⟩
    exact hnone id h₃
  · rw [Process.connections_setConnection] at hc
    split_ifs at hc
    exact hclosed.held id t' a' hc

/-- The second half of `forget_database`: no pool of its alias is open. -/
theorem Inv.forgetPool (h : Inv s) (a : String) : Inv (s.forgetPool a) ∧
    ∀ p, p < (s.forgetPool a).nextPool → (s.forgetPool a).poolAlias p = a → (s.forgetPool a).closed p ≠ none := by
  unfold Process.forgetPool
  cases hget : s.connectionPools.get a with
  | none =>
    have hpop : s.connectionPools.pop a = s.connectionPools := by
      refine Dict.ext_entries ?_
      show s.connectionPools.entries.filter _ = _
      refine List.filter_eq_self.mpr fun entry hentry => ?_
      have hne : entry.1 ≠ a := by
        rintro rfl
        rw [Dict.mem_entries.mp hentry] at hget
        cases hget
      simpa using hne
    simp only [hpop]
    refine ⟨⟨h.1, h.2, h.3, h.4, h.5, h.6, h.7, h.8, h.9⟩, fun p hlt halias hopen => ?_⟩
    have hp := h.opened p hlt hopen
    have halias' : s.poolAlias p = a := halias
    rw [halias', hget] at hp
    cases hp
  | some q =>
    have hclosed := h.closes hget .forgotten
    refine ⟨⟨hclosed.1, hclosed.2, hclosed.3, hclosed.4, hclosed.5, hclosed.6, hclosed.7, hclosed.8, hclosed.9⟩,
      fun p hlt halias hopen => ?_⟩
    have hp := hclosed.opened p hlt hopen
    have halias' : s.poolAlias p = a := halias
    have hpop : (s.connectionPools.pop a).get (s.poolAlias p) = some p := hp
    rw [halias', Dict.get_pop, if_pos rfl] at hpop
    cases hpop

omit [DecidableEq T] in
/-- The `lock_timeout` of a session is set by a thread that migrates, or reset. -/
theorem Inv.setConfig (h : Inv s) {value : Bool} (hvalue : value = true → s.phase t = .migrating a)
    (hstep : s.setConfig t a value = some s') :
    Inv s' ∧ (value = false → ∀ id p, s'.lockTimeout id = true → s'.place id ≠ .taken p t a) := by
  unfold Process.setConfig at hstep
  split at hstep
  case h_2 => cases hstep
  rename_i id hc
  split_ifs at hstep
  obtain rfl := Option.some.inj hstep
  obtain ⟨p, hplace, -, -⟩ := h.place_of_connection hc
  have hset : ∀ id', Function.update s.lockTimeout id value id' = if id' = id then value else s.lockTimeout id' := by
    intro id'
    by_cases heq : id' = id
    · subst heq
      simp
    · simp [heq]
  refine ⟨⟨h.registered, h.opened, h.unmade, h.idle, h.taken, h.held, fun id' hid' => ?_, fun id' q hid' hq => ?_,
    fun id' q t' a' hid' hq => ?_⟩, fun hfalse id' q hid' hq => ?_⟩
  · have hle : s.nextSession ≤ id' := hid'
    have hlt := (h.taken id p t a hplace).2.2.2
    show Function.update s.lockTimeout id value id' = false
    rw [hset, if_neg (by omega), h.unset id' hle]
  · have hne : id' ≠ id := by
      rintro rfl
      have hq' : s.place id' = .idle q := hq
      rw [hplace] at hq'
      cases hq'
    have hold : Function.update s.lockTimeout id value id' = s.lockTimeout id' := Function.update_of_ne hne ..
    exact h.setIdle id' q (hold.symm.trans hid') hq
  · by_cases hne : id' = id
    · subst hne
      have hq' : s.place id' = .taken q t' a' := hq
      rw [hplace] at hq'
      obtain ⟨rfl, rfl, rfl⟩ := Place.taken.inj hq'
      have hself : Function.update s.lockTimeout id' value id' = value := Function.update_self ..
      exact .inl (hvalue (hself.symm.trans hid'))
    · have hold : Function.update s.lockTimeout id value id' = s.lockTimeout id' := Function.update_of_ne hne ..
      exact h.setTaken id' q t' a' (hold.symm.trans hid') hq
  · have hid'' : Function.update s.lockTimeout id value id' = true := hid'
    have hc' := (h.taken id' q t a hq).2.2.1
    obtain rfl : id' = id := Option.some.inj (Option.some.inj (hc'.symm.trans hc))
    rw [Function.update_self, hfalse] at hid''
    cases hid''

omit [DecidableEq T] in
theorem setConfig_setPhase [DecidableEq T] {value : Bool} {x : Phase} (hstep : s.setConfig t a value = some s') :
    (s.setPhase t x).setConfig t a value = some (s'.setPhase t x) := by
  unfold Process.setConfig at hstep ⊢
  rw [show (s.setPhase t x).connections = s.connections from rfl]
  split at hstep
  · rename_i id hc
    split_ifs at hstep with hterminated
    obtain rfl := Option.some.inj hstep
    rw [if_neg (show ¬ (s.setPhase t x).terminated id = true from hterminated)]
    rfl
  · cases hstep

/-! ## What the threads in the middle of something know -/

/-- The pools that the loop of `evict_idle_pools` is at, or is to come to. -/
def Point.pools : Point → Option (List (String × ℕ))
  | .evicts _ pools => some pools
  | .measures _ dbAlias pool pools => some ((dbAlias, pool) :: pools)
  | .closes _ dbAlias pool pools => some ((dbAlias, pool) :: pools)
  | _ => none

/-- A thread that connects has a pool of its alias; one that is in the loop has the lock, and the pools it is to come
to are still there. -/
structure Points (s : Process T) : Prop where
  connects : ∀ t a p, s.point t = .connects a p → p < s.nextPool ∧ s.poolAlias p = a ∧ s.connections t a = some none
  looks : ∀ t pools, (s.point t).pools = some pools → s.lock = some t ∧ (pools.map Prod.fst).Nodup ∧
    ∀ entry ∈ pools, s.connectionPools.get entry.1 = some entry.2

omit [DecidableEq T] in
theorem points_start (clock : ℚ) : Points (Process.start clock : Process T) where
  connects _ _ _ h := by cases h
  looks _ _ h := by cases h

theorem point_setPoint (x : Point) : (s.setPoint t x).point t' = if t' = t then x else s.point t' := by
  unfold Process.setPoint
  by_cases ht : t' = t
  · subst ht
    simp
  · simp [ht]

/-- A thread goes on, with what it knows. -/
theorem Points.setPoint (h : Points s) {x : Point}
    (hconnects : ∀ a p, x = .connects a p → p < s.nextPool ∧ s.poolAlias p = a ∧ s.connections t a = some none)
    (hlooks : ∀ pools, x.pools = some pools → s.lock = some t ∧ (pools.map Prod.fst).Nodup ∧
      ∀ entry ∈ pools, s.connectionPools.get entry.1 = some entry.2) : Points (s.setPoint t x) := by
  refine ⟨fun t' a p hpoint => ?_, fun t' pools hpoint => ?_⟩
  · rw [point_setPoint] at hpoint
    split_ifs at hpoint with ht
    · exact ht ▸ hconnects a p hpoint
    · exact h.connects t' a p hpoint
  · rw [point_setPoint] at hpoint
    split_ifs at hpoint with ht
    · exact ht ▸ hlooks pools hpoint
    · exact h.looks t' pools hpoint

theorem Points.setFree (h : Points s) {x : Point} (hconnects : ∀ a p, x ≠ .connects a p) (hlooks : x.pools = none) :
    Points (s.setPoint t x) :=
  h.setPoint (fun a p hx => absurd hx (hconnects a p)) fun pools hx => by rw [hlooks] at hx; cases hx

/-- A thread is in the loop, or goes on with it. -/
theorem Points.setLooks (h : Points s) {x : Point} {pools : List (String × ℕ)} (hx : x.pools = some pools)
    (hlock : s.lock = some t) (hnodup : (pools.map Prod.fst).Nodup)
    (hget : ∀ entry ∈ pools, s.connectionPools.get entry.1 = some entry.2) : Points (s.setPoint t x) := by
  refine h.setPoint (fun a p hconnects => ?_) fun pools' hpools => ?_
  · rw [hconnects] at hx
    cases hx
  · obtain rfl := Option.some.inj (hx.symm.trans hpools)
    exact ⟨hlock, hnodup, hget⟩

omit [DecidableEq T] in
/-- The threads stay where they are, and what they know stays true. -/
theorem Points.change (h : Points s) (hpoint : s'.point = s.point) (hnext : s.nextPool ≤ s'.nextPool)
    (halias : ∀ p < s.nextPool, s'.poolAlias p = s.poolAlias p)
    (hconn : ∀ t a p, s.point t = .connects a p → s'.connections t a = s.connections t a)
    (hlooks : ∀ t pools, (s.point t).pools = some pools → s.lock = some t → s'.lock = s.lock ∧
      ∀ entry ∈ pools, s.connectionPools.get entry.1 = some entry.2 → s'.connectionPools.get entry.1 = some entry.2) :
    Points s' := by
  refine ⟨fun t a p hp => ?_, fun t pools hpools => ?_⟩
  · rw [hpoint] at hp
    obtain ⟨hlt, halias', hc⟩ := h.connects t a p hp
    exact ⟨lt_of_lt_of_le hlt hnext, (halias p hlt).trans halias', (hconn t a p hp).trans hc⟩
  · rw [hpoint] at hpools
    obtain ⟨hlock, hnodup, hget⟩ := h.looks t pools hpools
    obtain ⟨hlock', hkept⟩ := hlooks t pools hpools hlock
    exact ⟨hlock'.trans hlock, hnodup, fun entry hentry => hkept entry hentry (hget entry hentry)⟩

/-- What an action that is about the connections and the `lock_timeout` of one thread leaves as it is. -/
structure Own (t : T) (s s' : Process T) : Prop where
  point : s'.point = s.point
  lock : s'.lock = s.lock
  nextPool : s'.nextPool = s.nextPool
  poolAlias : s'.poolAlias = s.poolAlias
  connectionPools : s'.connectionPools = s.connectionPools
  connections : ∀ t', t' ≠ t → s'.connections t' = s.connections t'

omit [DecidableEq T] in
theorem Own.trans {s'' : Process T} (h : Own t s s') (h' : Own t s' s'') : Own t s s'' where
  point := h'.point.trans h.point
  lock := h'.lock.trans h.lock
  nextPool := h'.nextPool.trans h.nextPool
  poolAlias := h'.poolAlias.trans h.poolAlias
  connectionPools := h'.connectionPools.trans h.connectionPools
  connections t' ht := (h'.connections t' ht).trans (h.connections t' ht)

theorem own_setConnection (x : Option (Option ℕ)) : Own t s (s.setConnection t a x) :=
  ⟨rfl, rfl, rfl, rfl, rfl, fun _ ht => Function.update_of_ne ht ..⟩

theorem own_setPhase (x : Phase) : Own t s (s.setPhase t x) := ⟨rfl, rfl, rfl, rfl, rfl, fun _ _ => rfl⟩

theorem own_close (s : Process T) (t : T) (a : String) : Own t s (s.close t a) := by
  unfold Process.close
  split
  · rename_i id _
    split
    · rename_i p _ _ _
      have hput : Own t s (s.putBack p id) := ⟨rfl, rfl, rfl, rfl, rfl, fun _ _ => rfl⟩
      exact hput.trans (own_setConnection _)
    · exact own_setConnection _
  · exact ⟨rfl, rfl, rfl, rfl, rfl, fun _ _ => rfl⟩

theorem own_forget (s : Process T) (t : T) (a : String) : Own t s (s.forget t a) :=
  ((own_close s t a).trans (own_setConnection _)).trans (own_setPhase _)

omit [DecidableEq T] in
theorem own_setConfig {value : Bool} (hstep : s.setConfig t a value = some s') : Own t s s' := by
  unfold Process.setConfig at hstep
  split at hstep
  · split_ifs at hstep
    obtain rfl := Option.some.inj hstep
    exact ⟨rfl, rfl, rfl, rfl, rfl, fun _ _ => rfl⟩
  · cases hstep

omit [DecidableEq T] in
theorem Points.own (h : Points s) (hfree : s.point t = .free) (hown : Own t s s') : Points s' := by
  refine h.change hown.point hown.nextPool.ge (fun p _ => congrFun hown.poolAlias p) (fun t' b p hp => ?_)
    fun t' pools _ _ => ⟨hown.lock, fun entry _ hget => hown.connectionPools ▸ hget⟩
  have hne : t' ≠ t := by
    rintro rfl
    rw [hfree] at hp
    cases hp
  rw [hown.connections t' hne]

/-- What an action does: it is about the connections of the thread, or gets it a pool, or reads the clock for it, or
is the second half of `forget_database`. -/
theorem act_cases {action : Action} (hstep : s.act t action = some s') : Own t s s' ∨
    (∃ a now, action = .getItem a now ∧ s.clock ≤ now ∧ s' = s.getItem t a now) ∨
    (∃ a, action = .getPool a ∧ s.connections t a = some none ∧
      s' = (s.pool a).1.setPoint t (.connects a (s.pool a).2)) ∨
    ∃ a, action = .forgetPool ∧ s.phase t = .forgetting a ∧ s.lock = none ∧
      s' = (s.forgetPool a).setPhase t .idle := by
  cases action with
  | getItem a now =>
    simp only [Process.act] at hstep
    split_ifs at hstep with hclock
    exact .inr (.inl ⟨a, now, rfl, hclock, (Option.some.inj hstep).symm⟩)
  | getPool a =>
    simp only [Process.act, Process.getPool] at hstep
    split_ifs at hstep with hc
    exact .inr (.inr (.inl ⟨a, rfl, hc, (Option.some.inj hstep).symm⟩))
  | close a =>
    simp only [Process.act] at hstep
    split_ifs at hstep
    obtain rfl := Option.some.inj hstep
    exact .inl (own_close s t a)
  | forget a =>
    simp only [Process.act] at hstep
    split_ifs at hstep
    obtain rfl := Option.some.inj hstep
    exact .inl (own_forget s t a)
  | forgetPool =>
    simp only [Process.act] at hstep
    split at hstep
    · rename_i a hphase
      split_ifs at hstep with hlock
      exact .inr (.inr (.inr ⟨a, rfl, hphase, hlock, (Option.some.inj hstep).symm⟩))
    · cases hstep
  | setLockTimeout a refused =>
    simp only [Process.act] at hstep
    split_ifs at hstep with hphase hrefused
    · obtain rfl := Option.some.inj hstep
      exact .inl (own_setPhase _)
    · obtain rfl := Option.some.inj hstep
      cases hset : s.setConfig t a true with
      | none => exact .inl (own_setPhase _)
      | some s₁ => exact .inl ((own_setConfig hset).trans (own_setPhase _))
  | resetLockTimeout refused =>
    simp only [Process.act] at hstep
    split at hstep
    · split at hstep
      · rename_i hreset
        obtain rfl := Option.some.inj hstep
        split_ifs at hreset
        exact .inl ((own_setConfig hreset).trans (own_setPhase _))
      · obtain rfl := Option.some.inj hstep
        exact .inl (own_forget s t _)
    · cases hstep

omit [DecidableEq T] in
/-- A pool that is made is one more. -/
theorem pool_same (s : Process T) (a : String) : (s.pool a).1.point = s.point ∧ (s.pool a).1.lock = s.lock ∧
    (s.pool a).1.connections = s.connections ∧ s.nextPool ≤ (s.pool a).1.nextPool ∧
    (∀ p < s.nextPool, (s.pool a).1.poolAlias p = s.poolAlias p) ∧
    ∀ b p, s.connectionPools.get b = some p → (s.pool a).1.connectionPools.get b = some p := by
  unfold Process.pool
  cases hget : s.connectionPools.get a with
  | some p => exact ⟨rfl, rfl, rfl, le_rfl, fun _ _ => rfl, fun _ _ h => h⟩
  | none =>
    refine ⟨rfl, rfl, rfl, Nat.le_succ _, fun p hp => Function.update_of_ne (by omega) .., fun b p hb => ?_⟩
    show (s.connectionPools.set a s.nextPool).get b = some p
    rw [Dict.get_set, if_neg, hb]
    rintro rfl
    rw [hget] at hb
    cases hb

theorem Points.act (hinv : Inv s) (h : Points s) (hfree : s.point t = .free) {action : Action}
    (hstep : s.act t action = some s') : Points s' := by
  obtain hown | ⟨a, now, -, -, rfl⟩ | ⟨a, -, hc, rfl⟩ | ⟨a, -, -, hlock, rfl⟩ := act_cases hstep
  · exact h.own hfree hown
  · have hclock : Own t s { s with clock := now } := ⟨rfl, rfl, rfl, rfl, rfl, fun _ _ => rfl⟩
    have hlooked := h.own hfree
      (hclock.trans (own_setConnection (a := a) (some ((s.connections t a).getD none))))
    exact hlooked.setFree (fun _ _ => by simp) rfl
  · obtain ⟨hpoint, hlock, hconn, hnext, halias, hget⟩ := pool_same s a
    obtain ⟨hpool, hself⟩ := hinv.pool a
    have hmade : Points (s.pool a).1 := h.change hpoint hnext halias (fun _ _ _ _ => by rw [hconn])
      fun _ _ _ _ => ⟨hlock, fun entry _ hentry => hget entry.1 entry.2 hentry⟩
    refine hmade.setPoint (fun b p hx => ?_) fun pools hx => by cases hx
    obtain ⟨rfl, rfl⟩ := Point.connects.inj hx
    obtain ⟨hlt, halias', -⟩ := hpool.registered a _ hself
    exact ⟨hlt, halias', by rw [hconn]; exact hc⟩
  · have hsame : (s.forgetPool a).point = s.point ∧ (s.forgetPool a).nextPool = s.nextPool ∧
        (s.forgetPool a).poolAlias = s.poolAlias ∧ (s.forgetPool a).connections = s.connections := by
      unfold Process.forgetPool
      cases s.connectionPools.get a <;> exact ⟨rfl, rfl, rfl, rfl⟩
    obtain ⟨hpoint, hnext, halias, hconn⟩ := hsame
    refine h.change hpoint hnext.ge (fun p _ => congrFun halias p) (fun t' b p _ => ?_) fun t' pools _ ht => ?_
    · exact congrFun (congrFun hconn t') b
    · rw [hlock] at ht
      cases ht

theorem Points.advance (h : Points s) (hstep : s.advance evictAfter t = some s') : Points s' := by
  unfold Process.advance at hstep
  split at hstep
  case h_1 a now hpoint =>
    obtain rfl := Option.some.inj hstep
    refine Points.setFree ?_ (fun _ _ => by simp) rfl
    exact ⟨h.1, h.2⟩
  case h_2 now hpoint =>
    obtain rfl := Option.some.inj hstep
    split_ifs
    · exact h.setFree (fun _ _ => by simp) rfl
    · exact h.setFree (fun _ _ => by simp) rfl
  case h_3 now hpoint =>
    obtain rfl := Option.some.inj hstep
    refine Points.setFree ?_ (fun _ _ => by simp) rfl
    exact ⟨h.1, h.2⟩
  case h_4 now hpoint =>
    split_ifs at hstep with hlock
    obtain rfl := Option.some.inj hstep
    have hlocks : Points { s with lock := some t } := by
      refine h.change rfl le_rfl (fun _ _ => rfl) (fun _ _ _ _ => rfl) fun t' pools _ ht => ?_
      rw [hlock] at ht
      cases ht
    exact hlocks.setLooks rfl rfl s.connectionPools.nodup fun _ hentry => Dict.mem_entries.mp hentry
  case h_5 now hpoint =>
    obtain rfl := Option.some.inj hstep
    obtain ⟨hlock, -⟩ := h.looks t [] (by rw [hpoint]; rfl)
    have hfree : Points (s.setPoint t .free) := h.setFree (fun _ _ => by simp) rfl
    refine hfree.change rfl le_rfl (fun _ _ => rfl) (fun _ _ _ _ => rfl) fun t' pools hpools ht => ?_
    obtain rfl : t = t' := Option.some.inj (hlock.symm.trans ht)
    rw [point_setPoint, if_pos rfl] at hpools
    cases hpools
  case h_6 now entry pools hpoint =>
    obtain ⟨hlock, hnodup, hget⟩ := h.looks t (entry :: pools) (by rw [hpoint]; rfl)
    split_ifs at hstep
    · obtain rfl := Option.some.inj hstep
      exact h.setLooks rfl hlock hnodup.of_cons fun e he => hget e (List.mem_cons_of_mem _ he)
    · obtain rfl := Option.some.inj hstep
      refine Points.setLooks ?_ rfl hlock hnodup hget
      exact ⟨h.1, h.2⟩
  case h_7 now a p pools hpoint =>
    obtain rfl := Option.some.inj hstep
    obtain ⟨hlock, hnodup, hget⟩ := h.looks t ((a, p) :: pools) (by rw [hpoint]; rfl)
    have hevicts : Points (s.setPoint t (.evicts now pools)) :=
      h.setLooks rfl hlock hnodup.of_cons fun e he => hget e (List.mem_cons_of_mem _ he)
    refine hevicts.change rfl le_rfl (fun _ _ => rfl) (fun _ _ _ _ => rfl) fun t' pools' hpools ht => ⟨rfl, ?_⟩
    obtain rfl : t = t' := Option.some.inj (hlock.symm.trans ht)
    rw [point_setPoint, if_pos rfl] at hpools
    obtain rfl := Option.some.inj hpools
    intro e he _
    show (s.connectionPools.pop a).get e.1 = some e.2
    rw [Dict.get_pop, if_neg, hget e (List.mem_cons_of_mem _ he)]
    exact fun heq => (List.nodup_cons.mp hnodup).1 (List.mem_map.mpr ⟨e, he, heq⟩)
  case h_8 => cases hstep

theorem Points.stats (h : Points s) {opening : Bool} (hstep : s.stats t opening = some s') : Points s' := by
  unfold Process.stats at hstep
  split at hstep
  case h_2 => cases hstep
  rename_i now a p pools hpoint
  obtain ⟨hlock, hnodup, hget⟩ := h.looks t ((a, p) :: pools) (by rw [hpoint]; rfl)
  split_ifs at hstep
  · obtain rfl := Option.some.inj hstep
    refine Points.setLooks ?_ rfl hlock hnodup.of_cons fun e he => hget e (List.mem_cons_of_mem _ he)
    exact ⟨h.1, h.2⟩
  · obtain rfl := Option.some.inj hstep
    exact h.setLooks rfl hlock hnodup.of_cons fun e he => hget e (List.mem_cons_of_mem _ he)
  · obtain rfl := Option.some.inj hstep
    refine Points.setLooks ?_ rfl hlock hnodup hget
    exact ⟨h.1, h.2⟩

theorem Points.getconn (h : Points s) {answer : Process.Answer} (hstep : s.getconn t answer = some s') :
    Points s' := by
  unfold Process.getconn at hstep
  split at hstep
  case h_2 => cases hstep
  rename_i a p hpoint
  have hfree : Points (s.setPoint t .free) := h.setFree (fun _ _ => by simp) rfl
  -- the connection that is changed is that of the thread, which has its session now
  have htake : ∀ s' : Process T, s'.point = (s.setPoint t .free).point → s'.nextPool = s.nextPool →
      s'.poolAlias = s.poolAlias → s'.lock = s.lock → s'.connectionPools = s.connectionPools →
      (∀ t', t' ≠ t → s'.connections t' = s.connections t') → Points s' := by
    intro s' hpoint' hnext halias hlock hpools hconn
    exact hfree.own (by rw [point_setPoint, if_pos rfl]) ⟨hpoint', hlock, hnext, halias, hpools, hconn⟩
  cases answer with
  | idle id =>
    simp only at hstep
    split_ifs at hstep
    obtain rfl := Option.some.inj hstep
    exact htake _ rfl rfl rfl rfl rfl fun t' ht => Function.update_of_ne ht ..
  | fresh =>
    simp only at hstep
    split_ifs at hstep
    obtain rfl := Option.some.inj hstep
    exact htake _ rfl rfl rfl rfl rfl fun t' ht => Function.update_of_ne ht ..
  | failed =>
    obtain rfl := Option.some.inj hstep
    exact hfree

theorem points_step (hinv : Inv s) (h : Points s) {e : Event T} (hstep : s.step evictAfter e = some s') : Points s' := by
  cases e with
  | acts t action =>
    simp only [Process.step] at hstep
    split_ifs at hstep with hfree
    exact h.act hinv hfree hstep
  | advance t => exact h.advance hstep
  | stats t opening => exact h.stats hstep
  | getconn t answer => exact h.getconn hstep
  | terminate id =>
    obtain rfl := Option.some.inj hstep
    exact ⟨h.1, h.2⟩

/-! ## Where the sessions are, along a run -/

theorem Inv.act (h : Inv s) {action : Action} (hstep : s.act t action = some s') : Inv s' := by
  cases action with
  | getItem a now =>
    simp only [Process.act] at hstep
    split_ifs at hstep
    obtain rfl := Option.some.inj hstep
    have hlooked := h.lookedUp (t := t) (a := a)
    exact ⟨hlooked.1, hlooked.2, hlooked.3, hlooked.4, hlooked.5, hlooked.6, hlooked.7, hlooked.8, hlooked.9⟩
  | getPool a =>
    simp only [Process.act, Process.getPool] at hstep
    split_ifs at hstep
    obtain rfl := Option.some.inj hstep
    have hpool := (h.pool a).1
    exact ⟨hpool.1, hpool.2, hpool.3, hpool.4, hpool.5, hpool.6, hpool.7, hpool.8, hpool.9⟩
  | close a =>
    simp only [Process.act] at hstep
    split_ifs at hstep with hphase
    obtain rfl := Option.some.inj hstep
    exact h.close fun _ _ _ => .inl hphase
  | forget a =>
    simp only [Process.act] at hstep
    split_ifs at hstep with hphase
    obtain rfl := Option.some.inj hstep
    exact h.forget (.inl hphase)
  | forgetPool =>
    simp only [Process.act] at hstep
    split at hstep
    · rename_i a hphase
      split_ifs at hstep
      obtain rfl := Option.some.inj hstep
      obtain ⟨hforgot, hclosed⟩ := h.forgetPool a
      have hsame : (s.forgetPool a).phase = s.phase := by
        unfold Process.forgetPool
        cases s.connectionPools.get a <;> rfl
      refine hforgot.setPhase (fun a' ha' p hlt halias => ?_) fun a' ha' => ?_
      · rw [hsame, hphase] at ha'
        obtain rfl := Phase.forgetting.inj ha'
        exact hclosed p hlt halias
      · rw [hsame, hphase] at ha'
        cases ha'
    · cases hstep
  | setLockTimeout a refused =>
    simp only [Process.act] at hstep
    split_ifs at hstep with hphase
    · obtain rfl := Option.some.inj hstep
      exact h.setPhase (fun a' ha' => by rw [hphase] at ha'; cases ha') fun a' ha' => by rw [hphase] at ha'; cases ha'
    · obtain rfl := Option.some.inj hstep
      have hmigrating : Inv (s.setPhase t (.migrating a)) :=
        h.setPhase (fun a' ha' => by rw [hphase] at ha'; cases ha') fun a' ha' => by rw [hphase] at ha'; cases ha'
      cases hset : s.setConfig t a true with
      | none => exact hmigrating
      | some s' => exact (hmigrating.setConfig (fun _ => Function.update_self ..) (setConfig_setPhase hset)).1
  | resetLockTimeout refused =>
    simp only [Process.act] at hstep
    split at hstep
    · rename_i a hphase
      split at hstep
      · rename_i s'' hreset
        obtain rfl := Option.some.inj hstep
        split_ifs at hreset
        obtain ⟨hinv, hnone⟩ := h.setConfig (fun heq => by cases heq) hreset
        have hsame : s''.phase = s.phase := by
          unfold Process.setConfig at hreset
          split at hreset
          · split_ifs at hreset
            obtain rfl := Option.some.inj hreset
            rfl
          · cases hreset
        refine hinv.setPhase (fun a' ha' => ?_) fun a' ha' => .inr fun id p hset => ?_
        · rw [hsame, hphase] at ha'
          cases ha'
        · rw [hsame, hphase] at ha'
          obtain rfl := Phase.migrating.inj ha'
          exact hnone rfl id p hset
      · obtain rfl := Option.some.inj hstep
        exact h.forget (.inr hphase)
    · cases hstep

/-- A look at the pools changes where the sessions are where it closes one. -/
theorem Inv.advance (h : Inv s) (hpoints : Points s) (hstep : s.advance evictAfter t = some s') : Inv s' := by
  have hsame : Inv s := h
  unfold Process.advance at hstep
  split at hstep
  case h_7 now a p pools hpoint =>
    obtain rfl := Option.some.inj hstep
    obtain ⟨-, -, hget⟩ := hpoints.looks t ((a, p) :: pools) (by rw [hpoint]; rfl)
    have hclosed := h.closes (hget (a, p) List.mem_cons_self) .evicted
    exact ⟨hclosed.1, hclosed.2, hclosed.3, hclosed.4, hclosed.5, hclosed.6, hclosed.7, hclosed.8, hclosed.9⟩
  case h_8 => cases hstep
  all_goals
    (try split_ifs at hstep) <;> obtain rfl := Option.some.inj hstep <;>
      exact ⟨h.1, h.2, h.3, h.4, h.5, h.6, h.7, h.8, h.9⟩

theorem Inv.stats (h : Inv s) {opening : Bool} (hstep : s.stats t opening = some s') : Inv s' := by
  unfold Process.stats at hstep
  split at hstep
  · split_ifs at hstep <;> obtain rfl := Option.some.inj hstep <;>
      exact ⟨h.1, h.2, h.3, h.4, h.5, h.6, h.7, h.8, h.9⟩
  · cases hstep

/-- **One event keeps the sessions where they should be.** -/
theorem inv_step (h : Inv s ∧ Points s) {e : Event T} (hstep : s.step evictAfter e = some s') : Inv s' ∧ Points s' := by
  refine ⟨?_, points_step h.1 h.2 hstep⟩
  cases e with
  | acts t action =>
    simp only [Process.step] at hstep
    split_ifs at hstep
    exact h.1.act hstep
  | advance t => exact h.1.advance h.2 hstep
  | stats t opening => exact h.1.stats hstep
  | getconn t answer => exact h.1.getconn hstep fun a p => h.2.connects t a p
  | terminate id =>
    obtain rfl := Option.some.inj hstep
    exact ⟨h.1.1, h.1.2, h.1.3, h.1.4, h.1.5, h.1.6, h.1.7, h.1.8, h.1.9⟩

theorem inv_run {clock : ℚ} {es : List (Event T)}
    (hrun : Run (fun s e s' => Process.step evictAfter s e = some s') (Process.start clock) es s) :
    Inv s ∧ Points s :=
  hrun.invariant (fun _ _ _ h hstep => inv_step h hstep) ⟨inv_start clock, points_start clock⟩

/-- **The `lock_timeout` of a migration does not stay in a pool.**  Whatever the threads do and the server refuses,
once no thread migrates or forgets a database, no session that waits in a pool of it has that setting, so that
the next connection does not get one; and a session that still has it is of a pool that is closed, to which it does
not go back. -/
theorem lock_timeout_confined {clock : ℚ} {es : List (Event T)}
    (hrun : Run (fun s e s' => Process.step evictAfter s e = some s') (Process.start clock) es s)
    (hquiet : ∀ t, s.phase t ≠ .migrating a ∧ s.phase t ≠ .forgetting a) (hset : s.lockTimeout id = true) :
    (∀ p, s.poolAlias p = a → s.place id ≠ .idle p) ∧
      (∀ p t, s.place id = .taken p t a → s.closed p ≠ none ∧ (s.close t a).place id = .closed) := by
  have h := (inv_run hrun).1
  refine ⟨fun p halias hidle => ?_, fun p t htaken => ?_⟩
  · obtain ⟨t, ht⟩ := h.setIdle id p hset hidle
    exact (hquiet t).2 (halias ▸ ht)
  · have hclosed : s.closed p ≠ none := by
      rcases h.setTaken id p t a hset htaken with hm | hclosed | ⟨t', ht'⟩
      · exact absurd hm (hquiet t).1
      · exact hclosed
      · exact absurd ht' (hquiet t').2
    exact ⟨hclosed, h.close_taken htaken hclosed⟩

section Sample

/-- The `lock_timeout` of a migration cannot be reset, and another thread takes its session before the pool is
closed. -/
def migration : List (Event Bool) :=
  [.acts false (.getItem "acme" 0), .advance false, .advance false, .acts false (.getPool "acme"),
    .getconn false .fresh, .acts true (.getItem "acme" 1), .advance true, .advance true,
    .acts false (.setLockTimeout "acme" false), .acts true (.getPool "acme"), .acts false (.resetLockTimeout true),
    .getconn true (.idle 0), .acts false .forgetPool]

theorem lock_timeout_confined_sample : ∃ s : Process Bool, s.lockTimeout 0 = true ∧
    s.place 0 = .taken 0 true "acme" ∧ s.closed 0 ≠ none ∧ (s.close true "acme").place 0 = .closed := by
  have hruns : (migration.foldlM (Process.step 600) (Process.start 0)).any (fun s =>
      decide ((∀ t, s.phase t = .idle) ∧ s.lockTimeout 0 = true ∧ s.place 0 = .taken 0 true "acme")) = true := by
    decide +kernel
  obtain ⟨s, hs, hend⟩ := (Option.any_eq_true ..).mp hruns
  obtain ⟨hphase, hset, htaken⟩ := of_decide_eq_true hend
  have h := lock_timeout_confined (a := "acme") (Run.of_foldlM hs)
    (fun t => ⟨by rw [hphase]; simp, by rw [hphase]; simp⟩) hset
  exact ⟨s, hset, htaken, h.2 0 true htaken⟩

end Sample

end Sessions

end Totem.Tenancy.Pools
