import Totem.Tenancy.Pools
import Mathlib.Tactic.Linarith

/-!
# Totem.Tenancy.Eviction — when the pool of a database is evicted

* `History`: what the log says of the pools that a look has found idle, and of those it has closed.
* `Clocked`, `Due`: the times; what a look has left, or is to come to.
* `Later`: what the actions of a thread do to all of these; then the steps of a look, one by one.
* `evicted_iff_idle`: a pool is evicted when its database was not in use, and before long once it is not.
-/

namespace Totem.Tenancy.Pools

open Totem.Lib

section Times

variable {T : Type*} [DecidableEq T] {evictAfter now : ℚ} {s s' : Process T} {t : T} {a : String} {p q id : ℕ}

/-! ## The log -/

/-- The time that was written last for an alias. -/
def lastUse (a : String) : List Entry → Option ℚ
  | [] => none
  | .used b now :: log => if b = a then some now else lastUse a log
  | _ :: log => lastUse a log

/-- A look at `now` found that the time written last for the alias was `evictAfter` before, or more. -/
def FoundIdle (evictAfter : ℚ) (a : String) (p : ℕ) (now : ℚ) (log : List Entry) : Prop :=
  ∃ newer older u, log = newer ++ .idle a p now :: older ∧ lastUse a older = some u ∧ evictAfter ≤ now - u

/-- It found no session of the pool taken then; those that are, were taken after that. -/
def FoundUnborrowed (evictAfter : ℚ) (s : Process T) (a : String) (p : ℕ) (now : ℚ) (log : List Entry) : Prop :=
  ∃ between older, log = between ++ .unborrowed p :: older ∧ FoundIdle evictAfter a p now older ∧
    ∀ id t b, s.place id = .taken p t b → .taken id p ∈ between

/-- What was found of the pools that a look is about to close, and of those that one closed, from which no session was
taken after that. -/
structure History (evictAfter : ℚ) (s : Process T) : Prop where
  used : ∀ a u, s.lastUsed.get a = some u → lastUse a s.log = some u
  measures : ∀ t now a p pools, s.point t = .measures now a p pools → FoundIdle evictAfter a p now s.log
  closes : ∀ t now a p pools, s.point t = .closes now a p pools → FoundUnborrowed evictAfter s a p now s.log
  evicted : ∀ p, s.closed p = some .evicted → ∃ newer a now log, s.log = newer ++ .evicted a p now :: log ∧
    FoundUnborrowed evictAfter s a p now log ∧ ∀ id, .taken id p ∉ newer

theorem FoundIdle.append {log : List Entry} (h : FoundIdle evictAfter a p now log) (new : List Entry) :
    FoundIdle evictAfter a p now (new ++ log) := by
  obtain ⟨newer, older, u, rfl, hlast, hle⟩ := h
  exact ⟨new ++ newer, older, u, (List.append_assoc ..).symm, hlast, hle⟩

omit [DecidableEq T] in
theorem FoundUnborrowed.append {log : List Entry} (h : FoundUnborrowed evictAfter s a p now log) (new : List Entry)
    (htaken : ∀ id t b, s'.place id = .taken p t b → (∃ t b, s.place id = .taken p t b) ∨ .taken id p ∈ new) :
    FoundUnborrowed evictAfter s' a p now (new ++ log) := by
  obtain ⟨between, older, rfl, hidle, hold⟩ := h
  refine ⟨new ++ between, older, (List.append_assoc ..).symm, hidle, fun id t b hid => ?_⟩
  rcases htaken id t b hid with ⟨t', b', hid'⟩ | hmem
  · exact List.mem_append_right _ (hold id t' b' hid')
  · exact List.mem_append_left _ hmem

omit [DecidableEq T] in
/-- The history goes on: a session is taken from a pool that is open, and a pool is closed when it was found idle. -/
theorem History.next (h : History evictAfter s) (new : List Entry) (hlog : s'.log = new ++ s.log)
    (hused : ∀ a u, s'.lastUsed.get a = some u → lastUse a s'.log = some u)
    (htaken : ∀ id p t b, s'.place id = .taken p t b → (∃ t b, s.place id = .taken p t b) ∨ .taken id p ∈ new)
    (hopen : ∀ id p, .taken id p ∈ new → s.closed p = none)
    (hmeasures : ∀ t now a p pools, s'.point t = .measures now a p pools →
      s.point t = .measures now a p pools ∨ FoundIdle evictAfter a p now s'.log)
    (hcloses : ∀ t now a p pools, s'.point t = .closes now a p pools →
      s.point t = .closes now a p pools ∨ FoundUnborrowed evictAfter s' a p now s'.log)
    (hclosed : ∀ p, s'.closed p = some .evicted → s.closed p = some .evicted ∨ ∃ a now log,
      s'.log = .evicted a p now :: log ∧ FoundUnborrowed evictAfter s' a p now log) : History evictAfter s' := by
  refine ⟨hused, fun t now a p pools ht => ?_, fun t now a p pools ht => ?_, fun p hp => ?_⟩
  · rcases hmeasures t now a p pools ht with hold | hfound
    · rw [hlog]
      exact (h.measures t now a p pools hold).append new
    · exact hfound
  · rcases hcloses t now a p pools ht with hold | hfound
    · rw [hlog]
      exact (h.closes t now a p pools hold).append new fun id => htaken id p
    · exact hfound
  · rcases hclosed p hp with hold | ⟨a, now, log, hlog', hfound⟩
    · obtain ⟨newer, a, now, log, heq, hfound, hnone⟩ := h.evicted p hold
      have hnew : ∀ id, .taken id p ∉ new := fun id hid => by
        rw [hopen id p hid] at hold
        cases hold
      refine ⟨new ++ newer, a, now, log, by rw [hlog, heq, List.append_assoc], ?_, fun id hid => ?_⟩
      · refine hfound.append [] fun id t b hid => .inl ?_
        exact (htaken id p t b hid).resolve_right (hnew id)
      · exact (List.mem_append.mp hid).elim (hnew id) (hnone id)
    · exact ⟨[], a, now, log, hlog', hfound, fun _ hid => (List.not_mem_nil hid).elim⟩

/-! ## The times -/

/-- The time a lookup has read. -/
def Point.time : Point → Option ℚ
  | .touches _ now => some now
  | .compares now => some now
  | .renews now => some now
  | .awaits now => some now
  | .evicts now _ => some now
  | .measures now _ _ _ => some now
  | .closes now _ _ _ => some now
  | _ => none

/-- The times that were read are before the clock; the one that is written for an alias is before it was written. -/
structure Clocked (s : Process T) : Prop where
  check : s.lastEvictionCheck ≤ s.clock
  read : ∀ t now, (s.point t).time = some now → now ≤ s.clock
  used : ∀ a u, s.lastUsed.get a = some u → u ≤ s.usedAt a

/-- The time of a look that is to come to a pool. -/
def Point.faces (entry : String × ℕ) : Point → Option ℚ
  | .awaits now => some now
  | .evicts now pools => if pools.contains entry then some now else none
  | .measures now dbAlias pool pools => if ((dbAlias, pool) :: pools).contains entry then some now else none
  | .closes now dbAlias pool pools => if ((dbAlias, pool) :: pools).contains entry then some now else none
  | _ => none

theorem listed_iff {entry : String × ℕ} {now n : ℚ} {pools : List (String × ℕ)} :
    (if pools.contains entry then some now else none) = some n ↔ n = now ∧ entry ∈ pools := by
  rw [Option.ite_none_right_eq_some, List.contains_eq_mem, decide_eq_true_eq, Option.some_inj]
  exact ⟨fun h => ⟨h.2.symm, h.1⟩, fun h => ⟨h.2, h.1.symm⟩⟩

theorem Point.faces_evicts {entry : String × ℕ} {now n : ℚ} {pools : List (String × ℕ)} :
    (Point.evicts now pools).faces entry = some n ↔ n = now ∧ entry ∈ pools := listed_iff

theorem Point.faces_measures {entry : String × ℕ} {now n : ℚ} {dbAlias : String} {pool : ℕ}
    {pools : List (String × ℕ)} :
    (Point.measures now dbAlias pool pools).faces entry = some n ↔ n = now ∧ entry ∈ (dbAlias, pool) :: pools :=
  listed_iff

theorem Point.faces_closes {entry : String × ℕ} {now n : ℚ} {dbAlias : String} {pool : ℕ}
    {pools : List (String × ℕ)} :
    (Point.closes now dbAlias pool pools).faces entry = some n ↔ n = now ∧ entry ∈ (dbAlias, pool) :: pools :=
  listed_iff

/-- A pool none of whose sessions is taken is one that a look is to come to, or was in use after the last look, or
`evictAfter` before it. -/
def Due (evictAfter : ℚ) (s : Process T) : Prop :=
  ∀ a p u, s.connectionPools.get a = some p → s.lastUsed.get a = some u → (∀ id t b, s.place id ≠ .taken p t b) →
    (∃ t now, (s.point t).faces (a, p) = some now ∧ s.lastEvictionCheck ≤ now) ∨
      s.lastEvictionCheck < s.usedAt a + evictAfter ∨ s.lastEvictionCheck ≤ s.freed p

/-- The history and the times, along a run. -/
structure Timed (evictAfter : ℚ) (s : Process T) : Prop where
  history : History evictAfter s
  clocked : Clocked s
  due : Due evictAfter s

omit [DecidableEq T] in
theorem timed_start (evictAfter clock : ℚ) : Timed evictAfter (Process.start clock : Process T) where
  history := ⟨fun _ _ h => (by cases h), fun _ _ _ _ _ h => (by cases h), fun _ _ _ _ _ h => (by cases h),
    fun _ h => (by cases h)⟩
  clocked := ⟨le_rfl, fun _ _ h => (by cases h), fun _ _ h => (by cases h)⟩
  due _ _ _ h := by cases h

omit [DecidableEq T] in
/-- Where the looks stay as they are, a pool that is due stays so. -/
theorem Due.next (h : Due evictAfter s) (hcheck : s'.lastEvictionCheck = s.lastEvictionCheck)
    (hone : ∀ a p u, s'.connectionPools.get a = some p → s'.lastUsed.get a = some u →
      (∀ id t b, s'.place id ≠ .taken p t b) →
      (s.lastEvictionCheck < s'.usedAt a + evictAfter ∨ s.lastEvictionCheck ≤ s'.freed p) ∨
      s.connectionPools.get a = some p ∧ (∃ u, s.lastUsed.get a = some u) ∧ (∀ id t b, s.place id ≠ .taken p t b) ∧
        s'.usedAt a = s.usedAt a ∧ s'.freed p = s.freed p ∧
        ∀ t now, (s.point t).faces (a, p) = some now → s.lastEvictionCheck ≤ now →
          (s'.point t).faces (a, p) = some now ∨
            s.lastEvictionCheck < s.usedAt a + evictAfter ∨ s.lastEvictionCheck ≤ s.freed p) :
    Due evictAfter s' := by
  intro a p u hget hlast hfree
  rw [hcheck]
  rcases hone a p u hget hlast hfree with hsettled | ⟨hget, ⟨u', hlast⟩, hfree, hused, hfreed, hfaces⟩
  · exact .inr hsettled
  · rw [hused, hfreed]
    rcases h a p u' hget hlast hfree with ⟨t, now, hface, hle⟩ | hsettled
    · exact (hfaces t now hface hle).imp_left fun hface => ⟨t, now, hface, hle⟩
    · exact .inr hsettled

/-! ## The actions of a thread -/

/-- What every action but a lookup does to the times and to the sessions. -/
structure Later (s s' : Process T) : Prop where
  check : s'.lastEvictionCheck = s.lastEvictionCheck
  clock : s'.clock = s.clock
  log : s'.log = s.log
  used : ∀ a u, s'.lastUsed.get a = some u → s.lastUsed.get a = some u
  usedAt : s'.usedAt = s.usedAt
  freed : ∀ p, s'.freed p = s.freed p ∨ s'.freed p = s.clock
  pools : ∀ a p, s'.connectionPools.get a = some p → s.connectionPools.get a = some p ∨ s'.freed p = s.clock
  before : ∀ id p t a, s'.place id = .taken p t a → s.place id = .taken p t a
  taken : ∀ id p t a, s.place id = .taken p t a → s'.place id = .taken p t a ∨ s'.freed p = s.clock
  evicted : ∀ p, s'.closed p = some .evicted → s.closed p = some .evicted

omit [DecidableEq T] in
theorem Later.of_eq (hcheck : s'.lastEvictionCheck = s.lastEvictionCheck) (hclock : s'.clock = s.clock)
    (hlog : s'.log = s.log) (hused : s'.lastUsed = s.lastUsed) (husedAt : s'.usedAt = s.usedAt)
    (hfreed : s'.freed = s.freed) (hpools : s'.connectionPools = s.connectionPools) (hplace : s'.place = s.place)
    (hclosed : s'.closed = s.closed) : Later s s' where
  check := hcheck
  clock := hclock
  log := hlog
  used _ _ h := hused ▸ h
  usedAt := husedAt
  freed p := .inl (congrFun hfreed p)
  pools _ _ h := .inl (hpools ▸ h)
  before _ _ _ _ h := hplace ▸ h
  taken _ _ _ _ h := .inl (hplace ▸ h)
  evicted _ h := hclosed ▸ h

omit [DecidableEq T] in
theorem Later.trans {s'' : Process T} (h : Later s s') (h' : Later s' s'') : Later s s'' where
  check := h'.check.trans h.check
  clock := h'.clock.trans h.clock
  log := h'.log.trans h.log
  used a u hu := h.used a u (h'.used a u hu)
  usedAt := h'.usedAt.trans h.usedAt
  freed p := by
    rcases h'.freed p with heq | heq
    · rw [heq]
      exact h.freed p
    · exact .inr (heq.trans h.clock)
  pools a p hget := by
    rcases h'.pools a p hget with hget | heq
    · refine (h.pools a p hget).imp_right fun heq => ?_
      rcases h'.freed p with heq' | heq'
      · exact heq'.trans heq
      · exact heq'.trans h.clock
    · exact .inr (heq.trans h.clock)
  before id p t a hid := h.before id p t a (h'.before id p t a hid)
  taken id p t a hid := by
    rcases h.taken id p t a hid with hid | heq
    · exact (h'.taken id p t a hid).imp_right fun heq => heq.trans h.clock
    · rcases h'.freed p with heq' | heq'
      · exact .inr (heq'.trans heq)
      · exact .inr (heq'.trans h.clock)
  evicted p hp := h.evicted p (h'.evicted p hp)

/-- A point that is in no look. -/
def Point.Looks : Point → Prop
  | .awaits _ => True
  | .evicts _ _ => True
  | .measures _ _ _ _ => True
  | .closes _ _ _ _ => True
  | _ => False

omit [DecidableEq T] in
/-- The times, when a thread that is in no look does something and goes into none. -/
theorem Timed.later (h : Timed evictAfter s) (hlater : Later s s')
    (hpoint : ∀ t, s'.point t = s.point t ∨
      s.point t = .free ∧ ¬ (s'.point t).Looks ∧ (s'.point t).time = none) : Timed evictAfter s' := by
  have hsame {t : T} {x : Point} (hx : s.point t = x) (hne : x ≠ .free) : s'.point t = x :=
    ((hpoint t).resolve_right fun hfree => hne (hx.symm.trans hfree.1)).trans hx
  have hback {t : T} {x : Point} (hx : s'.point t = x) (hlooks : x.Looks) : s.point t = x := by
    rcases hpoint t with heq | ⟨-, hnot, -⟩
    · exact heq.symm.trans hx
    · exact absurd (hx ▸ hlooks) hnot
  refine ⟨?_, ⟨?_, fun t now hnow => ?_, fun a u hu => ?_⟩, ?_⟩
  · refine h.history.next [] (by rw [hlater.log]; rfl) (fun a u hu => ?_)
      (fun id p t b hid => .inl ⟨t, b, hlater.before id p t b hid⟩) (fun id p hid => (List.not_mem_nil hid).elim)
      (fun t now a p pools ht => .inl (hback ht True.intro)) (fun t now a p pools ht => .inl (hback ht True.intro))
      fun p hp => .inl (hlater.evicted p hp)
    rw [hlater.log]
    exact h.history.used a u (hlater.used a u hu)
  · rw [hlater.check, hlater.clock]
    exact h.clocked.check
  · rw [hlater.clock]
    rcases hpoint t with heq | ⟨-, -, hnone⟩
    · exact h.clocked.read t now (heq ▸ hnow)
    · rw [hnone] at hnow
      cases hnow
  · rw [hlater.usedAt]
    exact h.clocked.used a u (hlater.used a u hu)
  · refine h.due.next hlater.check fun a p u hget hlast hfree => ?_
    by_cases hnow : s'.freed p = s.clock
    · exact .inl (.inr (hnow ▸ h.clocked.check))
    · refine .inr ⟨(hlater.pools a p hget).resolve_right hnow, ⟨u, hlater.used a u hlast⟩, fun id t b hid => ?_,
        congrFun hlater.usedAt a, (hlater.freed p).resolve_right hnow, fun t now hface _ => .inl ?_⟩
      · exact hfree id t b ((hlater.taken id p t b hid).resolve_right hnow)
      · rw [hsame rfl fun hpt => by rw [hpt] at hface; cases hface]
        exact hface

theorem later_setConnection (x : Option (Option ℕ)) : Later s (s.setConnection t a x) :=
  .of_eq rfl rfl rfl rfl rfl rfl rfl rfl rfl

theorem later_setPhase (x : Phase) : Later s (s.setPhase t x) := .of_eq rfl rfl rfl rfl rfl rfl rfl rfl rfl

theorem later_setPoint (x : Point) : Later s (s.setPoint t x) := .of_eq rfl rfl rfl rfl rfl rfl rfl rfl rfl

omit [DecidableEq T] in
theorem later_pool (a : String) : Later s (s.pool a).1 := by
  unfold Process.pool
  cases s.connectionPools.get a with
  | some p => exact .of_eq rfl rfl rfl rfl rfl rfl rfl rfl rfl
  | none =>
    have hfreed : ∀ p, Function.update s.freed s.nextPool s.clock p = s.freed p ∨
        Function.update s.freed s.nextPool s.clock p = s.clock := by
      intro p
      by_cases hp : p = s.nextPool
      · exact .inr (by rw [hp, Function.update_self])
      · exact .inl (Function.update_of_ne hp ..)
    refine ⟨rfl, rfl, rfl, fun _ _ hu => hu, rfl, hfreed, fun b p hget => ?_, fun _ _ _ _ hid => hid,
      fun _ _ _ _ hid => .inl hid, fun _ hp => hp⟩
    have hset : (s.connectionPools.set a s.nextPool).get b = some p := hget
    rw [Dict.get_set] at hset
    split_ifs at hset
    · obtain rfl := Option.some.inj hset
      exact .inr (Function.update_self ..)
    · exact .inl hset

theorem later_close (s : Process T) (t : T) (a : String) : Later s (s.close t a) := by
  unfold Process.close
  split
  · rename_i id hc
    split
    · rename_i p t' a' hplace
      refine Later.trans ?_ (later_setConnection _)
      have hfreed : ∀ q, Function.update s.freed p s.clock q = s.freed q ∨
          Function.update s.freed p s.clock q = s.clock := by
        intro q
        by_cases hq : q = p
        · exact .inr (by rw [hq, Function.update_self])
        · exact .inl (Function.update_of_ne hq ..)
      have hput (id' : ℕ) : (s.putBack p id).place id' = if id' = id then
          (if s.closed p = none ∧ s.terminated id = false then Place.idle p else .closed) else s.place id' :=
        Process.place_setPlace _ id'
      refine ⟨rfl, rfl, rfl, fun _ _ hu => hu, rfl, hfreed, fun _ _ hget => .inl hget, fun id' q t' a' hq => ?_,
        fun id' q t' a' hq => ?_, fun _ hp => hp⟩
      · rw [hput] at hq
        split_ifs at hq
        exact hq
      · by_cases heq : id' = id
        · subst heq
          rw [hplace] at hq
          obtain ⟨rfl, rfl, rfl⟩ := Place.taken.inj hq
          exact .inr (Function.update_self ..)
        · exact .inl (by rw [hput, if_neg heq, hq])
    · exact later_setConnection _
  · exact .of_eq rfl rfl rfl rfl rfl rfl rfl rfl rfl

theorem later_forget (s : Process T) (t : T) (a : String) : Later s (s.forget t a) :=
  ((later_close s t a).trans (later_setConnection _)).trans (later_setPhase _)

theorem later_forgetPool (s : Process T) (a : String) : Later s (s.forgetPool a) := by
  have hget : ∀ b p, (s.connectionPools.pop a).get b = some p → s.connectionPools.get b = some p := by
    intro b p hb
    rw [Dict.get_pop] at hb
    split_ifs at hb
    exact hb
  have hused : ∀ b u, (s.lastUsed.pop a).get b = some u → s.lastUsed.get b = some u := by
    intro b u hb
    rw [Dict.get_pop] at hb
    split_ifs at hb
    exact hb
  unfold Process.forgetPool
  cases s.connectionPools.get a with
  | none =>
    exact ⟨rfl, rfl, rfl, hused, rfl, fun _ => .inl rfl, fun b p hb => .inl (hget b p hb), fun _ _ _ _ hid => hid,
      fun _ _ _ _ hid => .inl hid, fun _ hp => hp⟩
  | some p =>
    refine ⟨rfl, rfl, rfl, hused, rfl, fun _ => .inl rfl, fun b p hb => .inl (hget b p hb),
      fun _ _ _ _ hid => (place_closePool_taken .forgotten).mp hid,
      fun _ _ _ _ hid => .inl ((place_closePool_taken .forgotten).mpr hid), fun q hq => ?_⟩
    have hupdate : Function.update s.closed p (some .forgotten) q = some .evicted := hq
    by_cases hqp : q = p
    · rw [hqp, Function.update_self] at hupdate
      cases hupdate
    · rwa [Function.update_of_ne hqp] at hupdate

omit [DecidableEq T] in
theorem later_setConfig {value : Bool} (hstep : s.setConfig t a value = some s') : Later s s' := by
  unfold Process.setConfig at hstep
  split at hstep
  · split_ifs at hstep
    obtain rfl := Option.some.inj hstep
    exact .of_eq rfl rfl rfl rfl rfl rfl rfl rfl rfl
  · cases hstep

/-- An action that is no lookup. -/
theorem later_act {action : Action} (hstep : s.act t action = some s') (hlookup : ∀ a now, action ≠ .getItem a now) :
    Later s s' := by
  cases action with
  | getItem a now => exact absurd rfl (hlookup a now)
  | getPool a =>
    simp only [Process.act, Process.getPool] at hstep
    split_ifs at hstep
    obtain rfl := Option.some.inj hstep
    exact (later_pool a).trans (later_setPoint _)
  | close a =>
    simp only [Process.act] at hstep
    split_ifs at hstep
    obtain rfl := Option.some.inj hstep
    exact later_close s t a
  | forget a =>
    simp only [Process.act] at hstep
    split_ifs at hstep
    obtain rfl := Option.some.inj hstep
    exact later_forget s t a
  | forgetPool =>
    simp only [Process.act] at hstep
    split at hstep
    · split_ifs at hstep
      obtain rfl := Option.some.inj hstep
      exact (later_forgetPool s _).trans (later_setPhase _)
    · cases hstep
  | setLockTimeout a refused =>
    simp only [Process.act] at hstep
    split_ifs at hstep
    · obtain rfl := Option.some.inj hstep
      exact later_setPhase _
    · obtain rfl := Option.some.inj hstep
      cases hset : s.setConfig t a true with
      | none => exact later_setPhase _
      | some s₁ => exact (later_setConfig hset).trans (later_setPhase _)
  | resetLockTimeout refused =>
    simp only [Process.act] at hstep
    split at hstep
    · split at hstep
      · rename_i hreset
        obtain rfl := Option.some.inj hstep
        split_ifs at hreset
        exact (later_setConfig hreset).trans (later_setPhase _)
      · obtain rfl := Option.some.inj hstep
        exact later_forget s t _
    · cases hstep

/-- A lookup, up to the reading of the clock. -/
theorem Timed.getItem (h : Timed evictAfter s) (hfree : s.point t = .free) (hclock : s.clock ≤ now) :
    Timed evictAfter (s.getItem t a now) := by
  have hpoint (t' : T) : (s.getItem t a now).point t' = if t' = t then .touches a now else s.point t' :=
    point_setPoint _
  have hback {t' : T} {x : Point} (hx : (s.getItem t a now).point t' = x) (hlooks : x.Looks) : s.point t' = x := by
    rw [hpoint] at hx
    split_ifs at hx
    · rw [← hx] at hlooks
      exact hlooks.elim
    · exact hx
  refine ⟨?_, ⟨h.clocked.check.trans hclock, fun t' u hu => ?_, h.clocked.used⟩, ?_⟩
  · exact h.history.next [] rfl h.history.used (fun id p t b hid => .inl ⟨t, b, hid⟩)
      (fun id p hid => (List.not_mem_nil hid).elim) (fun t now a p pools ht => .inl (hback ht True.intro))
      (fun t now a p pools ht => .inl (hback ht True.intro)) fun p hp => .inl hp
  · rw [hpoint] at hu
    split_ifs at hu
    · exact (Option.some.inj hu).ge
    · exact (h.clocked.read t' u hu).trans hclock
  · refine h.due.next rfl fun b p u hget hlast hnone => .inr ⟨hget, ⟨u, hlast⟩, hnone, rfl, rfl, fun t' n hface _ => ?_⟩
    refine .inl ?_
    rw [hpoint, if_neg]
    · exact hface
    · rintro rfl
      rw [hfree] at hface
      cases hface

theorem Timed.act (h : Timed evictAfter s) (hfree : s.point t = .free) {action : Action}
    (hstep : s.act t action = some s') : Timed evictAfter s' := by
  obtain hown | ⟨a, now, -, hclock, rfl⟩ | ⟨a, rfl, -, rfl⟩ | ⟨a, rfl, -, -, rfl⟩ := act_cases hstep
  · by_cases hlookup : ∃ a now, action = .getItem a now
    · obtain ⟨a, now, rfl⟩ := hlookup
      simp only [Process.act] at hstep
      split_ifs at hstep with hclock
      obtain rfl := Option.some.inj hstep
      exact h.getItem hfree hclock
    · have hlater := later_act hstep fun a now heq => hlookup ⟨a, now, heq⟩
      exact h.later hlater fun t' => .inl (congrFun hown.point t')
  · exact h.getItem hfree hclock
  · refine h.later (later_act hstep fun _ _ heq => by cases heq) fun t' => ?_
    rw [point_setPoint, (pool_same s a).1]
    split_ifs with ht
    · exact .inr ⟨ht ▸ hfree, fun hlooks => hlooks, rfl⟩
    · exact .inl rfl
  · refine h.later (later_act hstep fun _ _ heq => by cases heq) fun t' => .inl ?_
    show (s.forgetPool a).point t' = _
    unfold Process.forgetPool
    cases s.connectionPools.get a <;> rfl

/-! ## The steps of a look -/

omit [DecidableEq T] in
theorem borrowed_pos_iff : 0 < s.borrowed p ↔ ∃ id t a, id < s.nextSession ∧ s.place id = .taken p t a := by
  rw [Process.borrowed, List.countP_pos_iff]
  constructor
  · rintro ⟨id, hlt, hid⟩
    split at hid
    · rename_i q t a hplace
      obtain rfl : q = p := of_decide_eq_true hid
      exact ⟨id, t, a, List.mem_range.mp hlt, hplace⟩
    · cases hid
  · rintro ⟨id, t, a, hlt, hplace⟩
    exact ⟨id, List.mem_range.mpr hlt, by simp [hplace]⟩

/-- The history and the times, when a thread goes on; `hidle` and `hunborrowed` are about the pool it is at then, and
`hfaces` about those it is to come to. -/
theorem Timed.setPoint (h : Timed evictAfter s) {x : Point} (htime : ∀ now, x.time = some now → now ≤ s.clock)
    (hidle : ∀ now a p pools, x = .measures now a p pools → FoundIdle evictAfter a p now s.log)
    (hunborrowed : ∀ now a p pools, x = .closes now a p pools → FoundUnborrowed evictAfter s a p now s.log)
    (hfaces : ∀ a p u, s.connectionPools.get a = some p → s.lastUsed.get a = some u →
      (∀ id t b, s.place id ≠ .taken p t b) → ∀ now, (s.point t).faces (a, p) = some now →
      s.lastEvictionCheck ≤ now →
        x.faces (a, p) = some now ∨ s.lastEvictionCheck < s.usedAt a + evictAfter ∨ s.lastEvictionCheck ≤ s.freed p) :
    Timed evictAfter (s.setPoint t x) := by
  refine ⟨⟨h.history.used, fun t' now a p pools ht => ?_, fun t' now a p pools ht => ?_, h.history.evicted⟩,
    ⟨h.clocked.check, fun t' now hnow => ?_, h.clocked.used⟩, ?_⟩
  · rw [point_setPoint] at ht
    split_ifs at ht
    · exact hidle now a p pools ht
    · exact h.history.measures t' now a p pools ht
  · rw [point_setPoint] at ht
    split_ifs at ht
    · exact hunborrowed now a p pools ht
    · exact h.history.closes t' now a p pools ht
  · rw [point_setPoint] at hnow
    split_ifs at hnow
    · exact htime now hnow
    · exact h.clocked.read t' now hnow
  · refine h.due.next rfl fun a p u hget hlast hfree =>
      .inr ⟨hget, ⟨u, hlast⟩, hfree, rfl, rfl, fun t' now hface hle => ?_⟩
    rw [point_setPoint]
    split_ifs with ht
    · exact hfaces a p u hget hlast hfree now (ht ▸ hface) hle
    · exact .inl hface

/-- A thread goes on that is to come to no pool, as it was before. -/
theorem Timed.setPoint_of_not_looks (h : Timed evictAfter s) {x : Point} (hlooks : ¬ x.Looks)
    (hnow : ∀ entry, (s.point t).faces entry = none) (htime : ∀ now, x.time = some now → now ≤ s.clock) :
    Timed evictAfter (s.setPoint t x) := by
  refine h.setPoint htime (fun _ _ _ _ hx => ?_) (fun _ _ _ _ hx => ?_) fun a p _ _ _ _ n hface _ => ?_
  · exact (hlooks (by rw [hx]; exact True.intro)).elim
  · exact (hlooks (by rw [hx]; exact True.intro)).elim
  · rw [hnow] at hface
    cases hface

/-- A thread in the loop goes on to the rest of the pools; `hrest` is about the one it was at. -/
theorem Timed.evicts (h : Timed evictAfter s) {pools : List (String × ℕ)} (hread : now ≤ s.clock)
    (hrest : ∀ a p u, s.connectionPools.get a = some p → s.lastUsed.get a = some u →
      (∀ id t b, s.place id ≠ .taken p t b) → ∀ n, (s.point t).faces (a, p) = some n → s.lastEvictionCheck ≤ n →
      n = now ∧ (a, p) ∈ pools ∨ s.lastEvictionCheck < s.usedAt a + evictAfter ∨ s.lastEvictionCheck ≤ s.freed p) :
    Timed evictAfter (s.setPoint t (.evicts now pools)) := by
  refine h.setPoint (fun n hn => ?_) (fun _ _ _ _ hx => ?_) (fun _ _ _ _ hx => ?_)
    fun a p u hget hlast hfree n hface hle => ?_
  · obtain rfl := Option.some.inj hn
    exact hread
  · cases hx
  · cases hx
  · rcases hrest a p u hget hlast hfree n hface hle with ⟨rfl, hmem⟩ | hsettled
    · exact .inl (Point.faces_evicts.mpr ⟨rfl, hmem⟩)
    · exact .inr hsettled

/-- The time is written for the alias. -/
theorem Timed.touches (h : Timed evictAfter s) (hafter : 0 < evictAfter) (hpoint : s.point t = .touches a now) :
    Timed evictAfter ({ s with
      lastUsed := s.lastUsed.set a now, usedAt := Function.update s.usedAt a s.clock,
      log := .used a now :: s.log }.setPoint t (.compares now)) := by
  have hread := h.clocked.read t now (by rw [hpoint]; rfl)
  refine Timed.setPoint_of_not_looks ?_ ?_ (fun entry => ?_) fun n hn => ?_
  · refine ⟨?_, ⟨h.clocked.check, h.clocked.read, fun b u hu => ?_⟩, ?_⟩
    · refine h.history.next [.used a now] rfl (fun b u hu => ?_) (fun id p t b hid => .inl ⟨t, b, hid⟩)
        (fun id p hid => by simp at hid) (fun _ _ _ _ _ ht => .inl ht) (fun _ _ _ _ _ ht => .inl ht) fun p hp => .inl hp
      have hset : (s.lastUsed.set a now).get b = some u := hu
      show (if a = b then some now else lastUse b s.log) = some u
      rw [Dict.get_set] at hset
      by_cases hab : b = a
      · rw [if_pos hab] at hset
        rw [if_pos hab.symm, hset]
      · rw [if_neg hab] at hset
        rw [if_neg (Ne.symm hab), h.history.used b u hset]
    · have hset : (s.lastUsed.set a now).get b = some u := hu
      show u ≤ Function.update s.usedAt a s.clock b
      rw [Dict.get_set] at hset
      by_cases hab : b = a
      · rw [if_pos hab] at hset
        rw [hab, Function.update_self, ← Option.some.inj hset]
        exact hread
      · rw [if_neg hab] at hset
        rw [Function.update_of_ne hab]
        exact h.clocked.used b u hset
    · refine h.due.next rfl fun b p u hget hlast hfree => ?_
      have hset : (s.lastUsed.set a now).get b = some u := hlast
      rw [Dict.get_set] at hset
      show (s.lastEvictionCheck < Function.update s.usedAt a s.clock b + evictAfter ∨ _) ∨
        _ ∧ _ ∧ _ ∧ Function.update s.usedAt a s.clock b = s.usedAt b ∧ _
      by_cases hab : b = a
      · rw [hab, Function.update_self]
        have hcheck := h.clocked.check
        exact .inl (.inl (by linarith))
      · rw [if_neg hab] at hset
        rw [Function.update_of_ne hab]
        exact .inr ⟨hget, ⟨u, hset⟩, hfree, rfl, rfl, fun _ _ hface _ => .inl hface⟩
  · exact fun hlooks => hlooks
  · show (s.point t).faces entry = none
    rw [hpoint]
    rfl
  · obtain rfl := Option.some.inj hn
    exact hread

/-- The time of a look is written: it is to come to every pool. -/
theorem Timed.renews (h : Timed evictAfter s) (hpoint : s.point t = .renews now) :
    Timed evictAfter ({ s with lastEvictionCheck := now }.setPoint t (.awaits now)) := by
  have hread := h.clocked.read t now (by rw [hpoint]; rfl)
  have hpt (t' : T) : ({ s with lastEvictionCheck := now }.setPoint t (.awaits now)).point t' =
      if t' = t then .awaits now else s.point t' := point_setPoint _
  refine ⟨⟨h.history.used, fun t' n a p pools ht => ?_, fun t' n a p pools ht => ?_, h.history.evicted⟩,
    ⟨hread, fun t' n hn => ?_, h.clocked.used⟩, fun a p u _ _ _ => .inl ⟨t, now, ?_, le_rfl⟩⟩
  · rw [hpt] at ht
    split_ifs at ht
    exact h.history.measures t' n a p pools ht
  · rw [hpt] at ht
    split_ifs at ht
    exact h.history.closes t' n a p pools ht
  · rw [hpt] at hn
    split_ifs at hn
    · obtain rfl := Option.some.inj hn
      exact hread
    · exact h.clocked.read t' n hn
  · rw [hpt, if_pos rfl]
    rfl

/-- The pool is closed: no session of it is taken after that. -/
theorem Timed.closes (h : Timed evictAfter s) {pools : List (String × ℕ)} (hpoint : s.point t = .closes now a p pools) :
    Timed evictAfter ({ s.closePool p .evicted with
      connectionPools := s.connectionPools.pop a, log := .evicted a p now :: s.log }.setPoint t (.evicts now pools)) := by
  have hread := h.clocked.read t now (by rw [hpoint]; rfl)
  have hfound := h.history.closes t now a p pools hpoint
  have hplace : ∀ id q t b, (s.closePool p .evicted).place id = .taken q t b ↔ s.place id = .taken q t b :=
    fun _ _ _ _ => place_closePool_taken .evicted
  have hpop : ∀ b q, (s.connectionPools.pop a).get b = some q → b ≠ a ∧ s.connectionPools.get b = some q := by
    intro b q hb
    rw [Dict.get_pop] at hb
    split_ifs at hb with hba
    exact ⟨hba, hb⟩
  refine Timed.evicts ?_ hread fun b q u hget _ _ n hface _ => .inl ?_
  · refine ⟨?_, ⟨h.clocked.check, h.clocked.read, h.clocked.used⟩, ?_⟩
    · refine h.history.next [.evicted a p now] rfl h.history.used
        (fun id q t b hid => .inl ⟨t, b, (hplace id q t b).mp hid⟩) (fun id q hid => by simp at hid)
        (fun _ _ _ _ _ ht => .inl ht) (fun _ _ _ _ _ ht => .inl ht) fun q hq => ?_
      have hupdate : Function.update s.closed p (some .evicted) q = some .evicted := hq
      by_cases hqp : q = p
      · refine .inr ⟨a, now, s.log, by rw [hqp], ?_⟩
        rw [hqp]
        exact hfound.append [] fun id t b hid => .inl ⟨t, b, (hplace id p t b).mp hid⟩
      · rw [Function.update_of_ne hqp] at hupdate
        exact .inl hupdate
    · refine h.due.next rfl fun b q u hget hlast hfree => .inr ⟨(hpop b q hget).2, ⟨u, hlast⟩, fun id t b' hid => ?_,
        rfl, rfl, fun _ _ hface _ => .inl hface⟩
      exact hfree id t b' ((hplace id q t b').mpr hid)
  · have hface' : (s.point t).faces (b, q) = some n := hface
    have hne := (hpop b q hget).1
    rw [hpoint, Point.faces_closes] at hface'
    simpa only [List.mem_cons, Prod.mk.injEq, hne, false_and, false_or] using hface'

omit [DecidableEq T] in
/-- Who has the lock is no part of the history. -/
theorem Timed.setLock (h : Timed evictAfter s) (lock : Option T) : Timed evictAfter { s with lock := lock } :=
  ⟨⟨h.history.1, h.history.2, h.history.3, h.history.4⟩, ⟨h.clocked.1, h.clocked.2, h.clocked.3⟩, h.due⟩

omit [DecidableEq T] in
/-- An entry of the log that is no use, no eviction and no taking. -/
theorem Timed.logs (h : Timed evictAfter s) (entry : Entry) (hused : ∀ a, lastUse a (entry :: s.log) = lastUse a s.log)
    (htaken : ∀ id p, .taken id p ≠ entry) : Timed evictAfter { s with log := entry :: s.log } := by
  refine ⟨h.history.next [entry] rfl (fun a u hu => ?_) (fun id p t b hid => .inl ⟨t, b, hid⟩)
    (fun id p hid => absurd (List.mem_singleton.mp hid) (htaken id p)) (fun _ _ _ _ _ ht => .inl ht)
    (fun _ _ _ _ _ ht => .inl ht) (fun p hp => .inl hp), ⟨h.clocked.1, h.clocked.2, h.clocked.3⟩, h.due⟩
  exact (hused a).trans (h.history.used a u hu)

/-- The loop comes to a pool, and finds its time old enough, or not. -/
theorem Timed.meets (h : Timed evictAfter s) (hafter : 0 < evictAfter) {entry : String × ℕ}
    {pools : List (String × ℕ)} (hpoint : s.point t = .evicts now (entry :: pools))
    (hstep : s.advance evictAfter t = some s') : Timed evictAfter s' := by
  have hread := h.clocked.read t now (by rw [hpoint]; rfl)
  simp only [Process.advance, hpoint] at hstep
  split_ifs at hstep with hused
  · obtain rfl := Option.some.inj hstep
    refine h.evicts hread fun a p u hget hlast _ n hface hle => ?_
    rw [hpoint] at hface
    obtain ⟨rfl, hmem⟩ := Point.faces_evicts.mp hface
    rcases List.mem_cons.mp hmem with rfl | hmem
    · -- the time that was written is not old enough
      rw [hlast, Option.getD_some] at hused
      have hwritten := h.clocked.used a u hlast
      exact .inr (.inl (by linarith))
    · exact .inl ⟨rfl, hmem⟩
  · obtain rfl := Option.some.inj hstep
    cases hlast : s.lastUsed.get entry.1 with
    | none =>
      rw [hlast, Option.getD_none, sub_self] at hused
      exact absurd hafter hused
    | some u =>
      rw [hlast, Option.getD_some, not_lt] at hused
      refine (h.logs (.idle entry.1 entry.2 now) (fun _ => rfl) fun _ _ heq => by cases heq).setPoint (fun n hn => ?_)
        (fun n a p pools' hx => ?_) (fun _ _ _ _ hx => ?_) fun a p u _ _ _ n hface _ => .inl ?_
      · obtain rfl := Option.some.inj hn
        exact hread
      · obtain ⟨rfl, rfl, rfl, rfl⟩ := Point.measures.inj hx
        exact ⟨[], s.log, u, rfl, h.history.used _ u hlast, hused⟩
      · cases hx
      · have hface' : (s.point t).faces (a, p) = some n := hface
        rw [hpoint] at hface'
        exact hface'

theorem Timed.advance (h : Timed evictAfter s) (hafter : 0 < evictAfter)
    (hstep : s.advance evictAfter t = some s') : Timed evictAfter s' := by
  have hstep' := hstep
  unfold Process.advance at hstep
  split at hstep
  case h_1 a now hpoint =>
    obtain rfl := Option.some.inj hstep
    exact h.touches hafter hpoint
  case h_2 now hpoint =>
    obtain rfl := Option.some.inj hstep
    have hread := h.clocked.read t now (by rw [hpoint]; rfl)
    have hnone : ∀ entry, (s.point t).faces entry = none := fun entry => by rw [hpoint]; rfl
    split_ifs
    · refine h.setPoint_of_not_looks (fun hlooks => hlooks) hnone fun n hn => ?_
      obtain rfl := Option.some.inj hn
      exact hread
    · exact h.setPoint_of_not_looks (fun hlooks => hlooks) hnone fun n hn => by cases hn
  case h_3 now hpoint =>
    obtain rfl := Option.some.inj hstep
    exact h.renews hpoint
  case h_4 now hpoint =>
    split_ifs at hstep
    obtain rfl := Option.some.inj hstep
    refine (h.setLock (some t)).evicts (h.clocked.read t now (by rw [hpoint]; rfl)) fun a p u hget _ _ n hface _ =>
      .inl ?_
    have hface' : (s.point t).faces (a, p) = some n := hface
    rw [hpoint] at hface'
    exact ⟨(Option.some.inj hface').symm, Dict.mem_entries.mpr hget⟩
  case h_5 now hpoint =>
    obtain rfl := Option.some.inj hstep
    refine (h.setLock none).setPoint_of_not_looks (fun hlooks => hlooks) (fun entry => ?_) fun n hn => by cases hn
    show (s.point t).faces entry = none
    rw [hpoint]
    rfl
  case h_6 now entry pools hpoint => exact h.meets hafter hpoint hstep'
  case h_7 now a p pools hpoint =>
    obtain rfl := Option.some.inj hstep
    exact h.closes hpoint
  case h_8 => cases hstep

/-- The statistics of a pool are read. -/
theorem Timed.stats (h : Timed evictAfter s) (hinv : Inv s) {opening : Bool}
    (hstep : s.stats t opening = some s') : Timed evictAfter s' := by
  unfold Process.stats at hstep
  split at hstep
  case h_2 => cases hstep
  rename_i now a p pools hpoint
  have hread := h.clocked.read t now (by rw [hpoint]; rfl)
  -- the pools that the look is to come to, but for the one it is at
  have hrest : ∀ (b : String) (q : ℕ) n, (s.point t).faces (b, q) = some n → q ≠ p → n = now ∧ (b, q) ∈ pools := by
    intro b q n hface hne
    rw [hpoint, Point.faces_measures] at hface
    simpa only [List.mem_cons, Prod.mk.injEq, hne, and_false, false_or] using hface
  split_ifs at hstep with hopening hborrowed
  · obtain rfl := Option.some.inj hstep
    have hopens : Timed evictAfter { s with freed := Function.update s.freed p s.clock } := by
      refine ⟨⟨h.history.1, h.history.2, h.history.3, h.history.4⟩, ⟨h.clocked.1, h.clocked.2, h.clocked.3⟩, ?_⟩
      refine h.due.next rfl fun b q u hget hlast hfree => ?_
      show (_ ∨ s.lastEvictionCheck ≤ Function.update s.freed p s.clock q) ∨
        _ ∧ _ ∧ _ ∧ _ ∧ Function.update s.freed p s.clock q = s.freed q ∧ _
      by_cases hqp : q = p
      · rw [hqp, Function.update_self]
        exact .inl (.inr h.clocked.check)
      · rw [Function.update_of_ne hqp]
        exact .inr ⟨hget, ⟨u, hlast⟩, hfree, rfl, rfl, fun _ _ hface _ => .inl hface⟩
    refine hopens.evicts hread fun b q u _ _ _ n hface _ => ?_
    by_cases hqp : q = p
    · refine .inr (.inr ?_)
      show s.lastEvictionCheck ≤ Function.update s.freed p s.clock q
      rw [hqp, Function.update_self]
      exact h.clocked.check
    · exact .inl (hrest b q n hface hqp)
  · obtain rfl := Option.some.inj hstep
    obtain ⟨id, t', b', -, hid⟩ := borrowed_pos_iff.mp hborrowed
    refine h.evicts hread fun b q u _ _ hfree n hface _ => .inl (hrest b q n hface ?_)
    rintro rfl
    exact hfree id t' b' hid
  · obtain rfl := Option.some.inj hstep
    refine (h.logs (.unborrowed p) (fun _ => rfl) fun _ _ heq => by cases heq).setPoint (fun n hn => ?_)
      (fun _ _ _ _ hx => ?_) (fun n b q pools' hx => ?_) fun b q u _ _ _ n hface _ => .inl ?_
    · obtain rfl := Option.some.inj hn
      exact hread
    · cases hx
    · obtain ⟨rfl, rfl, rfl, rfl⟩ := Point.closes.inj hx
      refine ⟨[], s.log, rfl, h.history.measures t now a p pools hpoint, fun id t' b' hid => ?_⟩
      exact absurd (borrowed_pos_iff.mpr ⟨id, t', b', (hinv.taken id p t' b' hid).2.2.2, hid⟩) hborrowed
    · have hface' : (s.point t).faces (b, q) = some n := hface
      rw [hpoint] at hface'
      exact hface'

/-- A session is taken, from a pool that is open. -/
theorem Timed.take (h : Timed evictAfter s) (hopen : s.closed p = none)
    (hid : ∀ q t b, s.place id ≠ .taken q t b) : Timed evictAfter (s.take t a p id) := by
  have hplace : ∀ id', (s.take t a p id).place id' = if id' = id then .taken p t a else s.place id' := fun id' =>
    Process.place_setPlace _ id'
  refine ⟨?_, ⟨h.clocked.1, h.clocked.2, h.clocked.3⟩, ?_⟩
  · refine h.history.next [.taken id p] rfl h.history.used (fun id' q t' b hq => ?_) (fun id' q hq => ?_)
      (fun _ _ _ _ _ ht => .inl ht) (fun _ _ _ _ _ ht => .inl ht) fun q hq => .inl hq
    · rw [hplace] at hq
      split_ifs at hq with heq
      · obtain ⟨rfl, -, -⟩ := Place.taken.inj hq
        exact .inr (by rw [heq]; exact List.mem_singleton_self _)
      · exact .inl ⟨t', b, hq⟩
    · obtain ⟨-, rfl⟩ := Entry.taken.inj (List.mem_singleton.mp hq)
      exact hopen
  · refine h.due.next rfl fun b q u hget hlast hfree => .inr ⟨hget, ⟨u, hlast⟩, fun id' t' b' hq => ?_, rfl, rfl,
      fun _ _ hface _ => .inl hface⟩
    refine hfree id' t' b' ?_
    rw [hplace, if_neg, hq]
    rintro rfl
    exact hid q t' b' hq

theorem Timed.getconn (h : Timed evictAfter s) (hinv : Inv s) {answer : Process.Answer}
    (hstep : s.getconn t answer = some s') : Timed evictAfter s' := by
  unfold Process.getconn at hstep
  split at hstep
  case h_2 => cases hstep
  rename_i a p hpoint
  -- the thread has connected, and is in no look
  have hfree {s' : Process T} (h' : Timed evictAfter s') (hsame : s'.point t = s.point t) :
      Timed evictAfter (s'.setPoint t .free) := by
    refine h'.setPoint_of_not_looks (fun hlooks => hlooks) (fun entry => ?_) fun n hn => by cases hn
    rw [hsame, hpoint]
    rfl
  cases answer with
  | idle id =>
    simp only at hstep
    split_ifs at hstep with hid
    obtain rfl := Option.some.inj hstep
    exact hfree (h.take (hinv.idle id p hid.1).2.1 fun q t b hq => by rw [hid.1] at hq; cases hq) rfl
  | fresh =>
    simp only at hstep
    split_ifs at hstep with hopen
    obtain rfl := Option.some.inj hstep
    have hopens : Timed evictAfter { s with nextSession := s.nextSession + 1 } :=
      ⟨⟨h.history.1, h.history.2, h.history.3, h.history.4⟩, ⟨h.clocked.1, h.clocked.2, h.clocked.3⟩, h.due⟩
    refine hfree (hopens.take hopen fun q t b hq => ?_) rfl
    exact absurd (hinv.taken _ q t b hq).2.2.2 (Nat.lt_irrefl _)
  | failed =>
    obtain rfl := Option.some.inj hstep
    exact hfree h rfl

/-- The history and the times, along a run. -/
theorem timed_step (hinv : Inv s) (h : Timed evictAfter s) (hafter : 0 < evictAfter) {e : Event T}
    (hstep : s.step evictAfter e = some s') : Timed evictAfter s' := by
  cases e with
  | acts t action =>
    simp only [Process.step] at hstep
    split_ifs at hstep with hfree
    exact h.act hfree hstep
  | advance t => exact h.advance hafter hstep
  | stats t opening => exact h.stats hinv hstep
  | getconn t answer => exact h.getconn hinv hstep
  | terminate id =>
    obtain rfl := Option.some.inj hstep
    exact ⟨⟨h.history.1, h.history.2, h.history.3, h.history.4⟩, ⟨h.clocked.1, h.clocked.2, h.clocked.3⟩, h.due⟩

/-! ## The pools that are evicted -/

/-- A pool is evicted under the alias it was made for. -/
def Labelled (s : Process T) : Prop :=
  ∀ a p now, .evicted a p now ∈ s.log → p < s.nextPool ∧ s.poolAlias p = a

omit [DecidableEq T] in
theorem Labelled.next (h : Labelled s) (new : List Entry) (hlog : s'.log = new ++ s.log)
    (hnext : s.nextPool ≤ s'.nextPool) (halias : ∀ p < s.nextPool, s'.poolAlias p = s.poolAlias p)
    (hnew : ∀ a p now, .evicted a p now ∈ new → p < s.nextPool ∧ s.poolAlias p = a) : Labelled s' := by
  intro a p now hmem
  rw [hlog] at hmem
  have hold : p < s.nextPool ∧ s.poolAlias p = a := (List.mem_append.mp hmem).elim (hnew a p now) (h a p now)
  exact ⟨hold.1.trans_le hnext, (halias p hold.1).trans hold.2⟩

theorem log_act {action : Action} (hstep : s.act t action = some s') : s'.log = s.log := by
  by_cases hlookup : ∃ a now, action = .getItem a now
  · obtain ⟨a, now, rfl⟩ := hlookup
    simp only [Process.act] at hstep
    split_ifs at hstep
    obtain rfl := Option.some.inj hstep
    rfl
  · exact (later_act hstep fun a now heq => hlookup ⟨a, now, heq⟩).log

theorem Labelled.act (h : Labelled s) {action : Action} (hstep : s.act t action = some s') : Labelled s' := by
  have hlog := log_act hstep
  refine h.next [] hlog ?_ (fun p hp => ?_) fun a p now hmem => (List.not_mem_nil hmem).elim
  · obtain hown | ⟨a, now, -, -, rfl⟩ | ⟨a, -, -, rfl⟩ | ⟨a, -, -, -, rfl⟩ := act_cases hstep
    · exact hown.nextPool.ge
    · exact le_rfl
    · exact (pool_same s a).2.2.2.1
    · unfold Process.forgetPool
      cases s.connectionPools.get a <;> exact le_rfl
  · obtain hown | ⟨a, now, -, -, rfl⟩ | ⟨a, -, -, rfl⟩ | ⟨a, -, -, -, rfl⟩ := act_cases hstep
    · exact congrFun hown.poolAlias p
    · rfl
    · exact (pool_same s a).2.2.2.2.1 p hp
    · unfold Process.forgetPool
      cases s.connectionPools.get a <;> rfl

omit [DecidableEq T] in
/-- One entry is added to the log. -/
theorem Labelled.entry (h : Labelled s) {entry : Entry} (hlog : s'.log = entry :: s.log)
    (hnext : s'.nextPool = s.nextPool) (halias : s'.poolAlias = s.poolAlias)
    (hnew : ∀ a p now, .evicted a p now = entry → p < s.nextPool ∧ s.poolAlias p = a) : Labelled s' :=
  h.next [entry] hlog hnext.ge (fun p _ => congrFun halias p) fun a p now hmem =>
    hnew a p now (List.mem_singleton.mp hmem)

theorem Labelled.advance (hinv : Inv s) (hpoints : Points s) (h : Labelled s)
    (hstep : s.advance evictAfter t = some s') : Labelled s' := by
  unfold Process.advance at hstep
  split at hstep
  case h_1 =>
    obtain rfl := Option.some.inj hstep
    exact h.entry rfl rfl rfl fun _ _ _ heq => by cases heq
  case h_6 =>
    split_ifs at hstep
    · obtain rfl := Option.some.inj hstep
      exact h
    · obtain rfl := Option.some.inj hstep
      exact h.entry rfl rfl rfl fun _ _ _ heq => by cases heq
  case h_7 now a p pools hpoint =>
    obtain rfl := Option.some.inj hstep
    obtain ⟨-, -, hget⟩ := hpoints.looks t ((a, p) :: pools) (by rw [hpoint]; rfl)
    obtain ⟨hlt, halias, -⟩ := hinv.registered a p (hget (a, p) List.mem_cons_self)
    refine h.entry rfl rfl rfl fun b q n heq => ?_
    obtain ⟨rfl, rfl, rfl⟩ := Entry.evicted.inj heq
    exact ⟨hlt, halias⟩
  case h_8 => cases hstep
  all_goals
    (try split_ifs at hstep) <;> obtain rfl := Option.some.inj hstep <;> exact h

/-- The pools that the loop comes to are those of their aliases. -/
theorem labelled_step (hinv : Inv s) (hpoints : Points s) (h : Labelled s) {e : Event T}
    (hstep : s.step evictAfter e = some s') : Labelled s' := by
  cases e with
  | acts t action =>
    simp only [Process.step] at hstep
    split_ifs at hstep
    exact h.act hstep
  | advance t => exact h.advance hinv hpoints hstep
  | stats t opening =>
    simp only [Process.step, Process.stats] at hstep
    split at hstep
    · split_ifs at hstep
      · obtain rfl := Option.some.inj hstep
        exact h
      · obtain rfl := Option.some.inj hstep
        exact h
      · obtain rfl := Option.some.inj hstep
        exact h.entry rfl rfl rfl fun _ _ _ heq => by cases heq
    · cases hstep
  | getconn t answer =>
    simp only [Process.step, Process.getconn] at hstep
    split at hstep
    · cases answer with
      | idle id =>
        simp only at hstep
        split_ifs at hstep
        obtain rfl := Option.some.inj hstep
        exact h.entry rfl rfl rfl fun _ _ _ heq => by cases heq
      | fresh =>
        simp only at hstep
        split_ifs at hstep
        obtain rfl := Option.some.inj hstep
        exact h.entry rfl rfl rfl fun _ _ _ heq => by cases heq
      | failed =>
        obtain rfl := Option.some.inj hstep
        exact h
    · cases hstep
  | terminate id =>
    obtain rfl := Option.some.inj hstep
    exact h

theorem timed_run (hafter : 0 < evictAfter) {clock : ℚ} {es : List (Event T)}
    (hrun : Run (fun s e s' => Process.step evictAfter s e = some s') (Process.start clock) es s) :
    (Inv s ∧ Points s) ∧ Timed evictAfter s ∧ Labelled s :=
  hrun.invariant (I := fun s => (Inv s ∧ Points s) ∧ Timed evictAfter s ∧ Labelled s)
    (fun _ _ _ h hstep => ⟨inv_step h.1 hstep, timed_step h.1.1 h.2.1 hafter hstep,
      labelled_step h.1.1 h.1.2 h.2.2 hstep⟩)
    ⟨⟨inv_start clock, points_start clock⟩, timed_start evictAfter clock, fun _ _ _ hmem => (List.not_mem_nil hmem).elim⟩

omit [DecidableEq T] in
/-- Where no look is under way and none begins, what is due was in use within `evictAfter` and one interval. -/
theorem Timed.recent (h : Timed evictAfter s) (hcheck : now - s.lastEvictionCheck < evictionCheckInterval)
    (hlooks : ∀ t, ¬ (s.point t).Looks) {u : ℚ} (hget : s.connectionPools.get a = some p)
    (hlast : s.lastUsed.get a = some u) (hfree : ∀ id t b, s.place id ≠ .taken p t b) :
    now < max (s.usedAt a + evictAfter) (s.freed p) + evictionCheckInterval := by
  rcases h.due a p u hget hlast hfree with ⟨t, n, hface, -⟩ | hlt | hle
  · have hnot := hlooks t
    cases hpt : s.point t <;> rw [hpt] at hface hnot <;> first | exact absurd True.intro hnot | cases hface
  · have hmax := le_max_left (s.usedAt a + evictAfter) (s.freed p)
    linarith
  · have hmax := le_max_right (s.usedAt a + evictAfter) (s.freed p)
    linarith

/-- **A pool is evicted when its database is not used, and before long.**  Whatever the threads do, at any step: of
each pool that was evicted, the time written last for its database was found `evictAfter` old, and then no session of
it was found taken; no session is taken from it after it is closed, and one that still is taken, was taken between
the statistics and the closing, and is closed when it is given back.  And where a lookup leaves the pools alone while
no look is under way, each pool of which no session is taken was looked up within `evictAfter` and
`evictionCheckInterval`, or got its last session back, was made or was seen to open one within
`evictionCheckInterval`. -/
theorem evicted_iff_idle (hafter : 0 < evictAfter) {clock : ℚ} {es : List (Event T)}
    (hrun : Run (fun s e s' => Process.step evictAfter s e = some s') (Process.start clock) es s) :
    (∀ p, s.closed p = some .evicted → ∃ newer now between older,
      s.log = newer ++ .evicted (s.poolAlias p) p now :: (between ++ .unborrowed p :: older) ∧
        FoundIdle evictAfter (s.poolAlias p) p now older ∧ (∀ id, .taken id p ∉ newer) ∧
        ∀ id t b, s.place id = .taken p t b → .taken id p ∈ between ∧ (s.close t b).place id = .closed) ∧
      ∀ t now s', s.point t = .compares now → s.step evictAfter (.advance t) = some s' → s'.point t = .free →
        (∀ t, ¬ (s.point t).Looks) → ∀ b p u, s.connectionPools.get b = some p → s.lastUsed.get b = some u →
        (∀ id t c, s.place id ≠ .taken p t c) →
        now < max (s.usedAt b + evictAfter) (s.freed p) + evictionCheckInterval := by
  obtain ⟨⟨hinv, -⟩, htimed, hlabelled⟩ := timed_run hafter hrun
  refine ⟨fun p hp => ?_, fun t now s' hpoint hstep hnext hlooks b p u hget hlast hfree => ?_⟩
  · obtain ⟨newer, a, now, log, hlog, ⟨between, older, rfl, hidle, htaken⟩, hnone⟩ := htimed.history.evicted p hp
    obtain rfl : s.poolAlias p = a := (hlabelled a p now (by rw [hlog]; simp)).2
    exact ⟨newer, now, between, older, hlog, hidle, hnone, fun id t b hid =>
      ⟨htaken id t b hid, hinv.close_taken hid (by rw [hp]; simp)⟩⟩
  · refine htimed.recent (not_le.mp fun hle => ?_) hlooks hget hlast hfree
    -- a lookup that finds the last look long enough ago begins one
    simp only [Process.step, Process.advance, hpoint, if_pos hle] at hstep
    obtain rfl := Option.some.inj hstep
    rw [point_setPoint, if_pos rfl] at hnext
    cases hnext

section Sample

/-- A look finds a database idle, and another thread takes a session of its pool before the look closes it. -/
def race : List (Event Bool) :=
  [.acts false (.getItem "acme" 0), .advance false, .advance false, .acts false (.getPool "acme"),
    .getconn false .fresh, .acts false (.close "acme"), .acts true (.getItem "acme" 10), .advance true, .advance true,
    .acts true (.getPool "acme"), .acts false (.getItem "globex" 650), .advance false, .advance false, .advance false,
    .advance false, .advance false, .stats false false, .getconn true (.idle 0), .advance false, .advance false,
    .acts false (.getPool "globex"), .getconn false .fresh, .acts false (.close "globex"),
    .acts false (.getItem "globex" 700), .advance false]

theorem evicted_iff_idle_sample : ∃ s : Process Bool, s.closed 0 = some .evicted ∧ s.place 0 = .taken 0 true "acme" ∧
    (∃ newer now between older, s.log = newer ++ .evicted "acme" 0 now :: (between ++ .unborrowed 0 :: older) ∧
      FoundIdle 600 "acme" 0 now older ∧ .taken 0 0 ∈ between) ∧
      (s.close true "acme").place 0 = .closed ∧ s.connectionPools.get "globex" = some 1 ∧
      (700 : ℚ) < max (s.usedAt "globex" + 600) (s.freed 1) + evictionCheckInterval := by
  have hruns : (race.foldlM (Process.step 600) (Process.start 0)).any (fun s =>
      (s.step 600 (.advance false)).any fun s' => decide (s'.point false = .free ∧ s.point false = .compares 700 ∧
        s.point true = .free ∧ s.closed 0 = some .evicted ∧ s.poolAlias 0 = "acme" ∧
        s.place 0 = .taken 0 true "acme" ∧ s.place 1 = .idle 1 ∧ s.nextSession = 2 ∧
        s.connectionPools.get "globex" = some 1 ∧ s.lastUsed.get "globex" = some 700)) = true := by
    decide +kernel
  obtain ⟨s, hs, hstep⟩ := (Option.any_eq_true ..).mp hruns
  obtain ⟨s', hstep, hend⟩ := (Option.any_eq_true ..).mp hstep
  obtain ⟨hnext, hcompares, hfree, hclosed, halias, htaken, hidle, hsessions, hget, hlast⟩ := of_decide_eq_true hend
  have hlooks : ∀ t, ¬ (s.point t).Looks := by
    rintro (_ | _)
    · rw [hcompares]
      exact fun hlooks => hlooks
    · rw [hfree]
      exact fun hlooks => hlooks
  have hnone : ∀ id t c, s.place id ≠ .taken 1 t c := by
    intro id t c hid
    have hlt := ((inv_run (Run.of_foldlM hs)).1.taken id 1 t c hid).2.2.2
    rcases (by omega : id = 0 ∨ id = 1) with rfl | rfl
    · rw [htaken] at hid
      cases hid
    · rw [hidle] at hid
      cases hid
  have h := evicted_iff_idle (by norm_num) (Run.of_foldlM hs)
  obtain ⟨newer, now, between, older, hlog, hfound, -, hsession⟩ := h.1 0 hclosed
  obtain ⟨hmem, hgiven⟩ := hsession 0 true "acme" htaken
  rw [halias] at hlog hfound
  exact ⟨s, hclosed, htaken, ⟨newer, now, between, older, hlog, hfound, hmem⟩, hgiven, hget,
    h.2 false 700 s' hcompares hstep hnext hlooks "globex" 1 700 hget hlast hnone⟩

end Sample

end Times

end Totem.Tenancy.Pools
