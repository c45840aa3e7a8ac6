import Totem.Lib.Run
import Totem.Lib.Table
import Mathlib.Data.Fintype.Basic

/-!
# Totem.Lib.ReadCommitted — clients of one database under READ COMMITTED

A client runs SQL statements, one program point after the other.  A statement sees what was committed
before it started and the client's own writes (`Config.view`).  An UPDATE, a DELETE and a
SELECT FOR UPDATE are two events: `start` takes the snapshot that selects the rows, `finish` waits for
the row locks, re-evaluates the selected rows as they are by then, and writes those still selected.
Written rows are locked until the client commits or aborts.

* `step`: one event, executable; `step_select`, `step_start`, … read it back.
* `Exclusive`: no row is locked twice, in any state a run reaches.
-/

namespace Totem.Lib.ReadCommitted

/-- A SQL statement, with the program point it leads to. -/
inductive Stmt (K R L : Type*)
  /-- A plain SELECT. -/
  | select (next : Table K R → L)
  /-- An UPDATE, a DELETE or a SELECT FOR UPDATE: which rows it selects and what it writes may depend
  on its snapshot, `next` gets the snapshot and the rows it found. -/
  | modify (target : Table K R → K → R → Bool) (write : Table K R → K → R → Option R)
      (next : Table K R → Table K R → L)
  /-- An INSERT. -/
  | insert (rows : Table K R) (next : L)
  /-- COMMIT, also the one that follows a statement run in autocommit. -/
  | commit (next : L)

/-- The statement of a program that is part of another one. -/
def Stmt.map {K R L L' : Type*} (f : L → L') : Stmt K R L → Stmt K R L'
  | .select next => .select fun t => f (next t)
  | .modify target write next => .modify target write fun snap rows => f (next snap rows)
  | .insert rows next => .insert rows (f next)
  | .commit next => .commit (f next)

/-- What every client runs, and where it goes when the database aborts its transaction. -/
structure Program (ι K R L : Type*) where
  stmt : ι → L → Option (Stmt K R L)
  aborted : ι → L → L

/-- A client: its program point, the snapshot of the statement in progress, and the rows its
transaction wrote (`none` for a row deleted), all of them locked. -/
structure Client (K R L : Type*) where
  pc : L
  snapshot : Option (Table K R)
  writes : Table K (Option R)

structure Config (ι K R L : Type*) where
  committed : Table K R
  client : ι → Client K R L

/-- What the database does next. -/
inductive Event (ι : Type*)
  | select (i : ι)
  | start (i : ι)
  | finish (i : ι)
  | insert (i : ι)
  | commit (i : ι)
  | abort (i : ι)
deriving DecidableEq

section Config

variable {ι K R L : Type*} [DecidableEq ι] {c : Config ι K R L} {i j : ι}

/-- The configuration with another client `i`. -/
def Config.set (c : Config ι K R L) (i : ι) (cl : Client K R L) : Config ι K R L :=
  { c with client := Function.update c.client i cl }

@[simp] theorem set_committed (cl : Client K R L) : (c.set i cl).committed = c.committed := rfl

@[simp] theorem set_client_self (cl : Client K R L) : (c.set i cl).client i = cl := by
  simp [Config.set]

theorem set_client_of_ne (h : j ≠ i) (cl : Client K R L) : (c.set i cl).client j = c.client j := by
  simp [Config.set, h]

end Config

section Hits

variable {K R : Type*}

/-- The rows a statement writes: selected by its snapshot, and still selected as they are now. -/
def hits (target : Table K R → K → R → Bool) (snap view : Table K R) : Table K R :=
  view.filter fun k r => (snap.get k).any (target snap k) && target snap k r

theorem mem_hits {target : Table K R → K → R → Bool} {snap view : Table K R} {k : K} {r : R} :
    (hits target snap view).get k = some r ↔
      view.get k = some r ∧ (∃ r₀, snap.get k = some r₀ ∧ target snap k r₀ = true) ∧
        target snap k r = true := by
  simp [hits, Option.filter_eq_some_iff, Option.any_eq_true]

end Hits

section View

variable {ι K R L : Type*} [DecidableEq ι] [DecidableEq K]

/-- What a statement of `i` sees. -/
def Config.view (c : Config ι K R L) (i : ι) : Table K R := (c.client i).writes.apply c.committed

theorem view_set_self (c : Config ι K R L) (i : ι) (cl : Client K R L) :
    (c.set i cl).view i = cl.writes.apply c.committed := by
  simp [Config.view]

end View

section Semantics

variable {ι K R L : Type*} [DecidableEq ι] [Fintype ι] [DecidableEq K]

/-- Another client holds the lock of `k`. -/
def Config.Locked (c : Config ι K R L) (i : ι) (k : K) : Prop :=
  ∃ j, j ≠ i ∧ k ∈ (c.client j).writes.keys

instance (c : Config ι K R L) (i : ι) (k : K) : Decidable (c.Locked i k) :=
  inferInstanceAs (Decidable (∃ _, _))

/-- One event; `none` when it cannot happen. -/
def step (p : Program ι K R L) (c : Config ι K R L) : Event ι → Option (Config ι K R L)
  | .select i =>
    match p.stmt i (c.client i).pc with
    | some (.select next) => some (c.set i { c.client i with pc := next (c.view i) })
    | _ => none
  | .start i =>
    match p.stmt i (c.client i).pc, (c.client i).snapshot with
    | some (.modify _ _ _), none => some (c.set i { c.client i with snapshot := some (c.view i) })
    | _, _ => none
  | .finish i =>
    match p.stmt i (c.client i).pc, (c.client i).snapshot with
    | some (.modify target write next), some snap =>
      if ∃ k ∈ snap.find (target snap), c.Locked i k then none
      else
        let rows := hits target snap (c.view i)
        some (c.set i {
          pc := next snap rows
          snapshot := none
          writes := (rows.map (write snap)).overlay (c.client i).writes })
    | _, _ => none
  | .insert i =>
    match p.stmt i (c.client i).pc with
    | some (.insert rows next) =>
      if ∃ k ∈ rows.keys, k ∈ (c.view i).keys ∨ c.Locked i k then none
      else some (c.set i {
        c.client i with pc := next, writes := (rows.map fun _ r => some r).overlay (c.client i).writes })
    | _ => none
  | .commit i =>
    match p.stmt i (c.client i).pc with
    | some (.commit next) =>
      some { committed := c.view i
             client := Function.update c.client i ⟨next, none, .empty⟩ }
    | _ => none
  | .abort i => some (c.set i ⟨p.aborted i (c.client i).pc, none, .empty⟩)

/-- The event `e` leads from `c` to `c'`. -/
def Happens (p : Program ι K R L) (c : Config ι K R L) (e : Event ι) (c' : Config ι K R L) : Prop :=
  step p c e = some c'

end Semantics

/-! ## What an event does -/

section Effect

variable {ι K R L : Type*} [DecidableEq ι] [Fintype ι] [DecidableEq K]
variable {p : Program ι K R L} {c c' : Config ι K R L} {i j : ι}

theorem step_select (h : Happens p c (.select i) c') :
    ∃ next, p.stmt i (c.client i).pc = some (.select next) ∧
      c' = c.set i { c.client i with pc := next (c.view i) } := by
  simp only [Happens, step] at h
  split at h
  · rename_i next hs
    exact ⟨next, hs, (Option.some.inj h).symm⟩
  · cases h

theorem step_start (h : Happens p c (.start i) c') :
    ∃ target write next, p.stmt i (c.client i).pc = some (.modify target write next) ∧
      (c.client i).snapshot = none ∧ c' = c.set i { c.client i with snapshot := some (c.view i) } := by
  simp only [Happens, step] at h
  split at h
  · rename_i target write next hs hsnap
    exact ⟨target, write, next, hs, hsnap, (Option.some.inj h).symm⟩
  · cases h

theorem step_finish (h : Happens p c (.finish i) c') :
    ∃ target write next snap, p.stmt i (c.client i).pc = some (.modify target write next) ∧
      (c.client i).snapshot = some snap ∧
      (∀ k r, snap.get k = some r → target snap k r = true → ¬ c.Locked i k) ∧
      c' = c.set i {
        pc := next snap (hits target snap (c.view i))
        snapshot := none
        writes := ((hits target snap (c.view i)).map (write snap)).overlay (c.client i).writes } := by
  simp only [Happens, step] at h
  split at h
  · rename_i target write next snap hs hsnap
    split at h
    · cases h
    · rename_i hfree
      refine ⟨target, write, next, snap, hs, hsnap, ?_, (Option.some.inj h).symm⟩
      intro k r hr ht hl
      exact hfree ⟨k, Table.mem_find.mpr ⟨r, hr, ht⟩, hl⟩
  · cases h

theorem step_insert (h : Happens p c (.insert i) c') :
    ∃ rows next, p.stmt i (c.client i).pc = some (.insert rows next) ∧
      (∀ k ∈ rows.keys, (c.view i).get k = none ∧ ¬ c.Locked i k) ∧
      c' = c.set i {
        c.client i with pc := next,
                        writes := (rows.map fun _ r => some r).overlay (c.client i).writes } := by
  simp only [Happens, step] at h
  split at h
  · rename_i rows next hs
    split at h
    · cases h
    · rename_i hfree
      refine ⟨rows, next, hs, ?_, (Option.some.inj h).symm⟩
      intro k hk
      exact ⟨Table.get_eq_none.mpr fun hv => hfree ⟨k, hk, .inl hv⟩,
        fun hl => hfree ⟨k, hk, .inr hl⟩⟩
  · cases h

theorem step_commit (h : Happens p c (.commit i) c') :
    ∃ next, p.stmt i (c.client i).pc = some (.commit next) ∧
      c' = { committed := c.view i
             client := Function.update c.client i ⟨next, none, .empty⟩ } := by
  simp only [Happens, step] at h
  split at h
  · rename_i next hs
    exact ⟨next, hs, (Option.some.inj h).symm⟩
  · cases h

theorem step_abort (h : Happens p c (.abort i) c') :
    c' = c.set i ⟨p.aborted i (c.client i).pc, none, .empty⟩ :=
  (Option.some.inj h).symm

/-- The client an event is of. -/
def Event.client : Event ι → ι
  | .select i | .start i | .finish i | .insert i | .commit i | .abort i => i

/-- A client without a statement can only be aborted. -/
theorem event_of_none {e : Event ι} (h : Happens p c e c')
    (hst : p.stmt e.client (c.client e.client).pc = none) : e = .abort e.client := by
  cases e with
  | select i => obtain ⟨_, hs, -⟩ := step_select h; exact absurd (hst.symm.trans hs) (by simp)
  | start i => obtain ⟨_, _, _, hs, -⟩ := step_start h; exact absurd (hst.symm.trans hs) (by simp)
  | finish i => obtain ⟨_, _, _, _, hs, -⟩ := step_finish h; exact absurd (hst.symm.trans hs) (by simp)
  | insert i => obtain ⟨_, _, hs, -⟩ := step_insert h; exact absurd (hst.symm.trans hs) (by simp)
  | commit i => obtain ⟨_, hs, -⟩ := step_commit h; exact absurd (hst.symm.trans hs) (by simp)
  | abort i => rfl

/-- The events of a client, by the statement it is at. -/
theorem event_of_some {e : Event ι} {st : Stmt K R L} (h : Happens p c e c')
    (hst : p.stmt e.client (c.client e.client).pc = some st) :
    e = .abort e.client ∨
    match st with
    | .select _ => e = .select e.client
    | .modify _ _ _ => e = .start e.client ∨ e = .finish e.client
    | .insert _ _ => e = .insert e.client
    | .commit _ => e = .commit e.client := by
  cases e with
  | select i =>
    obtain ⟨_, hs, -⟩ := step_select h
    obtain rfl := Option.some.inj (hst.symm.trans hs)
    exact .inr rfl
  | start i =>
    obtain ⟨_, _, _, hs, -⟩ := step_start h
    obtain rfl := Option.some.inj (hst.symm.trans hs)
    exact .inr (.inl rfl)
  | finish i =>
    obtain ⟨_, _, _, _, hs, -⟩ := step_finish h
    obtain rfl := Option.some.inj (hst.symm.trans hs)
    exact .inr (.inr rfl)
  | insert i =>
    obtain ⟨_, _, hs, -⟩ := step_insert h
    obtain rfl := Option.some.inj (hst.symm.trans hs)
    exact .inr rfl
  | commit i =>
    obtain ⟨_, hs, -⟩ := step_commit h
    obtain rfl := Option.some.inj (hst.symm.trans hs)
    exact .inr rfl
  | abort i => exact .inl rfl

/-- **Frame**: an event leaves the other clients as they are. -/
theorem step_client_of_ne {e : Event ι} (h : Happens p c e c') (hj : j ≠ e.client) :
    c'.client j = c.client j := by
  cases e with
  | select i =>
    obtain ⟨next, -, rfl⟩ := step_select h
    exact set_client_of_ne hj _
  | start i =>
    obtain ⟨_, _, _, -, -, rfl⟩ := step_start h
    exact set_client_of_ne hj _
  | finish i =>
    obtain ⟨_, _, _, _, -, -, -, rfl⟩ := step_finish h
    exact set_client_of_ne hj _
  | insert i =>
    obtain ⟨_, _, -, -, rfl⟩ := step_insert h
    exact set_client_of_ne hj _
  | commit i =>
    obtain ⟨_, -, rfl⟩ := step_commit h
    exact Function.update_of_ne hj _ _
  | abort i =>
    obtain rfl := step_abort h
    exact set_client_of_ne hj _

/-- Wherever a statement leads from a snapshot satisfies `P`. -/
def Stmt.Leads (snapshot : Option (Table K R)) (P : L → Prop) : Stmt K R L → Prop
  | .select next => ∀ t, P (next t)
  | .modify target _ next => ∀ snap, snapshot = some snap → ∀ view, P (next snap (hits target snap view))
  | .insert _ next => P next
  | .commit next => P next

omit [DecidableEq K] in
theorem Stmt.leads_map {L' : Type*} {snapshot : Option (Table K R)} {P : L' → Prop} {f : L → L'} (h : ∀ l, P (f l))
    (st : Stmt K R L) : (st.map f).Leads snapshot P := by
  cases st with
  | select next => exact fun t => h _
  | modify target write next => exact fun snap _ view => h _
  | insert rows next => exact h next
  | commit next => exact h next

/-- **Program points**: a client goes where its statements lead. -/
theorem pc_of_leads {P : L → Prop} {e : Event ι} (h : Happens p c e c') (hpc : P (c.client i).pc)
    (haborted : P (p.aborted i (c.client i).pc))
    (hleads : ∀ st, p.stmt i (c.client i).pc = some st → st.Leads (c.client i).snapshot P) :
    P (c'.client i).pc := by
  by_cases hi : i = e.client
  · subst hi
    cases e with
    | select i =>
      obtain ⟨next, hst, rfl⟩ := step_select h
      rw [Event.client, set_client_self]
      exact hleads _ hst _
    | start i =>
      obtain ⟨_, _, _, -, -, rfl⟩ := step_start h
      rw [Event.client, set_client_self]
      exact hpc
    | finish i =>
      obtain ⟨target, write, next, snap, hst, hsnap, -, rfl⟩ := step_finish h
      rw [Event.client, set_client_self]
      exact hleads _ hst snap hsnap _
    | insert i =>
      obtain ⟨rows, next, hst, -, rfl⟩ := step_insert h
      rw [Event.client, set_client_self]
      exact hleads _ hst
    | commit i =>
      obtain ⟨next, hst, rfl⟩ := step_commit h
      simp only [Event.client, Function.update_self]
      exact hleads _ hst
    | abort i =>
      obtain rfl := step_abort h
      rw [Event.client, set_client_self]
      exact haborted
  · rw [step_client_of_ne h hi]
    exact hpc

/-- Only a commit changes what is committed. -/
theorem step_committed {e : Event ι} (h : Happens p c e c') (he : ∀ i, e ≠ .commit i) :
    c'.committed = c.committed := by
  cases e with
  | select i => obtain ⟨next, -, rfl⟩ := step_select h; rfl
  | start i => obtain ⟨_, _, _, -, -, rfl⟩ := step_start h; rfl
  | finish i => obtain ⟨_, _, _, _, -, -, -, rfl⟩ := step_finish h; rfl
  | insert i => obtain ⟨_, _, -, -, rfl⟩ := step_insert h; rfl
  | commit i => exact absurd rfl (he i)
  | abort i => obtain rfl := step_abort h; rfl

end Effect

/-! ## Row locks -/

section Locks

variable {ι K R L : Type*} {p : Program ι K R L} {c c' : Config ι K R L}

/-- No row is locked by two clients. -/
def Exclusive (c : Config ι K R L) : Prop :=
  ∀ i j k, k ∈ (c.client i).writes.keys → k ∈ (c.client j).writes.keys → i = j

theorem exclusive_of_writes_empty (h : ∀ i, (c.client i).writes = .empty) : Exclusive c := by
  intro i j k hi
  rw [h i, Table.keys_empty] at hi
  exact absurd hi (Finset.notMem_empty k)

variable [DecidableEq ι]

/-- A client may only add rows nobody else holds. -/
theorem Exclusive.of_grows {i : ι} (hc : Exclusive c) (hne : ∀ j, j ≠ i → c'.client j = c.client j)
    (hgrow : ∀ k ∈ (c'.client i).writes.keys, k ∈ (c.client i).writes.keys ∨ ¬ c.Locked i k) :
    Exclusive c' := by
  have hself : ∀ j k, j ≠ i → k ∈ (c'.client i).writes.keys →
      k ∉ (c.client j).writes.keys := by
    intro j k hj hk hkj
    rcases hgrow k hk with hki | hfree
    · exact hj (hc j i k hkj hki)
    · exact hfree ⟨j, hj, hkj⟩
  intro j l k hj hl
  by_cases hji : j = i
  · subst hji
    by_cases hlj : l = j
    · exact hlj.symm
    · rw [hne l hlj] at hl
      exact absurd hl (hself l k hlj hj)
  · rw [hne j hji] at hj
    by_cases hli : l = i
    · subst hli
      exact absurd hj (hself j k hji hl)
    · rw [hne l hli] at hl
      exact hc j l k hj hl

variable [DecidableEq K]

omit [DecidableEq ι] in
/-- A row locked by `i` is, in the view of the others, the committed one. -/
theorem Exclusive.view_of_locked {i j : ι} {k : K} (hc : Exclusive c) (hij : i ≠ j)
    (hk : k ∈ (c.client i).writes.keys) : (c.view j).get k = c.committed.get k := by
  have hj : (c.client j).writes.get k = none := by
    rw [Table.get_eq_none]
    exact fun hkj => hij (hc i j k hk hkj)
  simp [Config.view, hj]

variable [Fintype ι]

/-- **Row locks are exclusive**, after any event. -/
theorem Exclusive.step {e : Event ι} (hc : Exclusive c) (h : Happens p c e c') : Exclusive c' := by
  refine hc.of_grows (i := e.client) (fun j hj => step_client_of_ne h hj) ?_
  intro k hk
  cases e with
  | select i =>
    obtain ⟨next, -, rfl⟩ := step_select h
    simp only [Event.client, set_client_self] at hk
    exact .inl hk
  | start i =>
    obtain ⟨_, _, _, -, -, rfl⟩ := step_start h
    simp only [Event.client, set_client_self] at hk
    exact .inl hk
  | finish i =>
    obtain ⟨target, write, next, snap, -, -, hfree, rfl⟩ := step_finish h
    simp only [Event.client, set_client_self, Table.overlay, Table.keys_map, Finset.mem_union] at hk
    rcases hk with hk | hk
    · obtain ⟨r, hr⟩ := Table.mem_keys_iff.mp hk
      obtain ⟨-, ⟨r₀, hr₀, ht⟩, -⟩ := mem_hits.mp hr
      exact .inr (hfree k r₀ hr₀ ht)
    · exact .inl hk
  | insert i =>
    obtain ⟨rows, next, -, hfree, rfl⟩ := step_insert h
    simp only [Event.client, set_client_self, Table.overlay, Table.keys_map, Finset.mem_union] at hk
    rcases hk with hk | hk
    · exact .inr (hfree k hk).2
    · exact .inl hk
  | commit i =>
    obtain ⟨next, -, rfl⟩ := step_commit h
    simp [Event.client] at hk
  | abort i =>
    obtain rfl := step_abort h
    simp [Event.client] at hk

/-- **A commit keeps the committed rows the others hold.** -/
theorem Exclusive.commit_of_locked {i j : ι} {k : K} (hc : Exclusive c) (hij : i ≠ j)
    (h : Happens p c (.commit j) c') (hk : k ∈ (c.client i).writes.keys) :
    c'.committed.get k = c.committed.get k := by
  obtain ⟨next, -, rfl⟩ := step_commit h
  exact hc.view_of_locked hij hk

/-! ## Snapshots -/

/-- A client has a snapshot only at the statement that took it. -/
def SnapshotsOpen (p : Program ι K R L) (c : Config ι K R L) : Prop :=
  ∀ i, (c.client i).snapshot ≠ none →
    ∃ target write next, p.stmt i (c.client i).pc = some (.modify target write next)

omit [DecidableEq ι] [DecidableEq K] [Fintype ι] in
/-- A client that is about to select holds no snapshot. -/
theorem SnapshotsOpen.closed_of_select (hc : SnapshotsOpen p c) {i : ι} {next : Table K R → L}
    (hs : p.stmt i (c.client i).pc = some (.select next)) : (c.client i).snapshot = none := by
  by_contra hne
  obtain ⟨_, _, _, hs'⟩ := hc i hne
  rw [hs] at hs'
  cases hs'

theorem SnapshotsOpen.step {e : Event ι} (hc : SnapshotsOpen p c) (h : Happens p c e c') :
    SnapshotsOpen p c' := by
  intro j hj
  by_cases hje : j = e.client
  · subst hje
    cases e with
    | select i =>
      obtain ⟨next, hst, rfl⟩ := step_select h
      obtain ⟨_, _, _, hst'⟩ := hc i (by simpa [Event.client] using hj)
      rw [hst] at hst'
      cases hst'
    | start i =>
      obtain ⟨target, write, next, hst, -, rfl⟩ := step_start h
      exact ⟨target, write, next, by simpa [Event.client] using hst⟩
    | finish i =>
      obtain ⟨_, _, _, _, -, -, -, rfl⟩ := step_finish h
      simp [Event.client] at hj
    | insert i =>
      obtain ⟨_, _, hst, -, rfl⟩ := step_insert h
      obtain ⟨_, _, _, hst'⟩ := hc i (by simpa [Event.client] using hj)
      rw [hst] at hst'
      cases hst'
    | commit i =>
      obtain ⟨_, -, rfl⟩ := step_commit h
      simp [Event.client] at hj
    | abort i =>
      obtain rfl := step_abort h
      simp [Event.client] at hj
  · rw [step_client_of_ne h hje] at hj ⊢
    exact hc j hj

/-- Every client but one may be aborted. -/
theorem exists_alone (p : Program ι K R L) (c : Config ι K R L) (i : ι) :
    ∃ es c', Run (Happens p) c es c' ∧ c'.committed = c.committed ∧ c'.client i = c.client i ∧
      ∀ j, j ≠ i → (c'.client j).writes = .empty := by
  have hsome : ∀ s : Finset ι, ∃ es c', Run (Happens p) c es c' ∧ c'.committed = c.committed ∧
      c'.client i = c.client i ∧ ∀ j ∈ s, j ≠ i → (c'.client j).writes = .empty := by
    intro s
    induction s using Finset.induction_on with
    | empty => exact ⟨[], c, .nil c, rfl, rfl, by simp⟩
    | insert l s _ ih =>
      obtain ⟨es, c', hr, hcom, hcl, hempty⟩ := ih
      by_cases hl : l = i
      · refine ⟨es, c', hr, hcom, hcl, fun j hj hji => hempty j ?_ hji⟩
        exact (Finset.mem_insert.mp hj).resolve_left fun hjl => hji (hjl.trans hl)
      · have habort : Happens p c' (.abort l) (c'.set l ⟨p.aborted l (c'.client l).pc, none, .empty⟩) := rfl
        have hr' : Run (Happens p) c (es ++ [.abort l]) (c'.set l ⟨p.aborted l (c'.client l).pc, none, .empty⟩) :=
          Run.append_iff.mpr ⟨c', hr, Run.singleton_iff.mpr habort⟩
        refine ⟨_, _, hr', hcom, ?_, fun j hj hji => ?_⟩
        · rw [set_client_of_ne (fun hil => hl hil.symm), hcl]
        · by_cases hjl : j = l
          · rw [hjl, set_client_self]
          · rw [set_client_of_ne hjl]
            exact hempty j ((Finset.mem_insert.mp hj).resolve_left hjl) hji
  obtain ⟨es, c', hr, hcom, hcl, hempty⟩ := hsome Finset.univ
  exact ⟨es, c', hr, hcom, hcl, fun j hj => hempty j (Finset.mem_univ j) hj⟩

/-- A statement nobody else locks a row of finishes. -/
theorem finish_alone {i : ι} {target : Table K R → K → R → Bool} {write : Table K R → K → R → Option R}
    {next : Table K R → Table K R → L} {snap : Table K R}
    (hst : p.stmt i (c.client i).pc = some (.modify target write next)) (hsnap : (c.client i).snapshot = some snap)
    (hempty : ∀ j, j ≠ i → (c.client j).writes = .empty) :
    ∃ c', Happens p c (.finish i) c' ∧ (c'.client i).pc = next snap (hits target snap (c.view i)) := by
  have hfree : ¬ ∃ k ∈ snap.find (target snap), c.Locked i k := by
    rintro ⟨k, -, j, hj, hk⟩
    rw [hempty j hj, Table.keys_empty] at hk
    exact absurd hk (Finset.notMem_empty k)
  have hfinish : Happens p c (.finish i) (c.set i {
      pc := next snap (hits target snap (c.view i))
      snapshot := none
      writes := ((hits target snap (c.view i)).map (write snap)).overlay (c.client i).writes }) := by
    simp only [Happens, step, hst, hsnap]
    rw [if_neg hfree]
  exact ⟨_, hfinish, by rw [set_client_self]⟩

end Locks

end Totem.Lib.ReadCommitted
