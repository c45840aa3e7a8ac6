import Totem.Lib.ReadCommitted

/-!
# Totem.Services.UpdateInterleaving — an update among other transactions

`UpdateMixin._update_atomic` as the SQL statements of one READ COMMITTED transaction: the SELECT of the records given
to `validate_data`, the declaration of their primary keys to the computed-field context, the UPDATE, which evaluates
the filters a second time, and what follows.  The other clients run any statements.

* `Trace`: the primary keys validated, declared and written so far.
* `Isolated`: when the UPDATE takes its snapshot, the filters match no record that the SELECT did not match.
* `update_covered`: in a run of isolated steps what is written was validated and declared, and from a step that is
  not isolated a run goes on to where it was not.
-/

namespace Totem.Services

open Totem.Lib Totem.Lib.ReadCommitted

/-! ## The statements of an update -/

/-- An update of a service. -/
structure Update (K R Err S : Type) where
  /-- The scoped queryset with the filters applied, on the snapshot of a statement and a record as it finds it. -/
  filters : Table K R → K → R → Bool
  validateData : K → R → Option Err
  /-- `internal_values` without the many-to-many fields, if a column is left. -/
  values : Option (R → R)
  /-- `computed.has_relation_to_modify(self.model, update_fields)`. -/
  relationToModify : Bool
  /-- The postprocessing and the flush of the computed fields: where they start, and the statements they run. -/
  following : Finset K → S
  statement : S → Option (Stmt K R S)

/-- The primary keys given to `validate_data`, declared by `computed.modified`, and written by
`queryset.update()`. -/
structure Trace (K : Type) where
  validated : Finset K
  declared : Finset K
  written : Finset K

/-- Where an update is. -/
inductive Point (K Err S : Type)
  | begin
  | refused (errors : Table K Err)
  | declare
  | update
  | modified
  | following (s : S)
  | commit
  | done
  | failed

/-- A client runs the update, or something else. -/
inductive Local (K Err S L : Type)
  | service (point : Point K Err S) (trace : Trace K)
  | other (l : L)

section

variable {ι K R Err S L : Type} [DecidableEq K]

/-- `queryset.update(**internal_values)` runs no query without a column. -/
def Update.write (u : Update K R Err S) : Point K Err S := if u.values.isSome then .update else .modified

/-- The SELECT of `instances`, and `validate_data` on each of them. -/
def Update.validate (u : Update K R Err S) (t : Table K R) : Local K Err S L :=
  let pks := t.find (u.filters t)
  let errors := (t.filter (u.filters t)).filterMap u.validateData
  if errors.keys ≠ ∅ then .service (.refused errors) ⟨pks, ∅, ∅⟩
  else if pks = ∅ then .service .commit ⟨pks, ∅, ∅⟩
  else if u.relationToModify = true then .service .declare ⟨pks, ∅, ∅⟩
  else .service u.write ⟨pks, ∅, ∅⟩

/-- What an update runs at a point.  The rows of the many-to-many relations are in tables of their own. -/
def Update.stmt (u : Update K R Err S) (trace : Trace K) : Point K Err S → Option (Stmt K R (Local K Err S L))
  | .begin => some (.select u.validate)
  | .declare => some (.select fun _ => .service u.write { trace with declared := trace.validated })
  | .update => u.values.map fun assign =>
      .modify u.filters (fun _ _ r => some (assign r)) fun _ rows =>
        .service .modified { trace with written := rows.keys }
  | .modified => some (.select fun _ =>
      .service (.following (u.following trace.validated)) { trace with declared := trace.validated })
  | .following s =>
      match u.statement s with
      | some st => some (st.map fun s => .service (.following s) trace)
      | none => some (.commit (.service .done trace))
  | .commit => some (.commit (.service .done trace))
  | .refused _ | .done | .failed => none

/-- Where the update is left when its transaction is rolled back. -/
def rolledBack (trace : Trace K) : Point K Err S → Local K Err S L
  | .done => .service .done trace
  | .refused errors => .service (.refused errors) { trace with written := ∅ }
  | _ => .service .failed { trace with written := ∅ }

/-- The update of a client among the programs of the others. -/
def updateProgram (u : Update K R Err S) (others : Program ι K R L) : Program ι K R (Local K Err S L) where
  stmt i
    | .service point trace => u.stmt trace point
    | .other l => (others.stmt i l).map (Stmt.map .other)
  aborted i
    | .service point trace => rolledBack trace point
    | .other l => .other (others.aborted i l)

variable [DecidableEq ι]

/-- Before the update: the client `me` is about to run it, the others are anywhere. -/
def beforeUpdate (me : ι) (t : Table K R) (at' : ι → L) : Config ι K R (Local K Err S L) where
  committed := t
  client i := ⟨if i = me then .service .begin ⟨∅, ∅, ∅⟩ else .other (at' i), none, .empty⟩

/-- When the UPDATE takes its snapshot, the filters match no record but those the SELECT matched. -/
def Isolated (u : Update K R Err S) (me : ι) (c : Config ι K R (Local K Err S L)) : Event ι → Prop
  | .start i => i = me → ∀ trace, (c.client me).pc = .service .update trace →
      (c.view me).find (u.filters (c.view me)) ⊆ trace.validated
  | _ => True

/-- What is written was validated, and is declared but between the write and the declaration after it. -/
def Local.Covered (l : Local K Err S L) : Prop :=
  ∃ point trace, l = .service point trace ∧ trace.written ⊆ trace.validated ∧
    (point ≠ .modified → trace.written ⊆ trace.declared)

/-- **What the update writes was given to `validate_data` and declared to the context.** -/
def Covered (me : ι) (c : Config ι K R (Local K Err S L)) : Prop := (c.client me).pc.Covered

/-! ## The statements keep it -/

omit [DecidableEq ι]

variable {u : Update K R Err S} {trace : Trace K} {point : Point K Err S}

omit [DecidableEq K] in
theorem covered_of_written_eq_empty (point : Point K Err S) {trace : Trace K} (h : trace.written = ∅) :
    (Local.service point trace : Local K Err S L).Covered :=
  ⟨point, trace, rfl, by simp [h], by simp [h]⟩

omit [DecidableEq K] in
theorem Local.Covered.subset (h : (Local.service point trace : Local K Err S L).Covered) :
    trace.written ⊆ trace.validated ∧ (point ≠ .modified → trace.written ⊆ trace.declared) := by
  obtain ⟨_, _, heq, h⟩ := h
  obtain ⟨rfl, rfl⟩ := Local.service.inj heq
  exact h

theorem Update.validate_covered (u : Update K R Err S) (t : Table K R) :
    (u.validate t : Local K Err S L).Covered := by
  unfold Update.validate
  simp only
  split_ifs
  · exact covered_of_written_eq_empty _ rfl
  · exact covered_of_written_eq_empty _ rfl
  · exact covered_of_written_eq_empty _ rfl
  · exact covered_of_written_eq_empty _ rfl

omit [DecidableEq K] in
theorem rolledBack_covered (h : (Local.service point trace : Local K Err S L).Covered) :
    (rolledBack trace point : Local K Err S L).Covered := by
  cases point with
  | done => exact h
  | _ => exact covered_of_written_eq_empty _ rfl

/-- **A statement of the update keeps what is written covered**, if the UPDATE has matched what the SELECT did. -/
theorem Update.stmt_covered {st : Stmt K R (Local K Err S L)} (h : u.stmt trace point = some st)
    (hcov : (Local.service point trace : Local K Err S L).Covered) {snapshot : Option (Table K R)}
    (hmatched : ∀ snap, point = .update → snapshot = some snap → snap.find (u.filters snap) ⊆ trace.validated) :
    st.Leads snapshot Local.Covered := by
  obtain ⟨hvalidated, hdeclared⟩ := hcov.subset
  cases point with
  | begin =>
    obtain rfl := Option.some.inj h
    exact u.validate_covered
  | declare =>
    obtain rfl := Option.some.inj h
    exact fun _ => ⟨_, _, rfl, hvalidated, fun _ => hvalidated⟩
  | update =>
    cases hv : u.values with
    | none => simp [Update.stmt, hv] at h
    | some assign =>
      simp only [Update.stmt, hv, Option.map_some, Option.some.injEq] at h
      obtain rfl := h
      intro snap hsnap view
      refine ⟨_, _, rfl, fun k hk => hmatched snap rfl hsnap ?_, fun hne => absurd rfl hne⟩
      obtain ⟨r, hr⟩ := Table.mem_keys_iff.mp hk
      exact Table.mem_find.mpr (mem_hits.mp hr).2.1
  | modified =>
    obtain rfl := Option.some.inj h
    exact fun _ => ⟨_, _, rfl, hvalidated, fun _ => hvalidated⟩
  | following s =>
    have hkept : ∀ point' : Point K Err S, (Local.service point' trace : Local K Err S L).Covered := fun point' =>
      ⟨point', trace, rfl, hvalidated, fun _ => hdeclared (by simp)⟩
    simp only [Update.stmt] at h
    cases hs : u.statement s with
    | none =>
      simp only [hs] at h
      obtain rfl := Option.some.inj h
      exact hkept .done
    | some st' =>
      simp only [hs] at h
      obtain rfl := Option.some.inj h
      exact Stmt.leads_map (fun s => hkept (.following s)) st'
  | commit =>
    obtain rfl := Option.some.inj h
    exact ⟨_, _, rfl, hvalidated, fun _ => hdeclared (by simp)⟩
  | refused errors => cases h
  | done => cases h
  | failed => cases h

/-! ## Isolated runs -/

variable [DecidableEq ι] [Fintype ι] {others : Program ι K R L} {me : ι} {c c' : Config ι K R (Local K Err S L)}

/-- What holds in a run of isolated steps. -/
structure Inv (u : Update K R Err S) (others : Program ι K R L) (me : ι) (c : Config ι K R (Local K Err S L)) :
    Prop where
  snapshots : SnapshotsOpen (updateProgram u others) c
  covered : Covered me c
  /-- The UPDATE in progress has matched what the SELECT did. -/
  matched : ∀ trace snap, (c.client me).pc = .service .update trace → (c.client me).snapshot = some snap →
    snap.find (u.filters snap) ⊆ trace.validated

omit [Fintype ι] in
theorem Inv.before (u : Update K R Err S) (others : Program ι K R L) (me : ι) (t : Table K R) (at' : ι → L) :
    Inv u others me (beforeUpdate me t at') where
  snapshots := fun _ h => absurd rfl h
  covered := by
    have hpc : ((beforeUpdate me t at').client me).pc = (.service .begin ⟨∅, ∅, ∅⟩ : Local K Err S L) := if_pos rfl
    rw [Covered, hpc]
    exact covered_of_written_eq_empty _ rfl
  matched := fun _ _ _ hsnap => by cases hsnap

/-- A snapshot is the one the statement has started with, or was there before. -/
theorem Inv.matched_step {e : Event ι} (hi : Inv u others me c) (h : Happens (updateProgram u others) c e c')
    (hiso : Isolated u me c e) {trace : Trace K} {snap : Table K R}
    (hpc : (c'.client me).pc = .service .update trace) (hsnap : (c'.client me).snapshot = some snap) :
    snap.find (u.filters snap) ⊆ trace.validated := by
  have hopen : (c.client me).snapshot ≠ none → ∃ target write next,
      (updateProgram u others).stmt me (c.client me).pc = some (.modify target write next) := hi.snapshots me
  by_cases hme : me = e.client
  · subst hme
    cases e with
    | start i =>
      obtain ⟨_, _, _, -, -, rfl⟩ := step_start h
      simp only [Event.client, set_client_self, Option.some.injEq] at hpc hsnap
      obtain rfl := hsnap
      exact hiso rfl trace hpc
    | select i =>
      obtain ⟨_, hst, rfl⟩ := step_select h
      simp only [Event.client, set_client_self] at hsnap
      obtain ⟨_, _, _, hst'⟩ := hopen (by simp [Event.client, hsnap])
      cases hst.symm.trans hst'
    | insert i =>
      obtain ⟨_, _, hst, -, rfl⟩ := step_insert h
      simp only [Event.client, set_client_self] at hsnap
      obtain ⟨_, _, _, hst'⟩ := hopen (by simp [Event.client, hsnap])
      cases hst.symm.trans hst'
    | finish i =>
      obtain ⟨_, _, _, _, -, -, -, rfl⟩ := step_finish h
      simp [Event.client] at hsnap
    | commit i =>
      obtain ⟨_, -, rfl⟩ := step_commit h
      simp [Event.client] at hsnap
    | abort i =>
      obtain rfl := step_abort h
      simp [Event.client] at hsnap
  · rw [step_client_of_ne h hme] at hpc hsnap
    exact hi.matched trace snap hpc hsnap

theorem Inv.step {e : Event ι} (hi : Inv u others me c) (h : Happens (updateProgram u others) c e c')
    (hiso : Isolated u me c e) : Inv u others me c' where
  snapshots := hi.snapshots.step h
  matched := fun _ _ => hi.matched_step h hiso
  covered := by
    obtain ⟨point, trace, hpc, -⟩ := id hi.covered
    have hcov : (Local.service point trace : Local K Err S L).Covered := hpc ▸ hi.covered
    refine pc_of_leads h hi.covered ?_ fun st hst => ?_
    · rw [hpc]
      exact rolledBack_covered hcov
    · rw [hpc] at hst
      refine Update.stmt_covered hst hcov fun snap hpoint => hi.matched trace snap ?_
      rw [hpc, hpoint]

/-! ## A step that is not isolated -/

/-- The UPDATE that has matched another record writes it, should the other clients be aborted. -/
theorem exists_not_covered (h : Happens (updateProgram u others) c (.start me) c')
    (hiso : ¬ Isolated u me c (.start me)) :
    ∃ es c'', Run (Happens (updateProgram u others)) c' es c'' ∧ ¬ Covered me c'' := by
  simp only [Isolated, true_implies, not_forall] at hiso
  obtain ⟨trace, hpc, hmatch⟩ := hiso
  obtain ⟨target, write, next, hst, -, rfl⟩ := step_start h
  obtain ⟨es, c₁, hr, hcom, hcl, hempty⟩ := exists_alone (updateProgram u others)
    (c.set me { c.client me with snapshot := some (c.view me) }) me
  rw [set_client_self] at hcl
  rw [hpc] at hst
  have hst' : (updateProgram u others).stmt me (c₁.client me).pc = some (.modify target write next) := by
    rw [hcl, hpc]
    exact hst
  obtain ⟨c'', hfinish, hpc''⟩ := finish_alone hst' (by rw [hcl]) hempty
  refine ⟨es ++ [.finish me], c'', Run.append_iff.mpr ⟨c₁, hr, Run.singleton_iff.mpr hfinish⟩, fun hcov => hmatch ?_⟩
  have hview : c₁.view me = c.view me := by rw [Config.view, hcom, hcl]; rfl
  have hnext : u.filters = target ∧ ∀ snap rows, next snap rows
      = .service .modified { trace with written := rows.keys } := by
    cases hv : u.values with
    | none => simp [updateProgram, Update.stmt, hv] at hst
    | some assign =>
      simp only [updateProgram, Update.stmt, hv, Option.map_some, Option.some.injEq, Stmt.modify.injEq] at hst
      obtain ⟨htarget, -, hnext⟩ := hst
      exact ⟨htarget, fun snap rows => by rw [← hnext]⟩
  obtain ⟨rfl, hnext⟩ := hnext
  rw [hview, hnext] at hpc''
  rw [Covered, hpc''] at hcov
  intro k hk
  obtain ⟨r, hr, hmatches⟩ := Table.mem_find.mp hk
  refine hcov.subset.1 (Table.mem_keys_of_get (r := r) ?_)
  exact mem_hits.mpr ⟨hr, ⟨r, hr, hmatches⟩, hmatches⟩

/-- **An update writes rows it validated and declared, in every run of isolated steps**; from any other step of a
run the update may come to write another row. -/
theorem update_covered (u : Update K R Err S) (others : Program ι K R L) (me : ι) (t : Table K R) (at' : ι → L) :
    (∀ es c, Run (fun c e c' => Happens (updateProgram u others) c e c' ∧ Isolated u me c e)
      (beforeUpdate me t at') es c → Covered me c) ∧
    (∀ es c e c', Run (Happens (updateProgram u others)) (beforeUpdate me t at') es c →
      Happens (updateProgram u others) c e c' → ¬ Isolated u me c e →
      ∃ es' c'', Run (Happens (updateProgram u others)) c' es' c'' ∧ ¬ Covered me c'') := by
  constructor
  · intro es c hr
    exact (hr.invariant (fun _ _ _ hi h => hi.step h.1 h.2) (Inv.before u others me t at')).covered
  · intro es c e c' _ h hiso
    cases e with
    | start i =>
      by_cases hi : i = me
      · subst hi
        exact exists_not_covered h hiso
      · exact absurd (fun heq => absurd heq hi) hiso
    | _ => exact absurd trivial hiso

end

/-! ## A record that enters the filters -/

/-- Movements are an account and an amount: those of the account 7 go to the account 8, which takes no negative
amount. -/
def moveUpdate : Update ℕ (ℕ × ℤ) Unit Unit where
  filters _ _ r := decide (r.1 = 7)
  validateData _ r := if r.2 < 0 then some () else none
  values := some fun r => (8, r.2)
  relationToModify := false
  following _ := ()
  statement _ := none

/-- Another transaction: a movement is inserted, and committed. -/
def insertion (r : ℕ × ℤ) : Program Bool ℕ (ℕ × ℤ) ℕ where
  stmt _ l := if l = 0 then some (.insert (Table.empty.insert 2 r) 1) else if l = 1 then some (.commit 2) else none
  aborted _ _ := 2

def movements : Table ℕ (ℕ × ℤ) := Table.empty.insert 1 (7, 10)

/-- The movement is inserted between the SELECT and the UPDATE. -/
def between : List (Event Bool) := [.select true, .insert false, .commit false, .start true, .finish true]

/-- A movement of another account: the update writes the movement 1, which it has validated and declares. -/
theorem update_covered_sample :
    Covered true ((between ++ [Event.select true]).foldl
      (fun c e => (step (updateProgram moveUpdate (insertion (9, -5))) c e).getD c)
      (beforeUpdate true movements fun _ => 0)) := by
  refine (update_covered moveUpdate (insertion (9, -5)) true movements fun _ => 0).1 (between ++ [Event.select true])
    _ ?_
  refine .cons ⟨rfl, trivial⟩ (.cons ⟨rfl, trivial⟩ (.cons ⟨rfl, trivial⟩ (.cons ⟨rfl, ?_⟩
    (.cons ⟨rfl, trivial⟩ (.cons ⟨rfl, trivial⟩ (.nil _))))))
  intro _ trace hpc
  obtain rfl : (⟨{1}, ∅, ∅⟩ : Trace ℕ) = trace := (Local.service.inj hpc).2
  decide

/-- **A movement of the account itself, with a negative amount, is written without having been validated.** -/
theorem update_unvalidated :
    ¬ ∀ (u : Update ℕ (ℕ × ℤ) Unit Unit) (others : Program Bool ℕ (ℕ × ℤ) ℕ) (t : Table ℕ (ℕ × ℤ))
      (at' : Bool → ℕ) (es : List (Event Bool)) (c : Config Bool ℕ (ℕ × ℤ) (Local ℕ Unit Unit ℕ)),
      Run (Happens (updateProgram u others)) (beforeUpdate true t at') es c → Covered true c := by
  intro h
  have hcov := h moveUpdate (insertion (7, -5)) movements (fun _ => 0) between _ (Run.of_foldlM rfl)
  have hvalidated : (2 : ℕ) ∈ ({1} : Finset ℕ) := hcov.subset.1 (by decide)
  revert hvalidated
  decide

end Totem.Services
