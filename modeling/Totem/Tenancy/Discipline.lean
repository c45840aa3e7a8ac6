import Totem.Lib.Execution
import Totem.Tenancy.Database
import Mathlib.Data.List.Count

/-!
# Totem.Tenancy.Discipline — programs that select databases and open transactions

A `Program` nests `use_database` blocks and atomic blocks on `default`, queries through `default`, raises
and catches exceptions.  `exec` runs it, and logs each query and each call of `use_database`, with the
blocks around it and the selection at that time.

* `Coherent`: the selection is that of the innermost block, and the open atomic blocks are all on it.
* `exec_meets`: the invariant of an execution, in any coherent state.
* `use_database_discipline`: every program, from any state.

No assumption is made on the state a program starts in: only the blocks of the program count.
-/

namespace Totem.Tenancy

open Totem.Lib

inductive Program
  | skip
  | query
  | raise (code : ℕ)
  | seq (first second : Program)
  | useDatabase (name : String) (body : Program)
  | atomic (body : Program)
  | attempt (body : Program) (catches : Error → Bool) (handler : Program)
  | ensure (body cleanup : Program)

/-- The blocks around a point of the program, the innermost first; an atomic block with the alias it was
opened on. -/
inductive Frame
  | use (name : String)
  | atomic (dbAlias : String)
  deriving DecidableEq

inductive Event
  /-- A query on the connection of an alias, whose settings name this database. -/
  | query (dbAlias : String) (database : Option String)
  /-- A call of `use_database`, and what it raised. -/
  | use (name : String) (raised : Option Error)
  /-- A block was left, and what its body raised. -/
  | left (raised : Option Error)
  deriving DecidableEq

/-- An event, the blocks around it, and the selection then. -/
structure Logged where
  frames : List Frame
  selected : Option String
  event : Event
  deriving DecidableEq

section Exec

variable {S : Settings} {C : Type*} (B : Backend C)

/-- A query through `default`. -/
def State.query (frames : List Frame) (s : State S C) : Execution (State S C) Error Logged :=
  match s.getItem B with
  | .error e => .raise s e
  | .ok (s, dbAlias, conn) =>
    let (conn, failed) := B.execute s.time conn
    ⟨s.operated dbAlias conn, failed.map .backend,
      [⟨frames, s.selectedDatabase, .query dbAlias (s.nameOf dbAlias)⟩]⟩

/-- `Atomic.__enter__`, and the alias of the connection it was called on. -/
def State.enter (s : State S C) : State S C × Except Error String :=
  match s.getItem B with
  | .error e => (s, .error e)
  | .ok (s, dbAlias, conn) =>
    match B.enter s.time conn with
    | (conn, some code) => (s.operated dbAlias conn, .error (.backend code))
    | (conn, none) => (s.operated dbAlias conn, .ok dbAlias)

/-- A block is left, back to those around it. -/
def State.left (frames : List Frame) (raised failed : Option Error) (s : State S C) :
    Execution (State S C) Error Logged :=
  ⟨s, failed, [⟨frames, s.selectedDatabase, .left raised⟩]⟩

/-- `Atomic.__exit__`, which looks the connection up again. -/
def State.exit (frames : List Frame) (raised : Option Error) (s : State S C) :
    Execution (State S C) Error Logged :=
  match s.getItem B with
  | .error e => s.left frames raised (some e)
  | .ok (s, dbAlias, conn) =>
    let (conn, failed) := B.exit s.time raised.isSome conn
    (s.operated dbAlias conn).left frames raised (failed.map .backend)

def exec : List Frame → Program → State S C → Execution (State S C) Error Logged
  | _, .skip, s => .done s
  | frames, .query, s => s.query B frames
  | _, .raise code, s => .raise s (.raised code)
  | frames, .seq first second, s => (exec frames first s).andThen (exec frames second)
  | frames, .useDatabase name body, s =>
    match s.checkSwitch B name with
    | .error e => (Execution.raise s e).logging ⟨frames, s.selectedDatabase, .use name (some e)⟩
    | .ok db =>
      ((exec (.use name :: frames) body { s with selected := some db }).exitedBy
        fun raised t => State.left frames raised none { t with selected := s.selected }).logging
          ⟨frames, s.selectedDatabase, .use name none⟩
  | frames, .atomic body, s =>
    match s.enter B with
    | (s, .error e) => .raise s e
    | (s, .ok dbAlias) => (exec (.atomic dbAlias :: frames) body s).exitedBy (State.exit B frames)
  | frames, .attempt body catches handler, s =>
    (exec frames body s).handledBy catches (exec frames handler)
  | frames, .ensure body cleanup, s => (exec frames body s).cleanedBy (exec frames cleanup)

end Exec

/-! ## The invariant -/

/-- The database of the innermost `use_database`, or the one selected before the program. -/
def innermost (base : Option String) : List Frame → Option String
  | [] => base
  | .use name :: _ => some name
  | .atomic _ :: frames => innermost base frames

section Invariant

variable {S : Settings} {C : Type*} {B : Backend C} {s s' t : State S C} {base : Option String}
variable {frames : List Frame} {name dbAlias : String}

/-- The selection is that of the innermost block; every atomic block around is open, on the current
database. -/
structure Coherent (B : Backend C) (base : Option String) (frames : List Frame) (s : State S C) : Prop where
  selected : s.selectedDatabase = innermost base frames
  opened : ∀ a, frames.count (.atomic a) ≤ s.blocksOn B a
  current : ∀ a, .atomic a ∈ frames → a = s.currentDatabase

/-- What a program leaves as it was. -/
structure Kept (B : Backend C) (s s' : State S C) : Prop where
  selected : s'.selected = s.selected
  tenants : s.tenants ⊆ s'.tenants
  blocksOn : ∀ a, s'.blocksOn B a = s.blocksOn B a

/-- What is claimed of a logged event. -/
structure Logged.Disciplined (S : Settings) (base : Option String) (e : Logged) : Prop where
  selected : e.selected = innermost base e.frames
  query : ∀ a database, e.event = .query a database →
    a = (innermost base e.frames).getD S.default ∧
    (∀ name, innermost base e.frames = some name → database = some name) ∧
    ∀ a', .atomic a' ∈ e.frames → a' = a
  use : ∀ name raised, e.event = .use name raised → ∀ a, .atomic a ∈ e.frames → a ≠ name →
    raised = some (if S.Accepts name then .databaseSwitch else .databaseName)

theorem Kept.refl : Kept B s s := ⟨rfl, List.Subset.refl _, fun _ => rfl⟩

theorem Kept.trans (h : Kept B s s') (h' : Kept B s' t) : Kept B s t :=
  ⟨h'.selected.trans h.selected, List.Subset.trans h.tenants h'.tenants,
    fun a => (h'.blocksOn a).trans (h.blocksOn a)⟩

theorem Kept.selectedDatabase (h : Kept B s s') : s'.selectedDatabase = s.selectedDatabase := by
  unfold State.selectedDatabase
  rw [h.selected]

theorem Kept.currentDatabase (h : Kept B s s') : s'.currentDatabase = s.currentDatabase := by
  unfold State.currentDatabase
  rw [h.selectedDatabase]

theorem Coherent.of_kept (h : Coherent B base frames s) (hk : Kept B s s') : Coherent B base frames s' where
  selected := by rw [hk.selectedDatabase, h.selected]
  opened a := by rw [hk.blocksOn]; exact h.opened a
  current a ha := by rw [hk.currentDatabase]; exact h.current a ha

/-! ## The operations keep it -/

theorem kept_of_getItem (hB : B.Lawful) {conn : C} (h : s.getItem B = .ok (s', dbAlias, conn)) : Kept B s s' := by
  obtain ⟨-, hselected, htenants, -, -, hblocks⟩ := getItem_spec hB h
  exact ⟨hselected, htenants, hblocks⟩

theorem blocksOn_of_getItem (hB : B.Lawful) {conn : C} (h : s.getItem B = .ok (s', dbAlias, conn)) (conn' : C)
    (a : String) : (s'.operated dbAlias conn').blocksOn B a =
      if a = dbAlias then B.atomicBlocks conn' else s.blocksOn B a := by
  rw [blocksOn_operated, (kept_of_getItem hB h).blocksOn]

/-- An operation that opens and closes no atomic block. -/
theorem kept_operated (hB : B.Lawful) {conn conn' : C} (h : s.getItem B = .ok (s', dbAlias, conn))
    (hconn : B.atomicBlocks conn' = B.atomicBlocks conn) : Kept B s (s'.operated dbAlias conn') := by
  obtain ⟨-, hselected, htenants, -, hopen, -⟩ := getItem_spec hB h
  refine ⟨hselected, htenants, fun a => ?_⟩
  rw [blocksOn_of_getItem hB h]
  split_ifs with ha
  · rw [hconn, hopen, ha]
  · rfl

/-- **A query** runs on the database of the innermost block, and on that of every open atomic block. -/
theorem query_meets (hB : B.Lawful) (h : Coherent B base frames s) :
    (s.query B frames).Meets (Kept B s) (Logged.Disciplined S base) := by
  unfold State.query
  split
  · exact Execution.meets_raise Kept.refl
  · rename_i t dbAlias conn hget
    obtain ⟨halias, hsame, -, hmem, -, -⟩ := getItem_spec hB hget
    have hselected : t.selectedDatabase = innermost base frames :=
      (kept_of_getItem hB hget).selectedDatabase.trans h.selected
    refine ⟨kept_operated hB hget (hB.execute _ _), fun e he => ?_⟩
    obtain rfl := List.mem_singleton.mp he
    refine ⟨hselected, ?_, nofun⟩
    rintro a database ⟨⟩
    refine ⟨?_, fun name hname => ?_, fun a' ha' => (h.current a' ha').trans halias.symm⟩
    · rw [halias, ← h.selected]
      rfl
    · rw [← hselected] at hname
      obtain ⟨db, hdb, rfl⟩ := Option.map_eq_some_iff.mp hname
      have hdefault : db.1 = dbAlias := by
        rw [halias, State.currentDatabase, State.selectedDatabase, ← hsame, hdb]
        rfl
      rw [← hdefault] at hmem ⊢
      exact nameOf_of_mem db hmem

/-- **Entering an atomic block**: it is open on the current database, unless that fails. -/
theorem enter_spec (hB : B.Lawful) :
    (∀ e, (s.enter B).2 = .error e → Kept B s (s.enter B).1) ∧
    ∀ a, (s.enter B).2 = .ok a → a = s.currentDatabase ∧ (s.enter B).1.selected = s.selected ∧
      s.tenants ⊆ (s.enter B).1.tenants ∧ a ∈ (s.enter B).1.aliases ∧
      ∀ x, (s.enter B).1.blocksOn B x = if x = a then s.blocksOn B a + 1 else s.blocksOn B x := by
  unfold State.enter
  split
  · exact ⟨fun e _ => Kept.refl, nofun⟩
  · rename_i t dbAlias conn hget
    obtain ⟨halias, hselected, htenants, hmem, hopen, -⟩ := getItem_spec hB hget
    split
    · rename_i conn' code henter
      have hblocks := hB.enter_failed t.time conn (by rw [henter]; simp)
      rw [henter] at hblocks
      exact ⟨fun e _ => kept_operated hB hget hblocks, nofun⟩
    · rename_i conn' henter
      have hblocks := hB.enter t.time conn (by rw [henter])
      rw [henter] at hblocks
      refine ⟨nofun, ?_⟩
      rintro a ⟨⟩
      refine ⟨halias, hselected, htenants, hmem, fun x => ?_⟩
      rw [blocksOn_of_getItem hB hget, hblocks, hopen]

theorem disciplined_left {raised : Option Error} (h : s.selectedDatabase = innermost base frames) :
    Logged.Disciplined S base ⟨frames, s.selectedDatabase, .left raised⟩ := ⟨h, nofun, nofun⟩

/-- **Leaving an atomic block**: it is closed on the connection of the current database, even if that
fails. -/
theorem exit_meets (hB : B.Lawful) (raised : Option Error) (hselected : s.selectedDatabase = innermost base frames)
    (h : s.currentDatabase ∈ s.aliases) :
    (s.exit B frames raised).Meets (fun t => t.selected = s.selected ∧ s.tenants ⊆ t.tenants ∧
      ∀ x, t.blocksOn B x = if x = s.currentDatabase then s.blocksOn B x - 1 else s.blocksOn B x)
      (Logged.Disciplined S base) := by
  obtain ⟨t, conn, hget⟩ := getItem_of_mem (B := B) h
  obtain ⟨-, hsame, htenants, -, hopen, -⟩ := getItem_spec hB hget
  unfold State.exit
  rw [hget]
  refine Execution.meets_single ⟨hsame, htenants, fun x => ?_⟩ (disciplined_left ?_)
  · show (t.operated s.currentDatabase (B.exit t.time raised.isSome conn).1).blocksOn B x = _
    rw [blocksOn_of_getItem hB hget, hB.exit, hopen]
    split_ifs with hx
    · rw [hx]
    · rfl
  · rw [← hselected, State.selectedDatabase, State.selectedDatabase, ← hsame]
    rfl

/-- **A call of `use_database`** under an atomic block of another database is refused. -/
theorem checkSwitch_refused (hB : B.Lawful) (h : Coherent B base frames s) {a : String}
    (ha : .atomic a ∈ frames) (hne : a ≠ name) :
    s.checkSwitch B name = .error (if S.Accepts name then .databaseSwitch else .databaseName) := by
  have hcurrent := h.current a ha
  have hopen : 0 < s.blocksOn B a := Nat.lt_of_lt_of_le (List.count_pos_iff.mpr ha) (h.opened a)
  have hatomic : (s.getInitialized s.currentDatabase).any B.inAtomicBlock = true := by
    rw [getInitialized_current, ← hcurrent]
    unfold State.blocksOn at hopen
    cases hconn : s.connections a with
    | none =>
      rw [hconn] at hopen
      exact absurd hopen (Nat.lt_irrefl 0)
    | some c =>
      rw [hconn] at hopen
      exact hB.inAtomicBlock c hopen
  unfold State.checkSwitch
  rw [validateDatabaseName_eq]
  by_cases hname : S.Accepts name
  · rw [dif_pos hname, if_pos hname]
    show (if name ≠ s.currentDatabase ∧ _ then _ else _) = _
    rw [if_pos ⟨hcurrent ▸ hne.symm, hatomic⟩]
  · rw [dif_neg hname, if_neg hname]
    rfl

/-- **A call that is accepted.**  Either the database does not change, or no atomic block is around. -/
theorem coherent_use (hB : B.Lawful) (h : Coherent B base frames s) {db : S.DatabaseName}
    (hcheck : s.checkSwitch B name = .ok db) :
    db.1 = name ∧ Coherent B base (.use name :: frames) { s with selected := some db } := by
  have hname : db.1 = name := by
    unfold State.checkSwitch at hcheck
    obtain ⟨db', hvalid, hdb⟩ := Lib.bind_eq_ok.mp hcheck
    rw [validateDatabaseName_eq] at hvalid
    split_ifs at hvalid with haccepts
    · obtain rfl := Except.ok.inj hvalid
      split_ifs at hdb
      rw [← Except.ok.inj hdb]
  refine ⟨hname, ?_, fun a => ?_, fun a ha => ?_⟩
  · exact congrArg some hname
  · rw [List.count_cons_of_ne (by simp)]
    exact h.opened a
  · by_contra hne
    have ha' : .atomic a ∈ frames := List.mem_of_ne_of_mem (by simp) ha
    rw [checkSwitch_refused hB h ha' (fun heq => hne (heq.trans hname.symm))] at hcheck
    cases hcheck

/-- **The invariant of an execution.**  By induction on the program, for every state in which the blocks
around it are open: the selection and the open blocks are left as they were, and each event is disciplined. -/
theorem exec_meets (hB : B.Lawful) (p : Program) (h : Coherent B base frames s) :
    (exec B frames p s).Meets (Kept B s) (Logged.Disciplined S base) := by
  induction p generalizing frames s with
  | skip => exact Execution.meets_done Kept.refl
  | query => exact query_meets hB h
  | raise code => exact Execution.meets_raise Kept.refl
  | seq first second ihf ihs =>
    exact (ihf h).andThen fun t ht => (ihs (h.of_kept ht)).mono fun _ => ht.trans
  | attempt body catches handler ihb ihh =>
    exact (ihb h).handledBy catches fun t ht => (ihh (h.of_kept ht)).mono fun _ => ht.trans
  | ensure body cleanup ihb ihc =>
    exact (ihb h).cleanedBy fun t ht => (ihc (h.of_kept ht)).mono fun _ => ht.trans
  | useDatabase name body ih =>
    unfold exec
    split
    · rename_i e he
      refine (Execution.meets_raise Kept.refl).logging ⟨h.selected, nofun, ?_⟩
      rintro _ _ ⟨⟩ a ha hne
      rw [checkSwitch_refused hB h ha hne] at he
      exact congrArg some (Except.error.inj he).symm
    · rename_i db hdb
      obtain ⟨hname, hcoherent⟩ := coherent_use hB h hdb
      refine Execution.Meets.logging ?_ ⟨h.selected, nofun, ?_⟩
      · exact (ih hcoherent).exitedBy fun raised t ht =>
          Execution.meets_single ⟨rfl, ht.tenants, ht.blocksOn⟩ (disciplined_left h.selected)
      · rintro _ _ ⟨⟩ a ha hne
        rw [checkSwitch_refused hB h ha hne] at hdb
        cases hdb
  | atomic body ih =>
    unfold exec
    obtain ⟨hfailed, hentered⟩ := enter_spec (s := s) hB
    split
    · rename_i t e he
      rw [he] at hfailed
      exact Execution.meets_raise (hfailed e rfl)
    · rename_i t a ha
      rw [ha] at hentered
      obtain ⟨hcurrent, hselected, htenants, hmem, hblocks⟩ := hentered a rfl
      have hsame : t.currentDatabase = s.currentDatabase := by
        unfold State.currentDatabase State.selectedDatabase
        rw [hselected]
      have hcoherent : Coherent B base (.atomic a :: frames) t := by
        refine ⟨?_, fun x => ?_, fun x hx => ?_⟩
        · rw [innermost, ← h.selected, State.selectedDatabase, hselected]
          rfl
        · have hx := h.opened x
          rw [hblocks, List.count_cons]
          by_cases hxa : x = a
          · subst hxa
            simp [hx]
          · simp [hxa, hx, Ne.symm hxa]
        · rw [hsame]
          rcases List.mem_cons.mp hx with heq | hx
          · cases heq
            exact hcurrent
          · exact h.current x hx
      refine (ih hcoherent).exitedBy fun raised u hu => ?_
      have hselected' : u.selectedDatabase = innermost base frames := by
        rw [← h.selected, hu.selectedDatabase, State.selectedDatabase, hselected]
        rfl
      have hmem' : u.currentDatabase ∈ u.aliases := by
        rw [hu.currentDatabase, hsame, ← hcurrent]
        exact mem_aliases_of_subset hu.tenants hmem
      refine (exit_meets hB raised hselected' hmem').mono fun v ⟨hv, htenants', hblocks'⟩ => ?_
      refine ⟨hv.trans (hu.selected.trans hselected), List.Subset.trans htenants (List.Subset.trans hu.tenants htenants'),
        fun x => ?_⟩
      rw [hblocks', hu.blocksOn, hu.currentDatabase, hsame, ← hcurrent, hblocks]
      split_ifs with hxa
      · rw [hxa]
        omega
      · rfl

/-- **The discipline.**  Every program, from any state, whatever the database answers: the selection is
restored, and at each query and each call the selection is that of the innermost block; the query runs on
that database, and on no other than that of an open atomic block; and a call that would leave the database
of an open atomic block is refused. -/
theorem use_database_discipline (hB : B.Lawful) (p : Program) (s : State S C) :
    (exec B [] p s).state.selected = s.selected ∧
      ∀ e ∈ (exec B [] p s).events, e.Disciplined S s.selectedDatabase := by
  have h : Coherent B s.selectedDatabase [] s := ⟨rfl, fun a => Nat.zero_le _, nofun⟩
  have hmeets := exec_meets hB p h
  exact ⟨hmeets.state.selected, hmeets.events⟩

end Invariant

section Sample

/-- A connection on which nothing fails: the flag of the outermost block, and the savepoints in it. -/
structure Wrapper where
  inAtomicBlock : Bool
  savepoints : ℕ

def wrapper : Backend Wrapper where
  create _ := ⟨false, 0⟩
  inAtomicBlock c := c.inAtomicBlock
  atomicBlocks c := if c.inAtomicBlock then c.savepoints + 1 else 0
  enter _ c := (if c.inAtomicBlock then { c with savepoints := c.savepoints + 1 } else ⟨true, 0⟩, none)
  exit _ _ c := (if c.savepoints = 0 then { c with inAtomicBlock := false }
    else { c with savepoints := c.savepoints - 1 }, none)
  execute _ c := (c, none)

theorem wrapper_lawful : wrapper.Lawful where
  create _ := rfl
  enter _ c _ := by
    cases h : c.inAtomicBlock <;> simp [wrapper, h]
  enter_failed _ _ h := absurd rfl h
  exit _ _ c := by
    by_cases hs : c.savepoints = 0 <;> cases h : c.inAtomicBlock <;> simp [wrapper, hs, h]
    omega
  execute _ _ := rfl
  inAtomicBlock c h := by
    cases hc : c.inAtomicBlock with
    | false => simp [wrapper, hc] at h
    | true => exact hc

/-- Within a transaction on one tenant: a query, a switch that is refused and caught, then an exception
that unwinds both blocks. -/
def unwinding : Program :=
  .attempt (.useDatabase "acme" (.atomic (.seq .query
    (.seq (.attempt (.useDatabase "globex" .query) (· == .databaseSwitch) .query) (.raise 1)))))
    (· == .raised 1) .query

def started : State ⟨"totem", [("saas_base", "saas")]⟩ Wrapper := ⟨none, [], fun _ => none, 0⟩

theorem use_database_discipline_sample :
    (exec wrapper [] unwinding started).events =
      [⟨[], none, .use "acme" none⟩,
        ⟨[.atomic "acme", .use "acme"], some "acme", .query "acme" (some "acme")⟩,
        ⟨[.atomic "acme", .use "acme"], some "acme", .use "globex" (some .databaseSwitch)⟩,
        ⟨[.atomic "acme", .use "acme"], some "acme", .query "acme" (some "acme")⟩,
        ⟨[.use "acme"], some "acme", .left (some (.raised 1))⟩,
        ⟨[], none, .left (some (.raised 1))⟩,
        ⟨[], none, .query "totem" (some "totem")⟩] ∧
      ∀ e ∈ (exec wrapper [] unwinding started).events,
        e.Disciplined ⟨"totem", [("saas_base", "saas")]⟩ none :=
  ⟨by decide +kernel, (use_database_discipline wrapper_lawful unwinding started).2⟩

end Sample

end Totem.Tenancy
