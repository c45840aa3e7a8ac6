import Totem.Lib.Run
import Totem.Tenancy.Discipline

/-!
# Totem.Tenancy.Jobs — requests, and the tasks they send to the workers

* `Job`: the code of a view or of a task: a `Program` that sends tasks too.  `call` is `TenantTask.__call__`,
  `middleware` is `TenantMiddleware`, `dbNameHeader` is what `add_db_name_header` puts on a message.
* `World.step`: a thread answers a request, or runs a task for any message that was ever sent, so that a message may
  be late, come out of order, or come again; and the process may be killed in the middle of it.
* `uses`: the databases of the blocks around a point, the innermost first.  The `lineage` of a query goes on with the
  blocks that were around the sending of its task, in whatever process that was.
* `tasks_follow_lineage`: every run.

A `Message` carries two fields that the code does not have: its lineage, and the header of the request it comes from.
The answers of the broker are a parameter, as those of the database are.
-/

namespace Totem.Tenancy.Jobs

open Totem.Lib

inductive Job (τ : Type*)
  | skip
  | query
  | raise (code : ℕ)
  | seq (first second : Job τ)
  | useDatabase (name : String) (body : Job τ)
  | atomic (body : Job τ)
  | attempt (body : Job τ) (catches : Error → Bool) (handler : Job τ)
  | ensure (body cleanup : Job τ)
  /-- `task.apply_async(headers=...)`, and the `db_name` in these headers, if they have one. -/
  | send (task : τ) (given : Option (Option String))

/-- `TenantTask.__call__`, for the `message_db_name` of the request; a task that is called directly has none. -/
def Job.call {τ : Type*} (dbName : Option String) (body : Job τ) : Job τ :=
  match dbName with
  | none => body
  | some name => .useDatabase name body

/-- What an execution logs: that of the database, and the tasks it sends, with the blocks around. -/
inductive Entry (τ : Type*)
  | database (e : Logged)
  | sent (frames : List Frame) (task : τ) (given : Option (Option String)) (dbName : Option String)

namespace Entry

variable {τ : Type*}

def frames : Entry τ → List Frame
  | .database e => e.frames
  | .sent frames _ _ _ => frames

end Entry

section Exec

variable {S : Settings} {C τ : Type*} (B : Backend C) (broker : ℕ → Option ℕ)

/-- `add_db_name_header`: `headers.setdefault`. -/
def dbNameHeader (s : State S C) (given : Option (Option String)) : Option String :=
  given.getD (some s.currentDatabase)

/-- `TenantMiddleware.__call__`: what runs of a view, of which a bad header leaves nothing. -/
def middleware (s : State S C) (header : Option String) (view : Job τ) : Job τ :=
  match header.filter (· ≠ "") with
  | none => view
  | some dbName =>
    match s.validateDatabaseName dbName with
    | .error _ => .skip
    | .ok _ => .useDatabase dbName view

def exec : List Frame → Job τ → State S C → Execution (State S C) Error (Entry τ)
  | _, .skip, s => .done s
  | frames, .query, s => (s.query B frames).mapEvents .database
  | _, .raise code, s => .raise s (.raised code)
  | frames, .seq first second, s => (exec frames first s).andThen (exec frames second)
  | frames, .useDatabase name body, s =>
    match s.checkSwitch B name with
    | .error e => (Execution.raise s e).logging (.database ⟨frames, s.selectedDatabase, .use name (some e)⟩)
    | .ok db =>
      ((exec (.use name :: frames) body { s with selected := some db }).exitedBy
        fun raised t => (State.left frames raised none { t with selected := s.selected }).mapEvents .database).logging
          (.database ⟨frames, s.selectedDatabase, .use name none⟩)
  | frames, .atomic body, s =>
    match s.enter B with
    | (s, .error e) => .raise s e
    | (s, .ok dbAlias) => (exec (.atomic dbAlias :: frames) body s).exitedBy
        fun raised t => (t.exit B frames raised).mapEvents .database
  | frames, .attempt body catches handler, s =>
    (exec frames body s).handledBy catches (exec frames handler)
  | frames, .ensure body cleanup, s => (exec frames body s).cleanedBy (exec frames cleanup)
  | frames, .send task given, s =>
    match broker s.time with
    | some code => .raise { s with time := s.time + 1 } (.backend code)
    | none => ⟨{ s with time := s.time + 1 }, none, [.sent frames task given (dbNameHeader s given)]⟩

end Exec

/-! ## The processes -/

/-- A message, the header of the request at its origin, and the blocks around its sending. -/
structure Message (τ : Type*) where
  task : τ
  dbName : Option String
  root : Option String
  lineage : List String
  deriving DecidableEq

/-- A query, the `db_name` of the message that its task was run for, and the blocks around it. -/
structure Query where
  root : Option String
  sentTo : Option String
  lineage : List String
  dbAlias : String
  database : Option String
  deriving DecidableEq

/-- What a job is run for. -/
structure Cause where
  root : Option String
  sentTo : Option String
  lineage : List String

/-- The databases of the blocks, the innermost first. -/
def uses : List Frame → List String
  | [] => []
  | .use name :: frames => name :: uses frames
  | .atomic _ :: frames => uses frames

/-- The blocks around a point of a job.  The outermost one of a task is that of its message, which only repeats the
database it was sent under. -/
def Cause.blocks (cause : Cause) (frames : List Frame) : List String :=
  match cause.sentTo with
  | none => uses frames
  | some _ => (uses frames).dropLast ++ cause.lineage

/-- The threads of all processes, the messages that were sent, and the queries. -/
structure World (S : Settings) (C ι τ : Type*) where
  threads : ι → State S C
  sent : List (Message τ)
  queries : List Query

inductive Event (ι τ : Type*)
  /-- A request for a view, with its `X-Tenant-Db` header. -/
  | request (thread : ι) (header : Option String) (view : Job τ) (killed : Option ℕ)
  /-- A worker runs the task of a message; or it is killed, with this many entries logged. -/
  | work (thread : ι) (message : ℕ) (killed : Option ℕ)

section Step

variable {S : Settings} {C ι τ : Type*} [DecidableEq ι] (B : Backend C) (broker : ℕ → Option ℕ) (tasks : τ → Job τ)

/-- A thread that has done nothing. -/
def State.fresh (time : ℕ) : State S C := ⟨none, [], fun _ => none, time⟩

/-- The messages and the queries of one entry. -/
def World.log (cause : Cause) (w : World S C ι τ) : Entry τ → World S C ι τ
  | .database ⟨frames, _, .query dbAlias database⟩ =>
    { w with queries := w.queries ++ [⟨cause.root, cause.sentTo, cause.blocks frames, dbAlias, database⟩] }
  | .database _ => w
  | .sent frames task given dbName =>
    let lineage := match given with
      | none => cause.blocks frames
      | some none => []
      | some (some name) => name :: cause.blocks frames
    { w with sent := w.sent ++ [⟨task, dbName, cause.root, lineage⟩] }

/-- A thread runs a job, up to where it is killed; another one takes its place then. -/
def World.execute (w : World S C ι τ) (thread : ι) (cause : Cause) (job : Job τ) (killed : Option ℕ) :
    World S C ι τ :=
  let r := exec B broker [] job (w.threads thread)
  match killed with
  | none => { r.events.foldl (World.log cause) w with threads := Function.update w.threads thread r.state }
  | some n => { (r.events.take n).foldl (World.log cause) w with
      threads := Function.update w.threads thread (State.fresh r.state.time) }

def World.step (w : World S C ι τ) : Event ι τ → Option (World S C ι τ)
  | .request thread header view killed =>
    some (w.execute B broker thread ⟨header.filter (· ≠ ""), none, []⟩
      (middleware (w.threads thread) header view) killed)
  | .work thread message killed =>
    w.sent[message]?.map fun m =>
      w.execute B broker thread ⟨m.root, m.dbName, m.lineage⟩ ((tasks m.task).call m.dbName) killed

def World.start : World S C ι τ := ⟨fun _ => State.fresh 0, [], []⟩

end Step

/-! ## Code that leaves the database alone -/

/-- No `use_database`, and no `db_name` in the headers of a task. -/
def Job.Plain {τ : Type*} : Job τ → Prop
  | .skip | .query | .raise _ => True
  | .seq first second => first.Plain ∧ second.Plain
  | .useDatabase _ _ => False
  | .atomic body => body.Plain
  | .attempt body _ handler => body.Plain ∧ handler.Plain
  | .ensure body cleanup => body.Plain ∧ cleanup.Plain
  | .send _ given => given = none

def Event.Plain {ι τ : Type*} : Event ι τ → Prop
  | .request _ _ view _ => view.Plain
  | .work _ _ _ => True

/-! ## One job -/

section Exec

variable {S : Settings} {C τ : Type*} {B : Backend C} {broker : ℕ → Option ℕ} {s s' : State S C} {frames : List Frame}
variable {base : Option String}

theorem innermost_eq (base : Option String) (frames : List Frame) :
    innermost base frames = (uses frames).head?.or base := by
  induction frames with
  | nil => rfl
  | cons frame frames ih =>
    cases frame with
    | use name => rfl
    | atomic a => exact ih

/-- What is claimed of an entry. -/
def Entry.Follows (S : Settings) (base : Option String) : Entry τ → Prop
  | .database e => e.Disciplined S base
  | .sent frames _ given dbName => dbName = given.getD (some ((innermost base frames).getD S.default))

theorem accepts_of_checkSwitch {name : String} {db : S.DatabaseName} (h : s.checkSwitch B name = .ok db) :
    S.Accepts name := by
  unfold State.checkSwitch at h
  obtain ⟨db', hvalid, -⟩ := Lib.bind_eq_ok.mp h
  rw [validateDatabaseName_eq] at hvalid
  split_ifs at hvalid with haccepts
  exact haccepts

theorem frames_query {e : Logged} (he : e ∈ (s.query B frames).events) : e.frames = frames := by
  unfold State.query at he
  split at he
  · cases he
  · obtain rfl := List.mem_singleton.mp he
    rfl

theorem frames_left {raised failed : Option Error} {e : Logged}
    (he : e ∈ (s.left frames raised failed).events) : e.frames = frames := by
  obtain rfl := List.mem_singleton.mp he
  rfl

theorem frames_exit {raised : Option Error} {e : Logged} (he : e ∈ (s.exit B frames raised).events) :
    e.frames = frames := by
  unfold State.exit at he
  split at he
  · exact frames_left he
  · exact frames_left he

/-- An entry made under these blocks, and under others that were accepted. -/
def Entry.Under (S : Settings) (frames : List Frame) (e : Entry τ) : Prop :=
  frames <:+ e.frames ∧ ∀ name, .use name ∈ e.frames → .use name ∈ frames ∨ S.Accepts name

theorem Entry.under_self {e : Entry τ} (h : e.frames = frames) : e.Under S frames := by
  unfold Entry.Under
  rw [h]
  exact ⟨List.suffix_refl _, fun _ => .inl⟩

theorem Entry.Under.of_cons {e : Entry τ} {frame : Frame} (h : e.Under S (frame :: frames))
    (hframe : ∀ name, frame = .use name → S.Accepts name) : e.Under S frames := by
  refine ⟨(List.suffix_cons _ _).trans h.1, fun name hname => ?_⟩
  rcases h.2 name hname with hmem | hmem
  · rcases List.mem_cons.mp hmem with heq | hmem
    · exact .inr (hframe name heq.symm)
    · exact .inl hmem
  · exact .inr hmem

theorem under_mapEvents {r : Execution (State S C) Error Logged} (h : ∀ e ∈ r.events, e.frames = frames) :
    (r.mapEvents .database : Execution (State S C) Error (Entry τ)).Meets (fun _ => True)
      (Entry.Under S frames) := by
  refine ⟨trivial, fun e he => ?_⟩
  obtain ⟨w, hw, rfl⟩ := List.mem_map.mp he
  exact Entry.under_self (h w hw)

/-- The blocks of a job are within those it is run in, and are on databases that are accepted. -/
theorem exec_under (job : Job τ) (frames : List Frame) (s : State S C) :
    (exec B broker frames job s).Meets (fun _ => True) (Entry.Under S frames) := by
  induction job generalizing frames s with
  | skip => exact Execution.meets_done trivial
  | query => exact under_mapEvents fun e => frames_query
  | raise code => exact Execution.meets_raise trivial
  | seq first second ihf ihs => exact (ihf frames s).andThen fun t _ => ihs frames t
  | attempt body catches handler ihb ihh => exact (ihb frames s).handledBy catches fun t _ => ihh frames t
  | ensure body cleanup ihb ihc => exact (ihb frames s).cleanedBy fun t _ => ihc frames t
  | useDatabase name body ih =>
    unfold exec
    split
    · exact (Execution.meets_raise trivial).logging (Entry.under_self rfl)
    · rename_i db hdb
      refine Execution.Meets.logging ?_ (Entry.under_self rfl)
      refine Execution.Meets.exitedBy (P := fun _ => True) ⟨trivial, fun e he => ?_⟩ fun raised t _ =>
        under_mapEvents fun e => frames_left
      refine ((ih _ _).events e he).of_cons ?_
      rintro name' ⟨⟩
      exact accepts_of_checkSwitch hdb
  | atomic body ih =>
    unfold exec
    split
    · exact Execution.meets_raise trivial
    · refine Execution.Meets.exitedBy (P := fun _ => True) ⟨trivial, fun e he => ?_⟩ fun raised t _ =>
        under_mapEvents fun e => frames_exit
      exact ((ih _ _).events e he).of_cons nofun
  | send task given =>
    unfold exec
    split
    · exact Execution.meets_raise trivial
    · exact Execution.meets_single trivial (Entry.under_self rfl)

/-- A connection is looked up as before after the time has passed. -/
theorem kept_later : Kept B s { s with time := s.time + 1 } := ⟨rfl, List.Subset.refl _, fun _ => rfl⟩

/-- An atomic block: it is left on the database it was entered on, with the blocks that were open before. -/
theorem atomic_meets (hB : B.Lawful) (h : Coherent B base frames s) {t : State S C} {a : String}
    (henter : s.enter B = (t, .ok a)) {r : Execution (State S C) Error (Entry τ)}
    (hr : Coherent B base (.atomic a :: frames) t → r.Meets (Kept B t) (Entry.Follows S base)) :
    (r.exitedBy fun raised u => (u.exit B frames raised).mapEvents .database).Meets (Kept B s)
      (Entry.Follows S base) := by
  obtain ⟨hcurrent, hselected, htenants, hmem, hblocks⟩ := (enter_spec (s := s) hB).2 a (by rw [henter])
  rw [henter] at hselected htenants hmem hblocks
  have hsame : t.currentDatabase = s.currentDatabase := by
    unfold State.currentDatabase State.selectedDatabase
    rw [hselected]
  have hcoherent : Coherent B base (.atomic a :: frames) t := by
    refine ⟨?_, fun x => ?_, fun x hx => ?_⟩
    · rw [innermost, ← h.selected, State.selectedDatabase, hselected]
      rfl
    · have hx := h.opened x
      rw [hblocks, List.count_cons]
      by_cases hxa : x = a
      · subst hxa
        simp [hx]
      · simp [hxa, hx, Ne.symm hxa]
    · rw [hsame]
      rcases List.mem_cons.mp hx with heq | hx
      · cases heq
        exact hcurrent
      · exact h.current x hx
  refine (hr hcoherent).exitedBy fun raised u hu => ?_
  have hselected' : u.selectedDatabase = innermost base frames := by
    rw [← h.selected, hu.selectedDatabase, State.selectedDatabase, hselected]
    rfl
  have hmem' : u.currentDatabase ∈ u.aliases := by
    rw [hu.currentDatabase, hsame, ← hcurrent]
    exact mem_aliases_of_subset hu.tenants hmem
  refine ((exit_meets hB raised hselected' hmem').mono fun v hexit => ?_).mapEvents fun _ he => he
  obtain ⟨hv, htenants', hblocks'⟩ := hexit
  refine ⟨hv.trans (hu.selected.trans hselected),
    List.Subset.trans htenants (List.Subset.trans hu.tenants htenants'), fun x => ?_⟩
  rw [hblocks', hu.blocksOn, hu.currentDatabase, hsame, ← hcurrent, hblocks]
  split_ifs with hxa
  · rw [hxa]
    omega
  · rfl

/-- **The invariant of a job**, as that of a `Program`; a message is stamped with the database of the innermost
block. -/
theorem exec_meets (hB : B.Lawful) (job : Job τ) (h : Coherent B base frames s) :
    (exec B broker frames job s).Meets (Kept B s) (Entry.Follows S base) := by
  induction job generalizing frames s with
  | skip => exact Execution.meets_done Kept.refl
  | query => exact (query_meets hB h).mapEvents fun _ he => he
  | raise code => exact Execution.meets_raise Kept.refl
  | seq first second ihf ihs =>
    exact (ihf h).andThen fun t ht => (ihs (h.of_kept ht)).mono fun _ => ht.trans
  | attempt body catches handler ihb ihh =>
    exact (ihb h).handledBy catches fun t ht => (ihh (h.of_kept ht)).mono fun _ => ht.trans
  | ensure body cleanup ihb ihc =>
    exact (ihb h).cleanedBy fun t ht => (ihc (h.of_kept ht)).mono fun _ => ht.trans
  | useDatabase name body ih =>
    unfold exec
    split
    · rename_i e he
      refine (Execution.meets_raise Kept.refl).logging ⟨h.selected, nofun, ?_⟩
      rintro _ _ ⟨⟩ a ha hne
      rw [checkSwitch_refused hB h ha hne] at he
      exact congrArg some (Except.error.inj he).symm
    · rename_i db hdb
      obtain ⟨hname, hcoherent⟩ := coherent_use hB h hdb
      refine Execution.Meets.logging ?_ ⟨h.selected, nofun, ?_⟩
      · refine (ih hcoherent).exitedBy fun raised t ht => Execution.Meets.mapEvents (Q := Logged.Disciplined S base)
          ?_ fun _ he => he
        exact Execution.meets_single ⟨rfl, ht.tenants, ht.blocksOn⟩ (disciplined_left h.selected)
      · rintro _ _ ⟨⟩ a ha hne
        rw [checkSwitch_refused hB h ha hne] at hdb
        cases hdb
  | atomic body ih =>
    unfold exec
    split
    · rename_i t e he
      have hfailed := (enter_spec (s := s) hB).1
      rw [he] at hfailed
      exact Execution.meets_raise (hfailed e rfl)
    · rename_i t a ha
      exact atomic_meets hB h ha ih
  | send task given =>
    unfold exec
    split
    · exact Execution.meets_raise kept_later
    · refine Execution.meets_single kept_later ?_
      show given.getD (some s.currentDatabase) = _
      rw [State.currentDatabase, h.selected]

/-- A query, or a task that is sent. -/
def Entry.Works : Entry τ → Prop
  | .database e => ∃ dbAlias database, e.event = .query dbAlias database
  | .sent _ _ _ _ => True

/-- What a task of a message does is under the block of that message. -/
theorem works_call {dbName : Option String} {body : Job τ} {e : Entry τ}
    (he : e ∈ (exec B broker [] (body.call dbName) s).events) (hworks : e.Works) :
    (∃ t : State S C, e ∈ (exec B broker (dbName.elim [] fun name => [.use name]) body t).events) ∧
      ∀ name, dbName = some name → [.use name] <:+ e.frames ∧ S.Accepts name := by
  cases dbName with
  | none => exact ⟨⟨s, he⟩, nofun⟩
  | some name =>
    have hbody : ∃ t : State S C, e ∈ (exec B broker [.use name] body t).events := by
      unfold Job.call exec at he
      split at he
      · obtain rfl := List.mem_singleton.mp he
        obtain ⟨_, _, h⟩ := hworks
        cases h
      · rcases List.mem_cons.mp he with rfl | he
        · obtain ⟨_, _, h⟩ := hworks
          cases h
        · rcases List.mem_append.mp he with he | he
          · exact ⟨_, he⟩
          · obtain rfl := List.mem_singleton.mp he
            obtain ⟨_, _, h⟩ := hworks
            cases h
    obtain ⟨t, ht⟩ := hbody
    have hunder := ((exec_under body _ t).events e ht).1
    refine ⟨⟨t, ht⟩, ?_⟩
    rintro _ ⟨⟩
    refine ⟨hunder, ?_⟩
    rcases ((exec_under _ _ _).events e he).2 name (hunder.subset List.mem_cons_self) with h | h
    · cases h
    · exact h

/-- What plain code does is under the blocks that it is run in. -/
def Entry.Plain (frames : List Frame) (e : Entry τ) : Prop :=
  uses e.frames = uses frames ∧ ∀ fs task given dbName, e = .sent fs task given dbName → given = none

theorem plain_mapEvents {r : Execution (State S C) Error Logged} (h : ∀ e ∈ r.events, e.frames = frames) :
    (r.mapEvents .database : Execution (State S C) Error (Entry τ)).Meets (fun _ => True)
      (Entry.Plain frames) := by
  refine ⟨trivial, fun e he => ?_⟩
  obtain ⟨w, hw, rfl⟩ := List.mem_map.mp he
  exact ⟨congrArg uses (h w hw), nofun⟩

theorem exec_plain {job : Job τ} (hjob : job.Plain) (frames : List Frame) (s : State S C) :
    (exec B broker frames job s).Meets (fun _ => True) (Entry.Plain frames) := by
  induction job generalizing frames s with
  | skip => exact Execution.meets_done trivial
  | query => exact plain_mapEvents fun e => frames_query
  | raise code => exact Execution.meets_raise trivial
  | seq first second ihf ihs => exact (ihf hjob.1 frames s).andThen fun t _ => ihs hjob.2 frames t
  | attempt body catches handler ihb ihh =>
    exact (ihb hjob.1 frames s).handledBy catches fun t _ => ihh hjob.2 frames t
  | ensure body cleanup ihb ihc => exact (ihb hjob.1 frames s).cleanedBy fun t _ => ihc hjob.2 frames t
  | useDatabase name body ih => exact absurd hjob id
  | atomic body ih =>
    unfold exec
    split
    · exact Execution.meets_raise trivial
    · rename_i t a _
      have hbody : (exec B broker (.atomic a :: frames) body t).Meets (fun _ => True) (Entry.Plain frames) :=
        ih hjob (.atomic a :: frames) t
      exact hbody.exitedBy fun raised u _ => plain_mapEvents fun e => frames_exit
  | send task given =>
    unfold exec
    split
    · exact Execution.meets_raise trivial
    · refine Execution.meets_single trivial ⟨rfl, ?_⟩
      rintro _ _ _ _ ⟨⟩
      exact hjob

end Exec

/-! ## The invariant of a run -/

section Run

variable {S : Settings} {C ι τ : Type*} [DecidableEq ι] {B : Backend C} {broker : ℕ → Option ℕ} {tasks : τ → Job τ}
variable {w w' : World S C ι τ} {cause : Cause} {frames : List Frame}

/-- A message names the database of the innermost block around its sending. -/
structure Cause.Sound (S : Settings) (cause : Cause) : Prop where
  unnamed : cause.sentTo = none → cause.lineage = []
  named : ∀ name, cause.sentTo = some name → name = cause.lineage.head?.getD S.default

theorem uses_append (frames frames' : List Frame) : uses (frames ++ frames') = uses frames ++ uses frames' := by
  induction frames with
  | nil => rfl
  | cons frame frames ih =>
    cases frame with
    | use name => exact congrArg (name :: ·) ih
    | atomic a => exact ih

/-- The innermost block of a job is that of its lineage, or the default database. -/
theorem innermost_blocks (h : cause.Sound S) (hframes : ∀ name, cause.sentTo = some name → [.use name] <:+ frames) :
    (innermost none frames).getD S.default = (cause.blocks frames).head?.getD S.default ∧
      ∀ name, (cause.blocks frames).head? = some name → innermost none frames = some name := by
  rw [innermost_eq, Option.or_none]
  unfold Cause.blocks
  cases hsent : cause.sentTo with
  | none => exact ⟨rfl, fun _ hname => hname⟩
  | some name =>
    obtain ⟨inner, rfl⟩ := hframes name hsent
    rw [uses_append]
    show ((uses inner ++ [name]).head?).getD S.default = ((uses inner ++ [name]).dropLast ++ _).head?.getD S.default ∧
      ∀ name', ((uses inner ++ [name]).dropLast ++ _).head? = some name' → _
    rw [List.dropLast_concat]
    cases uses inner with
    | nil =>
      have hname := h.named name hsent
      refine ⟨hname, fun name' hhead => ?_⟩
      rw [List.nil_append] at hhead
      rw [hhead] at hname
      exact congrArg some hname
    | cons first rest => exact ⟨rfl, fun _ hhead => hhead⟩

/-- A query runs on the database of the innermost block of its lineage, and a task that a message names a database
for is refused unless that is one of a tenant. -/
structure Query.Follows (S : Settings) (q : Query) : Prop where
  dbAlias : q.dbAlias = q.lineage.head?.getD S.default
  database : ∀ name, q.lineage.head? = some name → q.database = some name
  accepted : ∀ name, q.sentTo = some name → S.Accepts name

/-- Between two jobs no database is selected. -/
structure World.Inv (w : World S C ι τ) : Prop where
  idle : ∀ i, (w.threads i).selected = none
  sent : ∀ m ∈ w.sent, Cause.Sound S ⟨m.root, m.dbName, m.lineage⟩
  queries : ∀ q ∈ w.queries, q.Follows S

/-- What is known of an entry of a job. -/
structure Cause.Logs (S : Settings) (cause : Cause) (e : Entry τ) : Prop where
  follows : e.Follows S none
  under : e.Works → ∀ name, cause.sentTo = some name → [.use name] <:+ e.frames ∧ S.Accepts name

omit [DecidableEq ι] in
theorem inv_log (hcause : cause.Sound S) {e : Entry τ} (he : cause.Logs S e) (h : w.Inv) : (w.log cause e).Inv := by
  match e, he with
  | .database ⟨frames, selected, .query dbAlias database⟩, he =>
    have hunder := he.under ⟨dbAlias, database, rfl⟩
    obtain ⟨hdefault, hhead⟩ := innermost_blocks hcause fun name hname => (hunder name hname).1
    obtain ⟨halias, hdatabase, -⟩ := he.follows.query dbAlias database rfl
    refine ⟨h.idle, h.sent, fun q hq => ?_⟩
    rcases List.mem_append.mp hq with hq | hq
    · exact h.queries q hq
    · obtain rfl := List.mem_singleton.mp hq
      exact ⟨halias.trans hdefault, fun name hname => hdatabase name (hhead name hname),
        fun name hname => (hunder name hname).2⟩
  | .database ⟨_, _, .use _ _⟩, _ => exact h
  | .database ⟨_, _, .left _⟩, _ => exact h
  | .sent frames task given dbName, he =>
    have hunder := he.under trivial
    obtain ⟨hdefault, -⟩ := innermost_blocks hcause fun name hname => (hunder name hname).1
    have hdb : dbName = _ := he.follows
    refine ⟨h.idle, fun m hm => ?_, h.queries⟩
    rcases List.mem_append.mp hm with hm | hm
    · exact h.sent m hm
    · obtain rfl := List.mem_singleton.mp hm
      cases given with
      | none =>
        refine ⟨fun hnone => ?_, fun name hname => ?_⟩
        · rw [hdb] at hnone
          cases hnone
        · rw [hdb] at hname
          exact (Option.some.inj hname).symm.trans hdefault
      | some given =>
        obtain rfl : dbName = given := hdb
        cases dbName with
        | none => exact ⟨fun _ => rfl, nofun⟩
        | some name' =>
          refine ⟨nofun, ?_⟩
          rintro name ⟨⟩
          rfl

omit [DecidableEq ι] in
theorem inv_logs (hcause : cause.Sound S) {es : List (Entry τ)} (hes : ∀ e ∈ es, cause.Logs S e) (h : w.Inv) :
    (es.foldl (World.log cause) w).Inv := by
  induction es generalizing w with
  | nil => exact h
  | cons e es ih =>
    exact ih (fun e' he' => hes e' (List.mem_cons_of_mem _ he')) (inv_log hcause (hes e List.mem_cons_self) h)

/-- A thread runs a job. -/
theorem inv_execute (hB : B.Lawful) {thread : ι} {job : Job τ} {killed : Option ℕ} (hcause : cause.Sound S)
    (hjob : ∀ e ∈ (exec B broker [] job (w.threads thread)).events, e.Works → ∀ name, cause.sentTo = some name →
      [.use name] <:+ e.frames ∧ S.Accepts name) (h : w.Inv) :
    (w.execute B broker thread cause job killed).Inv := by
  have hidle := h.idle thread
  have hcoherent : Coherent B none [] (w.threads thread) :=
    ⟨by rw [State.selectedDatabase, hidle]; rfl, fun a => Nat.zero_le _, nofun⟩
  have hmeets : (exec B broker [] job (w.threads thread)).Meets _ _ := exec_meets hB job hcoherent
  have hlogs : ∀ e ∈ (exec B broker [] job (w.threads thread)).events, cause.Logs S e := fun e he =>
    ⟨hmeets.events e he, hjob e he⟩
  have hthreads : ∀ (v : World S C ι τ) (s : State S C), v.Inv → s.selected = none →
    (∀ i, (w.threads i).selected = none) →
      World.Inv { v with threads := Function.update w.threads thread s } := by
    intro v s hv hs hw
    refine ⟨fun i => ?_, hv.sent, hv.queries⟩
    by_cases hi : i = thread
    · subst hi
      simpa using hs
    · simpa [hi] using hw i
  unfold World.execute
  cases killed with
  | none => exact hthreads _ _ (inv_logs hcause hlogs h) (hmeets.state.selected.trans hidle) h.idle
  | some n =>
    exact hthreads _ _ (inv_logs hcause (fun e he => hlogs e (List.mem_of_mem_take he)) h) rfl h.idle

theorem inv_step (hB : B.Lawful) (h : w.Inv) {e : Event ι τ} (hstep : w.step B broker tasks e = some w') :
    w'.Inv := by
  cases e with
  | request thread header view killed =>
    obtain rfl := Option.some.inj hstep
    exact inv_execute hB ⟨fun _ => rfl, nofun⟩ (fun _ _ _ _ hnone => by cases hnone) h
  | work thread message killed =>
    obtain ⟨m, hm, rfl⟩ := Option.map_eq_some_iff.mp hstep
    refine inv_execute hB (h.sent m (List.mem_of_getElem? hm)) (fun e he hworks name hname => ?_) h
    rw [show m.dbName = some name from hname] at he
    exact (works_call he hworks).2 name rfl

/-! ## Plain code -/

/-- The database of plain code is that of the request it comes from. -/
structure World.PlainInv (w : World S C ι τ) : Prop where
  sent : ∀ m ∈ w.sent, m.dbName.isSome = true ∧ m.lineage.head? = m.root
  queries : ∀ q ∈ w.queries, q.lineage.head? = q.root

omit [DecidableEq ι] in
theorem plain_logs {es : List (Entry τ)} (hes : ∀ e ∈ es, e.Works → (cause.blocks e.frames).head? = cause.root ∧
    ∀ fs task given dbName, e = .sent fs task given dbName → given = none ∧ dbName.isSome = true) (h : w.PlainInv) :
    (es.foldl (World.log cause) w).PlainInv := by
  induction es generalizing w with
  | nil => exact h
  | cons e es ih =>
    refine ih (fun e' he' => hes e' (List.mem_cons_of_mem _ he')) ?_
    have he := hes e List.mem_cons_self
    match e, he with
    | .database ⟨frames, selected, .query dbAlias database⟩, he =>
      refine ⟨h.sent, fun q hq => ?_⟩
      rcases List.mem_append.mp hq with hq | hq
      · exact h.queries q hq
      · obtain rfl := List.mem_singleton.mp hq
        exact (he ⟨dbAlias, database, rfl⟩).1
    | .database ⟨_, _, .use _ _⟩, _ => exact h
    | .database ⟨_, _, .left _⟩, _ => exact h
    | .sent frames task given dbName, he =>
      obtain ⟨hblocks, hgiven⟩ := he trivial
      obtain ⟨rfl, hsome⟩ := hgiven _ _ _ _ rfl
      refine ⟨fun m hm => ?_, h.queries⟩
      rcases List.mem_append.mp hm with hm | hm
      · exact h.sent m hm
      · obtain rfl := List.mem_singleton.mp hm
        exact ⟨hsome, hblocks⟩

/-- A plain job, under the block that it is run in. -/
theorem plain_execute {thread : ι} {job : Job τ} (dbName : Option String) {killed : Option ℕ} (hjob : job.Plain)
    (hcause : (cause.blocks (dbName.elim [] fun name => [.use name])).head? = cause.root)
    (hsent : ∀ e ∈ (exec B broker [] (job.call dbName) (w.threads thread)).events, ∀ fs task dbName,
      e = .sent fs task none dbName → dbName.isSome = true) (h : w.PlainInv) :
    (w.execute B broker thread cause (job.call dbName) killed).PlainInv := by
  have hes : ∀ e ∈ (exec B broker [] (job.call dbName) (w.threads thread)).events, e.Works →
      (cause.blocks e.frames).head? = cause.root ∧
        ∀ fs task given dbName, e = .sent fs task given dbName → given = none ∧ dbName.isSome = true := by
    intro e he hworks
    obtain ⟨t, ht⟩ := (works_call he hworks).1
    obtain ⟨huses, hgiven⟩ := (exec_plain hjob _ t).events e ht
    refine ⟨?_, fun fs task given db heq => ?_⟩
    · rw [← hcause]
      unfold Cause.blocks
      rw [huses]
    · obtain rfl := hgiven fs task given db heq
      exact ⟨rfl, hsent e he fs task db heq⟩
  unfold World.execute
  cases killed with
  | none =>
    have hlogs := plain_logs hes h
    exact ⟨hlogs.sent, hlogs.queries⟩
  | some n =>
    have hlogs := plain_logs (fun e he => hes e (List.mem_of_mem_take (i := n) he)) h
    exact ⟨hlogs.sent, hlogs.queries⟩

theorem plain_step (hB : B.Lawful) (htasks : ∀ task, (tasks task).Plain) (hinv : w.Inv) (h : w.PlainInv)
    {e : Event ι τ} (he : e.Plain) (hstep : w.step B broker tasks e = some w') : w'.PlainInv := by
  have hstamped : ∀ (thread : ι) (job : Job τ), ∀ e ∈ (exec B broker [] job (w.threads thread)).events,
      ∀ fs task dbName, e = .sent fs task none dbName → dbName.isSome = true := by
    rintro thread job e he fs task dbName rfl
    have hcoherent : Coherent B none [] (w.threads thread) :=
      ⟨by rw [State.selectedDatabase, hinv.idle]; rfl, fun a => Nat.zero_le _, nofun⟩
    have hdb : dbName = _ := (exec_meets hB job hcoherent).events _ he
    rw [hdb]
    rfl
  cases e with
  | request thread header view killed =>
    obtain rfl := Option.some.inj hstep
    unfold middleware
    cases hheader : header.filter (· ≠ "") with
    | none => exact plain_execute none he rfl (hstamped thread _) h
    | some name =>
      dsimp only
      split
      · unfold World.execute
        cases killed with
        | none => exact ⟨h.sent, h.queries⟩
        | some n =>
          simp only [exec, Execution.done, List.take_nil]
          exact ⟨h.sent, h.queries⟩
      · exact plain_execute (some name) he rfl (hstamped thread _) h
  | work thread message killed =>
    obtain ⟨m, hm, rfl⟩ := Option.map_eq_some_iff.mp hstep
    obtain ⟨hsome, hroot⟩ := h.sent m (List.mem_of_getElem? hm)
    refine plain_execute _ (htasks m.task) ?_ (hstamped thread _) h
    obtain ⟨name, hname⟩ := Option.isSome_iff_exists.mp hsome
    rw [hname]
    exact hroot

theorem plain_run (hB : B.Lawful) (htasks : ∀ task, (tasks task).Plain) {es : List (Event ι τ)}
    (hrun : Run (fun w e w' => World.step B broker tasks w e = some w') w es w') (hes : ∀ e ∈ es, e.Plain)
    (hinv : w.Inv) (h : w.PlainInv) : w'.PlainInv := by
  induction hrun with
  | nil => exact h
  | cons hstep _ ih =>
    exact ih (fun e he => hes e (List.mem_cons_of_mem _ he)) (inv_step hB hinv hstep)
      (plain_step hB htasks hinv h (hes _ List.mem_cons_self) hstep)

/-- **A task runs where it would have run if it were called.**  Whatever the requests and the tasks do, whatever the
broker and the databases answer, in any order, however often a message comes and a process is killed: a query runs on
the database of the innermost `use_database` around it, and around the sending of its task, and so on up to the
request; the block of a message is on a database that a tenant may have.  Where no code selects a database, each query
is on the database that the header of the request names. -/
theorem tasks_follow_lineage (hB : B.Lawful) {es : List (Event ι τ)}
    (hrun : Run (fun w e w' => World.step B broker tasks w e = some w') (World.start : World S C ι τ) es w) :
    (∀ q ∈ w.queries, q.dbAlias = q.lineage.head?.getD S.default ∧
      (∀ name, q.lineage.head? = some name → q.database = some name) ∧
      ∀ name, q.sentTo = some name → S.Accepts name) ∧
    ((∀ task, (tasks task).Plain) → (∀ e ∈ es, e.Plain) → ∀ q ∈ w.queries,
      q.dbAlias = q.root.getD S.default ∧ ∀ name, q.root = some name → q.database = some name) := by
  have hstart : (World.start : World S C ι τ).Inv :=
    ⟨fun _ => rfl, fun _ hm => absurd hm List.not_mem_nil, fun _ hq => absurd hq List.not_mem_nil⟩
  have hqueries := (hrun.invariant (fun _ _ _ h hstep => inv_step hB h hstep) hstart).queries
  refine ⟨fun q hq => ⟨(hqueries q hq).dbAlias, (hqueries q hq).database, (hqueries q hq).accepted⟩,
    fun htasks hes q hq => ?_⟩
  have hplain := plain_run hB htasks hrun hes hstart
    ⟨fun _ hm => absurd hm List.not_mem_nil, fun _ hq => absurd hq List.not_mem_nil⟩
  have hroot := hplain.queries q hq
  rw [(hqueries q hq).dbAlias, hroot]
  exact ⟨rfl, fun name hname => (hqueries q hq).database name (hroot.trans hname)⟩

end Run

section Sample

/-- One task sends the other to another tenant, and queries. -/
def sampleTasks : Bool → Job Bool
  | true => .seq (.send false (some (some "globex"))) .query
  | false => .query

/-- A request sends a task, of which the message comes twice: the first worker is killed after it has sent a task of
its own. -/
def deliveries : List (Event Bool Bool) :=
  [.request true (some "acme") (.seq .query (.send true none)) none, .work false 0 (some 2), .work false 1 none,
    .work false 0 none]

def totem : Settings := ⟨"totem", [("saas_base", "saas")]⟩

theorem tasks_follow_lineage_sample : ∃ w : World totem Wrapper Bool Bool,
    w.queries = [⟨some "acme", none, ["acme"], "acme", some "acme"⟩,
      ⟨some "acme", some "globex", ["globex", "acme"], "globex", some "globex"⟩,
      ⟨some "acme", some "acme", ["acme"], "acme", some "acme"⟩] ∧ totem.Accepts "globex" := by
  have hruns : (deliveries.foldlM (World.step wrapper (fun _ => none) sampleTasks)
      (World.start : World totem Wrapper Bool Bool)).any (fun w => decide (w.queries =
        [⟨some "acme", none, ["acme"], "acme", some "acme"⟩,
          ⟨some "acme", some "globex", ["globex", "acme"], "globex", some "globex"⟩,
          ⟨some "acme", some "acme", ["acme"], "acme", some "acme"⟩])) = true := by decide +kernel
  obtain ⟨w, hw, hqueries⟩ := (Option.any_eq_true ..).mp hruns
  have hqueries := of_decide_eq_true hqueries
  have h := tasks_follow_lineage wrapper_lawful (Run.of_foldlM hw)
  refine ⟨w, hqueries, (h.1 ⟨some "acme", some "globex", ["globex", "acme"], "globex", some "globex"⟩ ?_).2.2 _ rfl⟩
  rw [hqueries]
  exact List.mem_cons_of_mem _ List.mem_cons_self

end Sample

end Totem.Tenancy.Jobs
