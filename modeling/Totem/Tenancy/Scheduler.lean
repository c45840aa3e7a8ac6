import Mathlib.Data.Rat.Defs
import Mathlib.Algebra.Order.Ring.Unbundled.Rat
import Mathlib.Data.List.Nodup

/-!
# Totem.Tenancy.Scheduler — one beat for the periodic tasks of every tenant

* `refreshDatabases`, `tick`: the beat, against `Answers`: what the calls of one step answer, failures included.
* `reads`: what the catalog answers over a run, at the times it is due; `LoadedAt`: the schedulers it should give.
* `Follows`: the invariant; `follows_refresh` and `tick_spec` for one step, `beat_follows_tenants` for a run.
-/

namespace Totem.Tenancy.Beat

/-! ## The calls -/

/-- What the calls of one step answer.  The schedulers are objects; those of two steps may be the same. -/
structure Answers (O D : Type*) where
  /-- `time.monotonic()`, as `_refresh_due` reads it. -/
  checked : ℚ
  /-- `time.monotonic()`, as `refresh_databases` reads it. -/
  refreshed : ℚ
  /-- `tenant_databases()`; `none` where it raises. -/
  tenantDatabases : Option (List String)
  /-- The scheduler that is built for a tenant; `none` where its schedule cannot be loaded. -/
  loads : String → Option O
  /-- The close of a scheduler raises. -/
  closeRaises : O → Bool
  /-- The delay the tick of a scheduler returns; `none` where it raises. -/
  ticks : O → Option D
  /-- The order in which a set is iterated. -/
  setOrder : List String → List String
  setOrder_perm : ∀ names, (setOrder names).Perm names

/-- What is logged with an exception. -/
inductive Log
  | catalogUnread
  | notLoaded (db_name : String)
  | notSaved (db_name : String)
  | tickFailed (db_name : String)
  deriving DecidableEq

/-! ## The beat -/

structure TenantDatabaseScheduler (O : Type*) where
  /-- `self.schedulers`, in the order of its keys. -/
  schedulers : List (String × O)
  lastRefresh : Option ℚ
  log : List Log

namespace TenantDatabaseScheduler

variable {O D : Type*} (a : Answers O D)

def names (s : TenantDatabaseScheduler O) : List String := s.schedulers.map Prod.fst

/-- `_add_scheduler`. -/
def addScheduler (s : TenantDatabaseScheduler O) (db_name : String) : TenantDatabaseScheduler O :=
  match a.loads db_name with
  | some scheduler => { s with schedulers := s.schedulers ++ [(db_name, scheduler)] }
  | none => { s with log := s.log ++ [.notLoaded db_name] }

/-- `_remove_scheduler`. -/
def removeScheduler (s : TenantDatabaseScheduler O) (db_name : String) : TenantDatabaseScheduler O :=
  let raises := (s.schedulers.lookup db_name).any a.closeRaises
  { s with
    schedulers := s.schedulers.filter (·.1 ≠ db_name)
    log := s.log ++ if raises = true then [.notSaved db_name] else [] }

/-- `refresh_databases`. -/
def refreshDatabases (s : TenantDatabaseScheduler O) : TenantDatabaseScheduler O :=
  let s := { s with lastRefresh := some a.refreshed }
  match a.tenantDatabases with
  | none => { s with log := s.log ++ [.catalogUnread] }
  | some db_names =>
    let gone := a.setOrder (s.names.filter (· ∉ db_names))
    let s := gone.foldl (removeScheduler a) s
    db_names.foldl (fun s db_name => if db_name ∈ s.names then s else s.addScheduler a db_name) s

/-- `__init__`, not lazy: `setup_schedule` reads the tenants. -/
def init : TenantDatabaseScheduler O := refreshDatabases a ⟨[], none, []⟩

/-- `_refresh_due`; there is no difference with a time that was never set. -/
def refreshDue (tenantRefresh : ℚ) (s : TenantDatabaseScheduler O) : Option Bool :=
  s.lastRefresh.map fun last => decide (tenantRefresh ≤ a.checked - last)

/-- The start of `tick`. -/
def refreshIfDue (tenantRefresh : ℚ) (s : TenantDatabaseScheduler O) : Option (TenantDatabaseScheduler O) :=
  (s.refreshDue a tenantRefresh).map fun due => if due then s.refreshDatabases a else s

/-- The loop of `tick`: what it logs, the schedulers it ticks, and the delays of those that do not raise. -/
structure Loop (O D : Type*) where
  log : List Log
  ticked : List (String × O)
  intervals : List D

/-- One round of the loop: what is raised is logged, and the next ones are ticked. -/
def tickOne (acc : Loop O D) (scheduler : String × O) : Loop O D :=
  match a.ticks scheduler.2 with
  | some delay => ⟨acc.log, acc.ticked ++ [scheduler], acc.intervals ++ [delay]⟩
  | none => ⟨acc.log ++ [.tickFailed scheduler.1], acc.ticked ++ [scheduler], acc.intervals⟩

/-- `tick`: the schedulers it ticks, and the delay it returns. -/
def tick [Min D] (tenantRefresh : ℚ) (maxInterval : D) (s : TenantDatabaseScheduler O) :
    Option (TenantDatabaseScheduler O × List (String × O) × D) :=
  (s.refreshIfDue a tenantRefresh).map fun s =>
    let loop := s.schedulers.foldl (tickOne a) ⟨s.log, [], []⟩
    ({ s with log := loop.log }, loop.ticked, loop.intervals.min?.getD maxInterval)

end TenantDatabaseScheduler

inductive Event
  | tick
  | refresh

/-- `settings.BEAT_TENANT_REFRESH`, and `max_interval`. -/
structure Settings (D : Type*) where
  tenantRefresh : ℚ
  maxInterval : D

section

variable {O D : Type*} [Min D] (settings : Settings D)

/-- A step, with what its calls answer. -/
def step (s : TenantDatabaseScheduler O) : Event × Answers O D → Option (TenantDatabaseScheduler O)
  | (.tick, a) => (s.tick a settings.tenantRefresh settings.maxInterval).map Prod.fst
  | (.refresh, a) => some (s.refreshDatabases a)

/-- A run, from the construction of the beat on. -/
def run (first : Answers O D) (steps : List (Event × Answers O D)) : Option (TenantDatabaseScheduler O) :=
  steps.foldlM (step settings) (.init first)

end

/-! ## What the catalog says -/

section

variable {O D : Type*}

/-- A read of the catalog that did not fail, and the schedules that could be loaded then. -/
structure CatalogRead (O : Type*) where
  db_names : List String
  loads : String → Option O

/-- What the catalog answers when it is read in a step. -/
def Answers.read (a : Answers O D) : List (CatalogRead O) :=
  (a.tenantDatabases.map fun db_names => ⟨db_names, a.loads⟩).toList

/-- The reads of a run: at the refreshes, and at the ticks that come `tenantRefresh` after the last attempt. -/
def reads (tenantRefresh : ℚ) : ℚ → List (Event × Answers O D) → List (CatalogRead O)
  | _, [] => []
  | _, (.refresh, a) :: steps => a.read ++ reads tenantRefresh a.refreshed steps
  | last, (.tick, a) :: steps =>
    if tenantRefresh ≤ a.checked - last then a.read ++ reads tenantRefresh a.refreshed steps
    else reads tenantRefresh last steps

/-- The reads from the construction of the beat on. -/
def readsOf (tenantRefresh : ℚ) (first : Answers O D) (steps : List (Event × Answers O D)) : List (CatalogRead O) :=
  first.read ++ reads tenantRefresh first.refreshed steps

/-- The tenants of the last read. -/
def lastRead (catalog : List (CatalogRead O)) : List String := (catalog.getLast?.map CatalogRead.db_names).getD []

/-- The scheduler could be loaded at a read since which the tenant stayed in the catalog. -/
def LoadedAt (catalog : List (CatalogRead O)) (x : String × O) : Prop :=
  ∃ earlier read later, catalog = earlier ++ read :: later ∧ x.1 ∈ read.db_names ∧ read.loads x.1 = some x.2 ∧
    ∀ other ∈ later, x.1 ∈ other.db_names

variable {catalog : List (CatalogRead O)} {x : String × O} {db_name : String}

theorem lastRead_concat (catalog : List (CatalogRead O)) (read : CatalogRead O) :
    lastRead (catalog ++ [read]) = read.db_names := by
  simp [lastRead]

theorem not_loadedAt_nil : ¬ LoadedAt ([] : List (CatalogRead O)) x := by
  rintro ⟨earlier, read, later, h, -⟩
  exact List.append_ne_nil_of_right_ne_nil _ (List.cons_ne_nil _ _) h.symm

/-- One more read: the tenant is in it, and its schedule can be loaded now or could before. -/
theorem loadedAt_concat {read : CatalogRead O} :
    LoadedAt (catalog ++ [read]) x ↔ x.1 ∈ read.db_names ∧ (read.loads x.1 = some x.2 ∨ LoadedAt catalog x) := by
  constructor
  · rintro ⟨earlier, other, later, h, hmem, hloads, hstayed⟩
    rcases List.eq_nil_or_concat later with rfl | ⟨later, last, rfl⟩
    · obtain ⟨-, h⟩ := List.append_inj' h rfl
      obtain rfl := List.head_eq_of_cons_eq h
      exact ⟨hmem, .inl hloads⟩
    · rw [List.concat_eq_append] at h hstayed
      rw [← List.cons_append, ← List.append_assoc] at h
      obtain ⟨hbefore, h⟩ := List.append_inj' h rfl
      obtain rfl := List.head_eq_of_cons_eq h
      refine ⟨hstayed _ (by simp), .inr ⟨earlier, other, later, hbefore, hmem, hloads, fun r hr => ?_⟩⟩
      exact hstayed r (List.mem_append_left _ hr)
  · rintro ⟨hmem, hloads | ⟨earlier, other, later, rfl, hin, hloads, hstayed⟩⟩
    · exact ⟨catalog, read, [], rfl, hmem, hloads, by simp⟩
    · refine ⟨earlier, other, later ++ [read], by simp, hin, hloads, fun r hr => ?_⟩
      rcases List.mem_append.mp hr with hr | hr
      · exact hstayed r hr
      · rwa [List.mem_singleton.mp hr]

/-! ## The invariant -/

/-- The schedulers are those that the reads of the catalog should give. -/
structure TenantDatabaseScheduler.Follows (s : TenantDatabaseScheduler O) (catalog : List (CatalogRead O)) : Prop where
  within : ∀ db_name ∈ s.names, db_name ∈ lastRead catalog
  nodup : s.names.Nodup
  loaded : ∀ x ∈ s.schedulers, LoadedAt catalog x
  complete : ∀ x, LoadedAt catalog x → x.1 ∈ s.names

namespace TenantDatabaseScheduler

variable {a : Answers O D} {s s' : TenantDatabaseScheduler O}

theorem mem_names : db_name ∈ s.names ↔ ∃ scheduler, (db_name, scheduler) ∈ s.schedulers := by
  simp [names]

/-! ## A refresh -/

/-- `_remove_scheduler`, for all that are gone. -/
theorem foldl_removeScheduler (gone : List String) :
    (gone.foldl (removeScheduler a) s).schedulers = s.schedulers.filter (·.1 ∉ gone) ∧
      (gone.foldl (removeScheduler a) s).lastRefresh = s.lastRefresh := by
  induction gone generalizing s with
  | nil => exact ⟨by simp, rfl⟩
  | cons db_name gone ih =>
    obtain ⟨hschedulers, hlast⟩ := ih (s := s.removeScheduler a db_name)
    refine ⟨?_, hlast⟩
    rw [List.foldl_cons, hschedulers]
    show (s.schedulers.filter _).filter _ = _
    rw [List.filter_filter]
    refine List.filter_congr fun x _ => ?_
    by_cases hx : x.1 = db_name <;> simp [hx]

/-- What the loop over the tenants adds to the schedulers. -/
structure Added (a : Answers O D) (db_names : List String) (s s' : TenantDatabaseScheduler O) : Prop where
  mem : ∀ x, x ∈ s'.schedulers ↔
    x ∈ s.schedulers ∨ x.1 ∈ db_names ∧ x.1 ∉ s.names ∧ a.loads x.1 = some x.2
  nodup : s.names.Nodup → s'.names.Nodup
  last : s'.lastRefresh = s.lastRefresh

/-- **A tenant looked at** in the loop: it has a scheduler, or one is built for it now if it can be. -/
theorem added_one (a : Answers O D) (s : TenantDatabaseScheduler O) (db_name : String) :
    Added a [db_name] s (if db_name ∈ s.names then s else s.addScheduler a db_name) := by
  by_cases hname : db_name ∈ s.names
  · rw [if_pos hname]
    refine ⟨fun x => ⟨.inl, ?_⟩, id, rfl⟩
    rintro (hx | ⟨hx, hnot, -⟩)
    · exact hx
    · rw [List.mem_singleton.mp hx] at hnot
      exact absurd hname hnot
  · rw [if_neg hname, addScheduler]
    cases hloads : a.loads db_name with
    | none =>
      refine ⟨fun x => ⟨.inl, ?_⟩, id, rfl⟩
      rintro (hx | ⟨hx, -, hsome⟩)
      · exact hx
      · rw [List.mem_singleton.mp hx, hloads] at hsome
        cases hsome
    | some scheduler =>
      refine ⟨fun x => ?_, fun hnodup => ?_, rfl⟩
      · rw [List.mem_append, List.mem_singleton]
        refine or_congr_right ⟨?_, ?_⟩
        · rintro rfl
          exact ⟨List.mem_singleton_self _, hname, hloads⟩
        · rintro ⟨hx, -, hsome⟩
          have hx := List.mem_singleton.mp hx
          rw [hx, hloads] at hsome
          exact Prod.ext hx (Option.some.inj hsome).symm
      · show ((s.schedulers ++ [(db_name, scheduler)]).map Prod.fst).Nodup
        rw [List.map_append]
        refine List.Nodup.append hnodup (List.nodup_singleton _) fun other hother hin => ?_
        rw [List.mem_singleton.mp hin] at hother
        exact hname hother

/-- The names after a part of the loop. -/
theorem Added.mem_names {db_names : List String} (h : Added a db_names s s') :
    db_name ∈ s'.names ↔ db_name ∈ s.names ∨ db_name ∈ db_names ∧ (a.loads db_name).isSome := by
  rw [TenantDatabaseScheduler.mem_names, TenantDatabaseScheduler.mem_names]
  constructor
  · rintro ⟨scheduler, hmem⟩
    rcases (h.mem _).mp hmem with hmem | ⟨hmem, -, hloads⟩
    · exact .inl ⟨scheduler, hmem⟩
    · exact .inr ⟨hmem, Option.isSome_iff_exists.mpr ⟨scheduler, hloads⟩⟩
  · rintro (⟨scheduler, hmem⟩ | ⟨hmem, hloads⟩)
    · exact ⟨scheduler, (h.mem _).mpr (.inl hmem)⟩
    · obtain ⟨scheduler, hloads⟩ := Option.isSome_iff_exists.mp hloads
      by_cases hname : db_name ∈ s.names
      · obtain ⟨old, hold⟩ := TenantDatabaseScheduler.mem_names.mp hname
        exact ⟨old, (h.mem _).mpr (.inl hold)⟩
      · exact ⟨scheduler, (h.mem _).mpr (.inr ⟨hmem, hname, hloads⟩)⟩

/-- **The loop over the tenants.** -/
theorem added_all (a : Answers O D) (db_names : List String) (s : TenantDatabaseScheduler O) :
    Added a db_names s
      (db_names.foldl (fun s db_name => if db_name ∈ s.names then s else s.addScheduler a db_name) s) := by
  induction db_names generalizing s with
  | nil => exact ⟨fun x => by simp, id, rfl⟩
  | cons db_name db_names ih =>
    have hone := added_one a s db_name
    have hall := ih (if db_name ∈ s.names then s else s.addScheduler a db_name)
    rw [List.foldl_cons]
    refine ⟨fun x => ?_, fun hnodup => hall.nodup (hone.nodup hnodup), hall.last.trans hone.last⟩
    rw [hall.mem, hone.mem, hone.mem_names, List.mem_singleton, List.mem_cons]
    constructor
    · rintro ((hx | ⟨hx, hnot, hloads⟩) | ⟨hx, hnot, hloads⟩)
      · exact .inl hx
      · exact .inr ⟨.inl hx, hnot, hloads⟩
      · exact .inr ⟨.inr hx, fun hin => hnot (.inl hin), hloads⟩
    · rintro (hx | ⟨hx, hnot, hloads⟩)
      · exact .inl (.inl hx)
      · by_cases hfirst : x.1 = db_name
        · exact .inl (.inr ⟨hfirst, hnot, hloads⟩)
        · refine .inr ⟨hx.resolve_left hfirst, ?_, hloads⟩
          rintro (hin | ⟨heq, -⟩)
          · exact hnot hin
          · exact hfirst heq

/-- What a refresh makes of the schedulers when the catalog can be read. -/
theorem mem_refresh {db_names : List String} (hread : a.tenantDatabases = some db_names) :
    (∀ x, x ∈ (s.refreshDatabases a).schedulers ↔
      x.1 ∈ db_names ∧ (x ∈ s.schedulers ∨ x.1 ∉ s.names ∧ a.loads x.1 = some x.2)) ∧
      (s.names.Nodup → (s.refreshDatabases a).names.Nodup) := by
  unfold refreshDatabases
  simp only [hread]
  generalize hgone : a.setOrder _ = gone
  have hmem : ∀ other, other ∈ gone ↔ other ∈ s.names ∧ other ∉ db_names := by
    intro other
    rw [← hgone, (a.setOrder_perm _).mem_iff, List.mem_filter, decide_eq_true_eq]
    rfl
  obtain ⟨hleft, -⟩ := foldl_removeScheduler (a := a) (s := { s with lastRefresh := some a.refreshed }) gone
  have hadded := added_all a db_names
    (gone.foldl (removeScheduler a) { s with lastRefresh := some a.refreshed })
  have hkept : ∀ x, x ∈ (gone.foldl (removeScheduler a) { s with lastRefresh := some a.refreshed }).schedulers ↔
      x ∈ s.schedulers ∧ x.1 ∈ db_names := by
    intro x
    rw [hleft, List.mem_filter, decide_eq_true_eq, hmem]
    refine and_congr_right fun hx => ?_
    have hname : x.1 ∈ s.names := List.mem_map_of_mem hx
    simp [hname]
  refine ⟨fun x => ?_, fun hnodup => hadded.nodup ?_⟩
  · rw [hadded.mem, hkept, TenantDatabaseScheduler.mem_names]
    simp only [hkept]
    constructor
    · rintro (⟨hx, hin⟩ | ⟨hin, hnot, hloads⟩)
      · exact ⟨hin, .inl hx⟩
      · refine ⟨hin, .inr ⟨fun hname => hnot ?_, hloads⟩⟩
        obtain ⟨old, hold⟩ := TenantDatabaseScheduler.mem_names.mp hname
        exact ⟨old, hold, hin⟩
    · rintro ⟨hin, hx | ⟨hnot, hloads⟩⟩
      · exact .inl ⟨hx, hin⟩
      · refine .inr ⟨hin, ?_, hloads⟩
        rintro ⟨old, hold, -⟩
        exact hnot (TenantDatabaseScheduler.mem_names.mpr ⟨old, hold⟩)
  · rw [names, hleft]
    exact hnodup.sublist (List.filter_sublist.map _)

/-- **One refresh.** -/
theorem follows_refresh (h : s.Follows catalog) : (s.refreshDatabases a).Follows (catalog ++ a.read) := by
  cases hread : a.tenantDatabases with
  | none =>
    have hsame : (s.refreshDatabases a).schedulers = s.schedulers := by simp [refreshDatabases, hread]
    have hnames : (s.refreshDatabases a).names = s.names := congrArg (List.map Prod.fst) hsame
    simp only [Answers.read, hread, Option.map_none, Option.toList_none, List.append_nil]
    exact ⟨hnames ▸ h.within, hnames ▸ h.nodup, hsame ▸ h.loaded, hnames ▸ h.complete⟩
  | some db_names =>
    obtain ⟨hmem, hnodup⟩ := mem_refresh (s := s) hread
    simp only [Answers.read, hread, Option.map_some, Option.toList_some]
    refine ⟨fun other hother => ?_, hnodup h.nodup, fun x hx => ?_, fun x hx => ?_⟩
    · obtain ⟨scheduler, hin⟩ := mem_names.mp hother
      rw [lastRead_concat]
      exact ((hmem _).mp hin).1
    · obtain ⟨hin, hold | ⟨-, hloads⟩⟩ := (hmem x).mp hx
      · exact loadedAt_concat.mpr ⟨hin, .inr (h.loaded x hold)⟩
      · exact loadedAt_concat.mpr ⟨hin, .inl hloads⟩
    · obtain ⟨hin, hloaded⟩ := loadedAt_concat.mp hx
      -- its scheduler is kept, or one is built now
      by_cases hname : x.1 ∈ s.names
      · obtain ⟨old, hold⟩ := mem_names.mp hname
        exact mem_names.mpr ⟨old, (hmem _).mpr ⟨hin, .inl hold⟩⟩
      · rcases hloaded with hloads | hloaded
        · exact mem_names.mpr ⟨x.2, (hmem _).mpr ⟨hin, .inr ⟨hname, hloads⟩⟩⟩
        · exact absurd (h.complete x hloaded) hname

/-- **A scheduler is kept across a refresh** as long as its tenant has one. -/
theorem refresh_keeps {x : String × O} (hx : x ∈ s.schedulers)
    (hname : x.1 ∈ (s.refreshDatabases a).names) : x ∈ (s.refreshDatabases a).schedulers := by
  cases hread : a.tenantDatabases with
  | none =>
    have hsame : (s.refreshDatabases a).schedulers = s.schedulers := by simp [refreshDatabases, hread]
    rwa [hsame]
  | some db_names =>
    obtain ⟨hmem, -⟩ := mem_refresh (s := s) hread
    obtain ⟨scheduler, hin⟩ := mem_names.mp hname
    exact (hmem x).mpr ⟨((hmem _).mp hin).1, .inl hx⟩

theorem follows_nil : (⟨[], none, []⟩ : TenantDatabaseScheduler O).Follows [] :=
  ⟨fun _ h => absurd h List.not_mem_nil, List.nodup_nil, fun _ h => absurd h List.not_mem_nil,
    fun _ h => absurd h not_loadedAt_nil⟩

theorem lastRefresh_refreshDatabases : (s.refreshDatabases a).lastRefresh = some a.refreshed := by
  unfold refreshDatabases
  cases a.tenantDatabases with
  | none => rfl
  | some db_names => exact (added_all a db_names _).last.trans (foldl_removeScheduler _).2

/-! ## A tick -/

/-- The loop of `tick`: each scheduler once, and the delays of those that did not raise. -/
theorem foldl_tickOne (a : Answers O D) (schedulers : List (String × O)) (acc : Loop O D) :
    (schedulers.foldl (tickOne a) acc).ticked = acc.ticked ++ schedulers ∧
      (schedulers.foldl (tickOne a) acc).intervals
        = acc.intervals ++ schedulers.filterMap fun scheduler => a.ticks scheduler.2 := by
  induction schedulers generalizing acc with
  | nil => simp
  | cons x schedulers ih =>
    obtain ⟨hticked, hintervals⟩ := ih (tickOne a acc x)
    rw [List.foldl_cons, hticked, hintervals]
    cases hdelay : a.ticks x.2 <;> simp [tickOne, hdelay]

variable [LinearOrder D]

/-- The least of the delays that the schedulers return, whatever the others raise. -/
structure Least (a : Answers O D) (maxInterval : D) (schedulers : List (String × O)) (delay : D) : Prop where
  least : ∀ x ∈ schedulers, ∀ d, a.ticks x.2 = some d → delay ≤ d
  asked : (∃ x ∈ schedulers, a.ticks x.2 = some delay) ∨
    (∀ x ∈ schedulers, a.ticks x.2 = none) ∧ delay = maxInterval

theorem least_min (a : Answers O D) (maxInterval : D) (schedulers : List (String × O)) :
    Least a maxInterval schedulers
      ((schedulers.filterMap fun scheduler => a.ticks scheduler.2).min?.getD maxInterval) := by
  cases hmin : (schedulers.filterMap fun scheduler => a.ticks scheduler.2).min? with
  | none =>
    rw [List.min?_eq_none_iff, List.filterMap_eq_nil_iff] at hmin
    refine ⟨fun x hx d hd => ?_, .inr ⟨hmin, rfl⟩⟩
    rw [hmin x hx] at hd
    cases hd
  | some delay =>
    obtain ⟨hin, hleast⟩ := List.min?_eq_some_iff.mp hmin
    exact ⟨fun x hx d hd => hleast d (List.mem_filterMap.mpr ⟨x, hx, hd⟩), .inl (List.mem_filterMap.mp hin)⟩

/-- **One tick**, after its refresh: every scheduler is ticked once, in order, and the delay is the least. -/
theorem tick_spec {tenantRefresh : ℚ} (maxInterval : D) (h : s.refreshIfDue a tenantRefresh = some s') :
    ∃ t delay, s.tick a tenantRefresh maxInterval = some (t, s'.schedulers, delay) ∧
      t.schedulers = s'.schedulers ∧ t.lastRefresh = s'.lastRefresh ∧
      Least a maxInterval s'.schedulers delay := by
  obtain ⟨hticked, hintervals⟩ := foldl_tickOne a s'.schedulers ⟨s'.log, [], []⟩
  refine ⟨{ s' with log := (s'.schedulers.foldl (tickOne a) ⟨s'.log, [], []⟩).log }, _, ?_, rfl, rfl,
    least_min a maxInterval s'.schedulers⟩
  unfold tick
  rw [h, Option.map_some]
  simp only [hticked, hintervals, List.nil_append]

omit [LinearOrder D] in
theorem refreshIfDue_eq (a : Answers O D) (tenantRefresh : ℚ) {last : ℚ} (hlast : s.lastRefresh = some last) :
    s.refreshIfDue a tenantRefresh =
      some (if tenantRefresh ≤ a.checked - last then s.refreshDatabases a else s) := by
  simp [refreshIfDue, refreshDue, hlast]

end TenantDatabaseScheduler

/-! ## The runs -/

open TenantDatabaseScheduler

variable {a : Answers O D} {s s' : TenantDatabaseScheduler O}

/-- The invariant does not look at what is logged. -/
theorem TenantDatabaseScheduler.Follows.congr (h : s.Follows catalog) (hsame : s'.schedulers = s.schedulers) :
    s'.Follows catalog := by
  have hnames : s'.names = s.names := congrArg (List.map Prod.fst) hsame
  exact ⟨hnames ▸ h.within, hnames ▸ h.nodup, hsame ▸ h.loaded, hnames ▸ h.complete⟩

variable [LinearOrder D] {settings : Settings D}

variable (settings) in
/-- **One step** of the beat does not fail, follows the catalog, and keeps the schedulers of the tenants that have
one. -/
theorem step_spec (e : Event) (a : Answers O D) (h : s.Follows catalog) {last : ℚ} (hlast : s.lastRefresh = some last) :
    ∃ s' last' read, step settings s (e, a) = some s' ∧ s'.Follows (catalog ++ read) ∧ s'.lastRefresh = some last' ∧
      (∀ steps, reads settings.tenantRefresh last ((e, a) :: steps) =
        read ++ reads settings.tenantRefresh last' steps) ∧
      ∀ x ∈ s.schedulers, x.1 ∈ s'.names → x ∈ s'.schedulers := by
  cases e with
  | refresh =>
    exact ⟨_, a.refreshed, a.read, rfl, follows_refresh h, lastRefresh_refreshDatabases, fun _ => rfl,
      fun x hx hname => refresh_keeps hx hname⟩
  | tick =>
    obtain ⟨t, delay, htick, hsame, htime, -⟩ :=
      tick_spec settings.maxInterval (refreshIfDue_eq a settings.tenantRefresh hlast)
    have hstep : step settings s (.tick, a) = some t := by simp [step, htick]
    have hnames : t.names = _ := congrArg (List.map Prod.fst) hsame
    by_cases hdue : settings.tenantRefresh ≤ a.checked - last
    · rw [if_pos hdue] at hsame htime
      refine ⟨t, a.refreshed, a.read, hstep, (follows_refresh h).congr hsame, ?_, fun steps => ?_, ?_⟩
      · rw [htime, lastRefresh_refreshDatabases]
      · simp [reads, hdue]
      · intro x hx hname
        rw [hnames, if_pos hdue] at hname
        rw [hsame]
        exact refresh_keeps hx hname
    · rw [if_neg hdue] at hsame htime
      refine ⟨t, last, [], hstep, ?_, htime.trans hlast, fun steps => ?_, fun x hx _ => hsame ▸ hx⟩
      · rw [List.append_nil]
        exact h.congr hsame
      · simp [reads, hdue]

variable (settings) in
theorem run_spec (steps : List (Event × Answers O D)) (h : s.Follows catalog) {last : ℚ}
    (hlast : s.lastRefresh = some last) : ∃ s' last', steps.foldlM (step settings) s = some s' ∧
      s'.Follows (catalog ++ reads settings.tenantRefresh last steps) ∧ s'.lastRefresh = some last' := by
  induction steps generalizing s catalog last with
  | nil => exact ⟨s, last, rfl, by simpa [reads] using h, hlast⟩
  | cons e steps ih =>
    obtain ⟨t, last', read, ht, hfollows, hlast', hreads, -⟩ := step_spec settings e.1 e.2 h hlast
    obtain ⟨s', last'', hrun, hspec, htime⟩ := ih hfollows hlast'
    refine ⟨s', last'', ?_, ?_, htime⟩
    · rw [List.foldlM_cons]
      exact (congrArg (fun o => o.bind fun t => steps.foldlM (step settings) t) ht).trans hrun
    · rw [hreads steps, ← List.append_assoc]
      exact hspec

/-- **The beat follows the tenants.**  Whatever the calls answer, after any ticks and refreshes: the tenants with a
scheduler are in the last catalog read; they have one each, and have one exactly if their schedule could be loaded at
that read or at an earlier one since which they stayed in the catalog; it is the one that was built then, and a step
keeps it as long as the tenant has one.  In a tick each scheduler is ticked once, and the delay is the least that
those which do not raise return. -/
theorem beat_follows_tenants (settings : Settings D) (first : Answers O D) (steps : List (Event × Answers O D)) :
    ∃ s, run settings first steps = some s ∧
      (∀ db_name ∈ s.names, db_name ∈ lastRead (readsOf settings.tenantRefresh first steps)) ∧
      s.names.Nodup ∧
      (∀ db_name, db_name ∈ s.names ↔
        ∃ scheduler, LoadedAt (readsOf settings.tenantRefresh first steps) (db_name, scheduler)) ∧
      (∀ x ∈ s.schedulers, LoadedAt (readsOf settings.tenantRefresh first steps) x) ∧
      (∀ e, ∃ s', step settings s e = some s' ∧ ∀ x ∈ s.schedulers, x.1 ∈ s'.names → x ∈ s'.schedulers) ∧
      ∀ a : Answers O D, ∃ t delay, s.tick a settings.tenantRefresh settings.maxInterval
        = some (t, t.schedulers, delay) ∧ Least a settings.maxInterval t.schedulers delay := by
  have hinit : (init first).Follows ([] ++ first.read) := follows_refresh follows_nil
  rw [List.nil_append] at hinit
  obtain ⟨s, last, hrun, hfollows, hlast⟩ := run_spec settings steps hinit lastRefresh_refreshDatabases
  refine ⟨s, hrun, hfollows.within, hfollows.nodup, fun db_name => ⟨fun hname => ?_, ?_⟩, hfollows.loaded,
    fun e => ?_, fun a => ?_⟩
  · obtain ⟨scheduler, hmem⟩ := mem_names.mp hname
    exact ⟨scheduler, hfollows.loaded _ hmem⟩
  · rintro ⟨scheduler, hloaded⟩
    exact hfollows.complete _ hloaded
  · obtain ⟨s', -, -, hstep, -, -, -, hkeeps⟩ := step_spec settings e.1 e.2 hfollows hlast
    exact ⟨s', hstep, hkeeps⟩
  · obtain ⟨t, delay, htick, hsame, -, hleast⟩ :=
      tick_spec settings.maxInterval (refreshIfDue_eq a settings.tenantRefresh hlast)
    exact ⟨t, delay, hsame ▸ htick, hsame ▸ hleast⟩

end

/-! ## A tenant that comes late, one that goes, and one that raises -/

section Sample

/-- A minute passes; the schedulers are numbered by the minute, and `loads` are the tenants whose schedule can be
loaded. -/
def minuteAnswers (minute : ℕ) (catalog : Option (List String)) (loads : List String) (raises : List String) :
    Answers (String × ℕ) ℕ where
  checked := minute
  refreshed := minute
  tenantDatabases := catalog
  loads db_name := if db_name ∈ loads then some (db_name, minute) else none
  closeRaises x := decide (x.1 ∈ raises)
  ticks x := if x.1 ∈ raises then none else some x.1.length
  setOrder := List.reverse
  setOrder_perm := List.reverse_perm

/-- The schedule of `b` cannot be loaded at first, the catalog not be read at the second refresh; then `a` is gone and
its close raises. -/
def minuteSteps : List (Event × Answers (String × ℕ) ℕ) :=
  [(.refresh, minuteAnswers 1 (some ["a", "b", "dd"]) ["b", "dd"] []), (.refresh, minuteAnswers 2 none [] []),
    (.tick, minuteAnswers 7 (some ["b", "dd", "e"]) ["b", "e"] ["a", "b"])]

/-- The schedulers of `b` and `dd` are those of the first refresh; the tick of `b` raises, and the delay is that of
`e`. -/
theorem beat_follows_tenants_sample : ∃ s, run ⟨5, 60⟩ (minuteAnswers 0 (some ["a", "b"]) ["a"] []) minuteSteps = some s ∧
    s.schedulers = [("b", ("b", 1)), ("dd", ("dd", 1)), ("e", ("e", 7))] ∧
    s.log = [.notLoaded "b", .catalogUnread, .notSaved "a", .tickFailed "b"] ∧
    (∃ scheduler, LoadedAt (readsOf 5 (minuteAnswers 0 (some ["a", "b"]) ["a"] []) minuteSteps) ("dd", scheduler)) ∧
    ¬ (∃ scheduler, LoadedAt (readsOf 5 (minuteAnswers 0 (some ["a", "b"]) ["a"] []) minuteSteps) ("a", scheduler)) ∧
    ∃ t, s.tick (minuteAnswers 8 none [] ["b"]) 5 60 = some (t, t.schedulers, 1) := by
  obtain ⟨s, hrun, -, -, hloaded, -, -, htick⟩ :=
    beat_follows_tenants ⟨5, 60⟩ (minuteAnswers 0 (some ["a", "b"]) ["a"] []) minuteSteps
  have hfields : (run ⟨5, 60⟩ (minuteAnswers 0 (some ["a", "b"]) ["a"] []) minuteSteps).map
      (fun s => (s.schedulers, s.log)) = some ([("b", ("b", 1)), ("dd", ("dd", 1)), ("e", ("e", 7))],
        [.notLoaded "b", .catalogUnread, .notSaved "a", .tickFailed "b"]) := by decide +kernel
  rw [hrun, Option.map_some, Option.some.injEq, Prod.mk.injEq] at hfields
  have hnames : s.names = ["b", "dd", "e"] := congrArg (List.map Prod.fst) hfields.1
  obtain ⟨t, delay, ht, -⟩ := htick (minuteAnswers 8 none [] ["b"])
  have hdelay : ((run ⟨5, 60⟩ (minuteAnswers 0 (some ["a", "b"]) ["a"] []) minuteSteps).bind
      fun s => s.tick (minuteAnswers 8 none [] ["b"]) 5 60).map (fun r => r.2.2) = some 1 := by decide +kernel
  rw [hrun, Option.bind_some, ht, Option.map_some, Option.some.injEq] at hdelay
  refine ⟨s, hrun, hfields.1, hfields.2, ?_, ?_, t, hdelay ▸ ht⟩
  · exact (hloaded "dd").1 (by rw [hnames]; decide)
  · intro ha
    have hmem := (hloaded "a").2 ha
    rw [hnames] at hmem
    exact absurd hmem (by decide)

end Sample

end Totem.Tenancy.Beat
