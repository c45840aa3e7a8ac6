import Totem.Budgets.Scoping
import Totem.Services.AccessComposition

/-!
# Totem.Budgets.Nested — the routes nested under a budget

`account/api/budget_positions.py` and `budget_lines.py`: controllers of `core/api/controller.py` whose prefix names a
budget.  The path narrows what is read, updated, deleted and numbered, and completes what is created; the rules of
`account/security.py` say which budgets the acting user reaches.

* `serve`: one request, with its answer and the database it leaves.
* `Sound`: the invariant of the tables, `serve_sound`: every request keeps it.
* `answer_within`: what a request answers is in the budget of its path.
-/

namespace Totem.Budgets.Nested

open Totem.Lib Totem.Computed
open Totem.Services (Rule Environment applyAccessRules)

/-! ## Access rules -/

section Rules

/-- `Q(user_id=…)` on budgets, `Q(budget__user_id=…)` on what is in a budget: the user of the budget is read. -/
def manageOwn (identifier : String) (model : Model) : Rule Model String (Option String) Empty Unit where
  identifier := identifier
  model := model
  operations := ["create", "read", "update", "delete"]
  scopeFilter user := user.elim .all fun user => .column fun budgetUser => decide (budgetUser = some user)

/-- `~Q(pk__in=[])`. -/
def manageAll (identifier : String) (model : Model) : Rule Model String (Option String) Empty Unit where
  identifier := identifier
  model := model
  operations := ["create", "read", "update", "delete"]
  scopeFilter _ := .not (.column fun _ => false)

def budgetManageOwnRule := manageOwn "budget_manage_own" .budget

def budgetPositionManageOwnRule := manageOwn "budget_position_manage_own" .budgetPosition

def budgetLineManageOwnRule := manageOwn "budget_line_manage_own" .budgetLine

def budgetManageAllRule := manageAll "budget_manage_all" .budget

def budgetPositionManageAllRule := manageAll "budget_position_manage_all" .budgetPosition

def budgetLineManageAllRule := manageAll "budget_line_manage_all" .budgetLine

def rules : List (Rule Model String (Option String) Empty Unit) :=
  [budgetManageOwnRule, budgetPositionManageOwnRule, budgetLineManageOwnRule, budgetManageAllRule,
    budgetPositionManageAllRule, budgetLineManageAllRule]

/-- The acting user, and the rules of its roles. -/
structure Actor where
  user : Option String
  roles : List (Option (List String))

def Actor.environment (actor : Actor) : Environment Model String (Option String) Empty Unit :=
  ⟨rules, actor.user, actor.roles⟩

/-- The budget is joined by a foreign key: one row. -/
def budgetJoin : Joins (Option String) Empty Unit := ⟨fun _ _ => [()], fun _ => rfl⟩

/-- The user of a budget, or of the budget a row is in. -/
def budgetUser (db : ADb) (m : Model) (row : ARow) : Option String :=
  if m = .budget then row.key .user else keyOf db .budget .user (row.key .budget)

/-- The row is in the queryset `apply_access_rules` leaves of an operation. -/
def Actor.reaches (actor : Actor) (db : ADb) (m : Model) (operation : String) (row : ARow) : Bool :=
  (applyAccessRules actor.environment m operation).all fun q => q.somewhere budgetJoin (budgetUser db m row)

theorem registered_rules : Services.Registered rules := ⟨rules, rfl⟩

/-- The roles ORed, the rules of each ANDed; a role whose rules say nothing of the model does not count. -/
theorem reaches_iff {actor : Actor} {db : ADb} {m : Model} {operation : String} {row : ARow} :
    actor.reaches db m operation row = true ↔
      (∀ role ∈ actor.roles, ¬ Services.HasFilter actor.environment m operation role) ∨
        ∃ role ∈ actor.roles, Services.HasFilter actor.environment m operation role ∧
          Services.RoleAdmits actor.environment m operation budgetJoin (budgetUser db m row) role := by
  rw [Actor.reaches, List.all_eq_true]
  exact Services.admits_applyAccessRules actor.environment registered_rules

end Rules

/-! ## Requests -/

/-- The controllers: their models. -/
inductive Resource
  | positions
  | lines
deriving DecidableEq

namespace Resource

def model : Resource → Model
  | positions => .budgetPosition
  | lines => .budgetLine

/-- The fields of `create_request_schema` that have no default. -/
def required : Resource → List Name
  | positions => [.category]
  | lines => [.name, .position, .plannedAmount]

/-- The relation of the bodies: the budget apart, which no body declares. -/
def relation : Resource → Name × Model
  | positions => (.category, .accountCategory)
  | lines => (.position, .budgetPosition)

end Resource

/-- A body: the fields that are set, and the values of columns and keys. -/
structure Body where
  names : Finset Name
  col : Name → Value
  key : Name → Option String

inductive Operation
  /-- The list, with the expression of its query filters. -/
  | list (filter : String → ARow → Bool)
  | retrieve (id : String)
  | displayName (ids : List String)
  /-- `pk` is the key the new record draws. -/
  | create (pk : String) (body : Body)
  | update (id : String) (body : Body)
  | delete (id : String)
  | resequence (ids : List String) (offset : ℕ)

/-- A request to `/accounting/budget/{budget}/…/`. -/
structure Call where
  actor : Actor
  resource : Resource
  budget : String
  operation : Operation
  clock : Clock

/-- The public names of the fields, in the locations and the texts of errors. -/
def publicName : Name → String
  | .name => "name" | .code => "code" | .description => "description" | .active => "active" | .note => "note"
  | .color => "color" | .sequence => "sequence" | .date => "date" | .reference => "reference"
  | .createDate => "create_date" | .updateDate => "update_date"
  | .amount => "amount" | .plannedAmount => "planned_amount"
  | .totalDebit => "total_debit" | .totalCredit => "total_credit" | .balance => "balance"
  | .totalPlanned => "total_planned" | .totalPractical => "total_practical"
  | .totalPlannedAmount => "total_planned_amount" | .totalPracticalAmount => "total_practical_amount"
  | .user => "user" | .userId => "user_id" | .account => "account" | .accountId => "account_id"
  | .category => "category" | .categoryId => "category_id" | .budget => "budget" | .budgetId => "budget_id"
  | .position => "position" | .positionId => "position_id"
  | .categories => "categories" | .movements => "movements" | .budgets => "budgets"
  | .budgetPositions => "budget_positions" | .positions => "positions" | .lines => "lines"

/-- A record as its schema reads it: with the budget and the relation its sub-schemas render. -/
structure Rendered where
  row : ARow
  budget : Option ARow
  related : Option ARow

def render (db : ADb) (r : Resource) (row : ARow) : Rendered where
  row := row
  budget := (row.key .budget).bind (db .budget).get
  related := (row.key r.relation.1).bind (db r.relation.2).get

inductive Answer
  /-- The queryset of the list, before it is ordered and cut in pages. -/
  | listed (rows : Table String Rendered)
  | named (rows : List (String × Rendered))
  | record (k : String) (r : Rendered)
  /-- 201 or 204, without a body. -/
  | done
  /-- 403. -/
  | denied
  /-- 404. -/
  | notFound
  /-- 422: the locations and the messages. -/
  | invalid (errors : List (List String × String))
  /-- The refresh of the computed fields does not end. -/
  | endless

/-- The location of the errors of a field of the body. -/
def location (n : Name) : List String := ["body", "request_body", publicName n]

def fieldErrors (errors : List (Name × String)) : Answer :=
  .invalid (errors.map fun e => (location e.1, e.2))

/-! ## The service -/

section Service

/-- What the service asks of the framework. -/
structure Framework where
  /-- `run_validators` and `validate` of a field, on the value of a column. -/
  validate : Model → Name → Value → Option String
  /-- The order a set of names is iterated in. -/
  order : List Name → List Name
  order_perm : ∀ names, (order names).Perm names
  /-- The text of the database on a primary key that is taken. -/
  keyTaken : String

variable (fw : Framework)

/-- The first pass of `to_internal_values`. -/
def checkErrors (m : Model) (names : Finset Name) (data : ARow) : List (Name × String) :=
  (fields m).filterMap fun f =>
    if f.name ∈ names then
      if f.target = none then (fw.validate m f.name (data.col f.name)).map fun message => (f.name, message)
      else if data.key f.name = none ∧ f.name ∈ requiredKeys m then
        some (f.name, "['This field cannot be null.']")
      else none
    else none

variable (actor : Actor) (db : ADb)

/-- The record is in `browse` of the service of its model. -/
def browses (m : Model) (k : String) : Bool := ((db m).get k).any (actor.reaches db m "read")

/-- The `RelationNotFound` of a field: `_resolve_relation` leaves its value out. -/
def relationError (m : Model) (data : ARow) (n : Name) : Option (Name × String) :=
  (((fields m).find? fun f => decide (f.name = n)).bind Field.target).bind fun target =>
    ((data.key n).filter fun k => !browses actor db target k).map fun k =>
      (n, "Invalid value for field '" ++ publicName n ++ "': " ++ k)

/-- The second pass: the errors of an item replace each other, the last stays. -/
def relationErrors (m : Model) (names : Finset Name) (data : ARow) : List (Name × String) :=
  let given := ((fields m).map Field.name).filter fun n => decide (n ∈ names)
  ((fw.order given).filterMap (relationError actor db m data)).getLast?.toList

/-- `to_internal_values`: what is wrong with the data. -/
def internalErrors (m : Model) (names : Finset Name) (data : ARow) : List (Name × String) :=
  if checkErrors fw m names data ≠ [] then checkErrors fw m names data
  else relationErrors fw actor db m names data

/-- The rows of a path: those of its budget the operation reaches. -/
def onPath (r : Resource) (budget operation : String) (k : String) : Option ARow :=
  ((db r.model).get k).filter fun row =>
    actor.reaches db r.model operation row && decide (row.key .budget = some budget)

/-- `unique_budget_position_category`. -/
def UniqueCategories (db : ADb) : Prop :=
  ∀ k ∈ (db .budgetPosition).keys, ∀ k' ∈ (db .budgetPosition).keys, ∀ row ∈ (db .budgetPosition).get k,
    ∀ row' ∈ (db .budgetPosition).get k', row.key .budget = row'.key .budget →
      row.key .category = row'.key .category →
      k = k'

instance : Decidable (UniqueCategories db) :=
  inferInstanceAs (Decidable (∀ k ∈ (db .budgetPosition).keys, ∀ k' ∈ (db .budgetPosition).keys,
    ∀ row ∈ (db .budgetPosition).get k, ∀ row' ∈ (db .budgetPosition).get k',
      row.key .budget = row'.key .budget → row.key .category = row'.key .category → k = k'))

/-- `_database_error_to_validation_error`. -/
def integrityError (message : String) : Answer := .invalid [(["body", "request_body", "__all__"], message)]

/-- The `violation_error_message` of the constraint. -/
def notUnique : Answer := integrityError "The budget already has a position for this category."

/-! ### Reads -/

def list (r : Resource) (budget : String) (filter : String → ARow → Bool) : Table String Rendered :=
  ((db r.model).filter fun k row => (onPath actor db r budget "read" k).isSome && filter k row).map fun _ row =>
    render db r row

def displayName (r : Resource) (budget : String) (ids : List String) : List (String × Rendered) :=
  ids.dedup.filterMap fun k => (onPath actor db r budget "read" k).map fun row => (k, render db r row)

/-! ### Writes -/

/-- `_create_input_from_path`, then the defaults of what the body leaves out. -/
def Body.input (body : Body) (budget : String) : ARow where
  col n := if n = .sequence ∧ n ∉ body.names then .int 10 else body.col n
  key n := if n = .budget then some budget else body.key n
  many _ := ∅

/-- What an update is given. -/
def Body.values (body : Body) : ARow where
  col := body.col
  key := body.key
  many _ := ∅

/-- The record, read again once the unit of work has exited. -/
def refetched (r : Resource) (k : String) (exited : Option (State Model Name String Value)) : Answer × ADb :=
  match exited with
  | none => (.endless, db)
  | some s => (((s.db r.model).get k).elim .endless fun row => .record k (render s.db r row), s.db)

/-- `create`. -/
def create (r : Resource) (budget pk : String) (body : Body) (clock : Clock) : Answer × ADb :=
  let missing := r.required.filter fun n => decide (n ∉ body.names)
  if missing ≠ [] then (fieldErrors (missing.map fun n => (n, "Field required")), db)
  else
    let m := r.model
    let data := body.input budget
    let errors := internalErrors fw actor db m (createFields m) data
    if errors ≠ [] then (fieldErrors errors, db)
    else
      let errors := validateData db clock.today m (createFields m) data none
      if errors ≠ [] then (fieldErrors errors, db)
      else
        let row := newRow db clock.now m data
        let inserted := insertRows db m (Table.empty.insert pk row)
        if pk ∈ (db m).keys then (integrityError ("A global validation error occurred: " ++ fw.keyTaken), db)
        else if ¬ UniqueCategories inserted then (notUnique, db)
        else if actor.reaches inserted m "create" row = false then (.denied, db)
        else refetched db r pk (Budgets.create db clock m (Table.empty.insert pk data))

/-- `update`. -/
def update (r : Resource) (budget id : String) (body : Body) (clock : Clock) : Answer × ADb :=
  let m := r.model
  let names := body.names ∩ updateFields m
  let errors := internalErrors fw actor db m names body.values
  if errors ≠ [] then (fieldErrors errors, db)
  else
    match onPath actor db r budget "update" id with
    | none => (.notFound, db)
    | some row =>
      let errors := validateData db clock.today m names body.values (some row)
      if errors ≠ [] then (fieldErrors errors, db)
      else if ¬ UniqueCategories
          (accounts.updateRows db m {id} (written m names) fun _ => newValues db clock.now m body.values) then
        (notUnique, db)
      else refetched db r id (Budgets.update db clock m {id} names body.values)

/-- What the collector finds for a position or a line: the lines of a position cascade. -/
def collection (db : ADb) (m : Model) (pks : Finset String) : Collection Model Name String where
  deleted m' :=
    if m' = m then pks
    else if m' = .budgetLine ∧ m = .budgetPosition then
      (db .budgetLine).find fun _ row => decide (∃ k ∈ pks, row.key .position = some k)
    else ∅
  rewritten _ _ := ∅
  isProtected := false

/-- `delete`. -/
def delete (r : Resource) (budget id : String) : Answer × ADb :=
  match onPath actor db r budget "delete" id with
  | none => (.notFound, db)
  | some _ =>
    match Budgets.delete db (collection db r.model {id}) r.model {id} with
    | none => (.endless, db)
    | some s => (.done, s.db)

/-- What the `Case` of `_resequence` gives to each key. -/
def numbers (ids : List String) (offset : ℕ) (k : String) : ARow where
  col _ := .int (offset + ids.idxOf k + 1)
  key _ := none
  many _ := ∅

def idsErrors (message : String) : Answer := .invalid [(["body", "request_body", "ids"], message)]

/-- `resequence`. -/
def resequence (r : Resource) (budget : String) (ids : List String) (offset : ℕ) : Answer × ADb :=
  let duplicates := (ids.filter fun k => decide (1 < ids.count k)).dedup
  if duplicates ≠ [] then
    (idsErrors ("Repeated value(s): " ++ ",".intercalate (duplicates.mergeSort fun a b => decide (a ≤ b))), db)
  else
    let missing := ids.filter fun k => (onPath actor db r budget "update" k).isNone
    if missing ≠ [] then (idsErrors ("Invalid value(s): " ++ ",".intercalate missing), db)
    else
      let m := r.model
      let numbered := accounts.updateRows db m ids.toFinset {.sequence} (numbers ids offset)
      let pending := declareUpdate accounts registry db numbered m ids.toFinset {.sequence} Pending.empty
      match State.exit accounts registry false ⟨numbered, pending, 1⟩ with
      | none => (.endless, db)
      | some s => (.done, s.db)

/-- **One request**: its answer, and the database it leaves. -/
def serve (c : Call) : Answer × ADb :=
  match c.operation with
  | .list filter => (.listed (list c.actor db c.resource c.budget filter), db)
  | .retrieve id =>
    ((onPath c.actor db c.resource c.budget "read" id).elim .notFound fun row =>
      .record id (render db c.resource row), db)
  | .displayName ids => (.named (displayName c.actor db c.resource c.budget ids), db)
  | .create pk body => create fw c.actor db c.resource c.budget pk body c.clock
  | .update id body => update fw c.actor db c.resource c.budget id body c.clock
  | .delete id => delete c.actor db c.resource c.budget id
  | .resequence ids offset => resequence c.actor db c.resource c.budget ids offset

end Service

/-! ## What a request writes -/

section Written

variable {fw : Framework} {actor : Actor} {db : ADb} {r : Resource} {budget : String}

/-- The tables before the refresh, and what was checked. -/
inductive Written (fw : Framework) (db : ADb) (c : Call) : ADb → Prop
  | create {pk : String} {body : Body} (hop : c.operation = .create pk body)
      (hinternal : internalErrors fw c.actor db c.resource.model (createFields c.resource.model)
        (body.input c.budget) = [])
      (hvalid : validateData db c.clock.today c.resource.model (createFields c.resource.model)
        (body.input c.budget) none = [])
      (hnew : (db c.resource.model).get pk = none)
      (hunique : UniqueCategories (insertRows db c.resource.model (Table.empty.insert pk
        (newRow db c.clock.now c.resource.model (body.input c.budget))))) :
      Written fw db c (insertRows db c.resource.model (Table.empty.insert pk
        (newRow db c.clock.now c.resource.model (body.input c.budget))))
  | update {id : String} {body : Body} {row : ARow} (hop : c.operation = .update id body)
      (hinternal : internalErrors fw c.actor db c.resource.model (body.names ∩ updateFields c.resource.model)
        body.values = [])
      (hrow : onPath c.actor db c.resource c.budget "update" id = some row)
      (hvalid : validateData db c.clock.today c.resource.model (body.names ∩ updateFields c.resource.model) body.values
        (some row) = [])
      (hunique : UniqueCategories (accounts.updateRows db c.resource.model {id}
        (written c.resource.model (body.names ∩ updateFields c.resource.model))
          fun _ => newValues db c.clock.now c.resource.model body.values)) :
      Written fw db c (accounts.updateRows db c.resource.model {id}
        (written c.resource.model (body.names ∩ updateFields c.resource.model))
          fun _ => newValues db c.clock.now c.resource.model body.values)
  | delete {id : String} {row : ARow} (hop : c.operation = .delete id)
      (hrow : onPath c.actor db c.resource c.budget "delete" id = some row) :
      Written fw db c (deleteRows accounts (collection db c.resource.model {id}) db)
  | resequence {ids : List String} {offset : ℕ} (hop : c.operation = .resequence ids offset)
      (hrows : ∀ k ∈ ids, ∃ row, onPath c.actor db c.resource c.budget "update" k = some row) :
      Written fw db c (accounts.updateRows db c.resource.model ids.toFinset {.sequence} (numbers ids offset))

theorem onPath_eq_some {operation k : String} {row : ARow} : onPath actor db r budget operation k = some row ↔
    (db r.model).get k = some row ∧ actor.reaches db r.model operation row = true ∧
      row.key .budget = some budget := by
  rw [onPath, Option.filter_eq_some_iff, Bool.and_eq_true, decide_eq_true_eq]

theorem relationErrors_eq_nil {m : Model} {names : Finset Name} {data : ARow} :
    relationErrors fw actor db m names data = [] ↔ ∀ n target, HasKey m n target → n ∈ names →
      ∀ k, data.key n = some k → browses actor db target k = true := by
  have hgiven : ∀ n, n ∈ fw.order (((fields m).map Field.name).filter fun n => decide (n ∈ names)) ↔
      n ∈ (fields m).map Field.name ∧ n ∈ names := by
    intro n
    rw [(fw.order_perm _).mem_iff, List.mem_filter, decide_eq_true_eq]
  have hfind : ∀ f ∈ fields m, (fields m).find? (fun g => decide (g.name = f.name)) = some f := by
    intro f hf
    have hsome : ((fields m).find? fun g => decide (g.name = f.name)).isSome :=
      List.find?_isSome.mpr ⟨f, hf, by simp⟩
    obtain ⟨g, hg⟩ := Option.isSome_iff_exists.mp hsome
    have hname := List.find?_some hg
    rw [decide_eq_true_eq] at hname
    rw [hg, accounts.field_unique (List.mem_of_find?_eq_some hg) hf hname]
  unfold relationErrors
  rw [Option.toList_eq_nil_iff, List.getLast?_eq_none_iff, List.filterMap_eq_nil_iff]
  simp only [hgiven]
  constructor
  · rintro h n target ⟨f, hf, rfl, htarget⟩ hn k hk
    have hnone := h f.name ⟨List.mem_map_of_mem hf, hn⟩
    unfold relationError at hnone
    rw [hfind f hf, Option.bind_some, htarget, Option.bind_some, hk, Option.map_eq_none_iff] at hnone
    by_contra hnot
    rw [Bool.not_eq_true] at hnot
    simp [Option.filter, hnot] at hnone
  · rintro h n ⟨hmem, hn⟩
    obtain ⟨f, hf, rfl⟩ := List.mem_map.mp hmem
    unfold relationError
    rw [hfind f hf, Option.bind_some]
    cases htarget : f.target with
    | none => rfl
    | some target =>
      rw [Option.bind_some, Option.map_eq_none_iff]
      cases hk : data.key f.name with
      | none => rfl
      | some k => simp [Option.filter, h f.name target ⟨f, hf, rfl, htarget⟩ hn k hk]

theorem internalErrors_eq_nil {m : Model} {names : Finset Name} {data : ARow} :
    internalErrors fw actor db m names data = [] ↔ checkErrors fw m names data = [] ∧
      ∀ n target, HasKey m n target → n ∈ names → ∀ k, data.key n = some k → browses actor db target k = true := by
  unfold internalErrors
  split_ifs with hcheck
  · exact iff_of_false hcheck fun h => hcheck h.1
  · rw [not_not] at hcheck
    rw [relationErrors_eq_nil]
    exact (and_iff_right hcheck).symm

/-- The keys of the data are not null where the column is not, and every row they name is found. -/
theorem resolved_of_internal {m : Model} {names : Finset Name} {data : ARow}
    (h : internalErrors fw actor db m names data = []) {n : Name} {target : Model} (hkey : HasKey m n target)
    (hn : n ∈ names) : (n ∈ requiredKeys m → data.key n ≠ none) ∧
      ∀ k, data.key n = some k → ∃ row, (db target).get k = some row := by
  obtain ⟨hcheck, hbrowses⟩ := internalErrors_eq_nil.mp h
  refine ⟨fun hrequired hnull => ?_, fun k hk => ?_⟩
  · obtain ⟨f, hf, rfl, htarget⟩ := hkey
    have hnone := List.filterMap_eq_nil_iff.mp hcheck f hf
    rw [if_pos hn, if_neg (by rw [htarget]; exact Option.some_ne_none target), if_pos ⟨hnull, hrequired⟩] at hnone
    cases hnone
  · obtain ⟨row, hrow, -⟩ := (Option.any_eq_true _ _).mp (hbrowses n target hkey hn k hk)
    exact ⟨row, hrow⟩

end Written

/-! ## The constraints -/

section Constraints

variable {db db₁ : ADb} {r : Resource} {m : Model}

/-- Rows that are added or whose keys are replaced: the new keys name rows. -/
theorem constraints_of_grown (hk : Constraints db)
    (hkeys : ∀ m k row, (db m).get k = some row → ∃ row', (db₁ m).get k = some row')
    (hrows : ∀ m k row', (db₁ m).get k = some row' →
      (∃ row, (db m).get k = some row ∧ row'.key = row.key ∧
        (m = .accountCategory → row'.col .name = row.col .name)) ∨
        m ≠ .accountCategory ∧
          (∀ n target, HasKey m n target → ∀ y, row'.key n = some y → ∃ row, (db target).get y = some row) ∧
          ∀ n ∈ requiredKeys m, row'.key n ≠ none) : Constraints db₁ where
  references := by
    intro m n target hkey k row' y hrow' hy
    have htarget : ∃ row, (db target).get y = some row := by
      rcases hrows m k row' hrow' with ⟨row, hrow, hsame, -⟩ | ⟨-, hnew, -⟩
      · rw [hsame] at hy
        exact hk.references m n target hkey k row y hrow hy
      · exact hnew n target hkey y hy
    obtain ⟨row, hrow⟩ := htarget
    exact hkeys target y row hrow
  required := by
    intro m n hn k row' hrow'
    rcases hrows m k row' hrow' with ⟨row, hrow, hsame, -⟩ | ⟨-, -, hnew⟩
    · rw [hsame]
      exact hk.required m n hn k row hrow
    · exact hnew n hn
  named := by
    intro k row' hrow'
    rcases hrows .accountCategory k row' hrow' with ⟨row, hrow, -, hname⟩ | ⟨hne, -⟩
    · rw [hname rfl]
      exact hk.named k row hrow
    · exact absurd rfl hne

theorem constraints_refreshed (hk : Constraints db) (h : Refreshed accounts db db₁) : Constraints db₁ := by
  refine constraints_of_grown hk (fun m k row hrow => ?_) (fun m k row' hrow' => .inl ?_)
  · obtain ⟨row', hrow', -⟩ := h.rows m k row hrow
    exact ⟨row', hrow'⟩
  · obtain ⟨row, hrow, hkey, -, hcol⟩ := h.row_of hrow'
    refine ⟨row, hrow, hkey, ?_⟩
    rintro rfl
    exact hcol .name (by decide)

theorem nested_ne_category (r : Resource) : r.model ≠ .accountCategory := by
  cases r <;> decide

/-- The keys of a new row: those of the data, the budget of a line apart. -/
theorem newRow_keys (db : ADb) {n : Name} {target : Model} (hkey : HasKey r.model n target) (now : ℕ) (data : ARow) :
    n ∈ createFields r.model ∧ ((newRow db now r.model data).key n = data.key n ∨
      r.model = .budgetLine ∧ n = .budget ∧
        (newRow db now r.model data).key n = keyOf db .budgetPosition .budget (data.key .position)) := by
  have hmem : ∀ r : Resource, ∀ f ∈ fields r.model, f.target.isSome = true → f.name ∈ createFields r.model := by
    intro r
    cases r <;> decide
  obtain ⟨f, hf, rfl, htarget⟩ := hkey
  have hn := hmem r f hf (by rw [htarget]; rfl)
  refine ⟨hn, ?_⟩
  by_cases hline : r.model = .budgetLine ∧ f.name = .budget
  · refine .inr ⟨hline.1, hline.2, ?_⟩
    have hposition : (newRow db now .budgetLine data).key .position = data.key .position :=
      newRow_key (by decide) (by decide) now
    rw [hline.1, hline.2, ← hposition]
    simp [newRow, Schema.writeRow, createFields]
  · exact .inl (newRow_key hn (fun hm hb => hline ⟨hm, hb⟩) now)

theorem new_of_insert {t : Table String ARow} {pk : String} (hnew : t.get pk = none) (row : ARow) :
    ∀ k ∈ (Table.empty.insert pk row).keys, t.get k = none := by
  intro k hk
  obtain ⟨row', hrow⟩ := Table.mem_keys_iff.mp hk
  obtain ⟨rfl, -⟩ := Table.get_insert_empty.mp hrow
  exact hnew

theorem constraints_insert {fw : Framework} {actor : Actor} (hk : Constraints db) {pk : String} {data : ARow}
    {now : ℕ}
    (hnew : (db r.model).get pk = none)
    (hinternal : internalErrors fw actor db r.model (createFields r.model) data = []) :
    Constraints (insertRows db r.model (Table.empty.insert pk (newRow db now r.model data))) := by
  refine constraints_of_grown hk (fun m k row hrow => ⟨row, insertRows_old (new_of_insert hnew _) hrow⟩)
    (fun m k row' hrow' => ?_)
  rcases insertRows_cases hrow' with hold | ⟨rfl, hrow⟩
  · exact .inl ⟨row', hold, rfl, fun _ => rfl⟩
  obtain ⟨rfl, rfl⟩ := Table.get_insert_empty.mp hrow
  refine .inr ⟨nested_ne_category r, fun n target hkey y hy => ?_, fun n hn => ?_⟩
  · obtain ⟨hn, hsame | ⟨hm, rfl, hbudget⟩⟩ := newRow_keys db hkey now data
    · rw [hsame] at hy
      exact (resolved_of_internal hinternal hkey hn).2 y hy
    · -- the budget of a line is that of its position
      have htargets : ∀ f ∈ fields .budgetLine, f.name = .budget → f.target = some .budget := by decide
      obtain ⟨f, hf, hname, htarget⟩ := hkey
      rw [hm] at hf
      obtain rfl := Option.some.inj (htarget.symm.trans (htargets f hf hname))
      rw [hbudget] at hy
      obtain ⟨k, -, hrow⟩ := Option.bind_eq_some_iff.mp hy
      obtain ⟨row, hrow, hy⟩ := Option.bind_eq_some_iff.mp hrow
      exact hk.references .budgetPosition .budget .budget position_budget k row y hrow hy
  · have hfields : ∀ r : Resource, ∀ n ∈ requiredKeys r.model, ∃ f ∈ fields r.model, f.name = n ∧
        f.target.isSome := by
      intro r
      cases r <;> decide
    obtain ⟨f, hf, rfl, htarget⟩ := hfields r n hn
    obtain ⟨target, htarget⟩ := Option.isSome_iff_exists.mp htarget
    have hkey : HasKey r.model f.name target := ⟨f, hf, rfl, htarget⟩
    obtain ⟨hmem, hsame | ⟨hm, hbudget, hkeyOf⟩⟩ := newRow_keys db hkey now data
    · rw [hsame]
      exact (resolved_of_internal hinternal hkey hmem).1 hn
    · rw [hm] at hinternal
      have hposition := resolved_of_internal hinternal line_position (by decide)
      obtain ⟨k, hk'⟩ := Option.ne_none_iff_exists'.mp (hposition.1 (by decide))
      obtain ⟨row, hrow⟩ := hposition.2 k hk'
      rw [hkeyOf, hk']
      simp only [keyOf, Option.bind_some, hrow]
      exact hk.required .budgetPosition .budget (by decide) k row hrow

/-- The relations of a position or a line. -/
theorem hasKey_cases {n : Name} {target : Model} (h : HasKey r.model n target) :
    n = .budget ∧ target = .budget ∨ n = r.relation.1 ∧ target = r.relation.2 := by
  have hfields : ∀ r : Resource, ∀ f ∈ fields r.model, ∀ target ∈ f.target,
      f.name = .budget ∧ target = .budget ∨ f.name = r.relation.1 ∧ target = r.relation.2 := by
    intro r
    cases r <;> decide
  obtain ⟨f, hf, rfl, htarget⟩ := h
  exact hfields r f hf target htarget

theorem hasKey_budget (r : Resource) : HasKey r.model .budget .budget := by
  cases r <;> decide

theorem hasKey_relation (r : Resource) : HasKey r.model r.relation.1 r.relation.2 := by
  cases r <;> decide

theorem required_cases {n : Name} (h : n ∈ requiredKeys r.model) : n = .budget ∨ n = r.relation.1 := by
  revert n
  cases r <;> decide

theorem relation_required (r : Resource) : r.relation.1 ∈ requiredKeys r.model := by
  cases r <;> decide

/-- Rows whose keys stay, or are replaced by keys that name rows. -/
theorem constraints_updateRows (hk : Constraints db) {pks : Finset String} {names : Finset Name}
    {values : String → ARow}
    (hvalues : ∀ k ∈ pks, ∀ row, (db r.model).get k = some row → ∀ n target, HasKey r.model n target →
      (accounts.writeRow r.model names (values k) row).key n = row.key n ∨
        ∃ y row', (accounts.writeRow r.model names (values k) row).key n = some y ∧ (db target).get y = some row') :
    Constraints (accounts.updateRows db r.model pks names values) := by
  have hupdates : Updates accounts r.model pks names db (accounts.updateRows db r.model pks names values) :=
    updates_updateRows
  refine constraints_of_grown hk (fun m k row hrow => ?_) (fun m k row' hrow' => ?_)
  · obtain ⟨row', hrow', -⟩ := hupdates.row hrow
    exact ⟨row', hrow'⟩
  obtain ⟨row, hrow, rfl | ⟨rfl, hpk, rfl⟩⟩ := updateRows_cases hrow'
  · exact .inl ⟨row', hrow, rfl, fun _ => rfl⟩
  refine .inr ⟨nested_ne_category r, fun n target hkey y hy => ?_, fun n hn => ?_⟩
  · rcases hvalues k hpk row hrow n target hkey with hsame | ⟨z, row₁, hz, hrow₁⟩
    · rw [hsame] at hy
      exact hk.references r.model n target hkey k row y hrow hy
    · obtain rfl := Option.some.inj (hy.symm.trans hz)
      exact ⟨row₁, hrow₁⟩
  · have hkey : ∃ target, HasKey r.model n target := by
      rcases required_cases hn with rfl | rfl
      · exact ⟨_, hasKey_budget r⟩
      · exact ⟨_, hasKey_relation r⟩
    obtain ⟨target, hkey⟩ := hkey
    rcases hvalues k hpk row hrow n target hkey with hsame | ⟨z, -, hz, -⟩
    · rw [hsame]
      exact hk.required r.model n hn k row hrow
    · rw [hz]
      exact Option.some_ne_none z

/-- The position given to a line. -/
theorem line_valid {today : ℕ} {names : Finset Name} {data : ARow} {existing : Option ARow}
    (h : validateData db today .budgetLine names data existing = []) (hn : .position ∈ names)
    (hnull : data.key .position ≠ none) :
    keyOf db .budgetPosition .budget (data.key .position) = (existing.getD data).key .budget := by
  unfold validateData at h
  simp only [hn, if_true, ite_eq_right_iff, List.cons_ne_nil] at h
  by_contra hne
  exact h ⟨hnull, hne⟩

/-- What an update makes of the keys: the budget stays. -/
theorem update_keys (now : ℕ) {fw : Framework} {actor : Actor} {names : Finset Name} {data row : ARow} {today : ℕ}
    (hnames : names ⊆ updateFields r.model) (hinternal : internalErrors fw actor db r.model names data = [])
    (hvalid : validateData db today r.model names data (some row) = []) :
    (accounts.writeRow r.model (written r.model names) (newValues db now r.model data) row).key .budget
        = row.key .budget ∧
      (accounts.writeRow r.model (written r.model names) (newValues db now r.model data) row).key r.relation.1
        = if r.relation.1 ∈ names then data.key r.relation.1 else row.key r.relation.1 := by
  cases r with
  | positions =>
    refine ⟨writeRow_fixed hnames position_budget (by decide) _,
      (writeRow_key position_category (by decide) hnames _).trans ?_⟩
    show _ = if .category ∈ names then _ else _
    by_cases hn : .category ∈ names
    · rw [if_pos hn, if_pos (mem_written_of_mem hn)]
      rfl
    · rw [if_neg hn, if_neg fun h => hn (mem_of_mem_written h (by decide) (by decide))]
      rfl
  | lines =>
    by_cases hn : .position ∈ names
    · have hwritten : written .budgetLine names = insert .budgetId names := by simp [written, isStamped, hn]
      have hposition := resolved_of_internal hinternal line_position hn
      refine ⟨?_, ?_⟩
      · have hbudget : (accounts.writeRow .budgetLine (written .budgetLine names)
            (newValues db now .budgetLine data) row).key .budget
              = keyOf db .budgetPosition .budget (data.key .position) := by
          simp [Schema.writeRow, hwritten, newValues, accounts, fields, budgetLine, columns, Field.attname]
        rw [Resource.model, hbudget]
        exact line_valid hvalid hn (hposition.1 (by decide))
      · refine (writeRow_key line_position (by decide) hnames _).trans ?_
        show _ = if .position ∈ names then _ else _
        rw [if_pos (mem_written_of_mem hn), if_pos hn]
        rfl
    · have hnot : .position ∉ written .budgetLine names :=
        fun h => hn (mem_of_mem_written h (by decide) (by decide))
      have hwritten : written .budgetLine names = names := by simp [written, isStamped, hn]
      refine ⟨?_, ?_⟩
      · rw [Resource.model, hwritten]
        refine writeRow_of_not_mem (f := ⟨.budget, .foreignKey .budget .budgetId none .cascade (some .lines)⟩)
          (by simp [fields, budgetLine]) (fun n hn hmem => ?_) _
        have hdisjoint : Disjoint ({.budget, .budgetId} : Finset Name) (updateFields .budgetLine) := by decide
        exact Finset.disjoint_left.mp hdisjoint hn (hnames hmem)
      · refine (writeRow_key line_position (by decide) hnames _).trans ?_
        show _ = if .position ∈ names then _ else _
        rw [if_neg hnot, if_neg hn]
        rfl

/-- A numbering writes no key. -/
theorem number_keys {n : Name} {target : Model} (hkey : HasKey r.model n target) (new row : ARow) :
    (accounts.writeRow r.model {.sequence} new row).key n = row.key n := by
  have hfields : ∀ r : Resource, ∀ f ∈ fields r.model, f.target.isSome = true → ∀ n ∈ f.names, n ≠ .sequence := by
    intro r
    cases r <;> decide
  obtain ⟨f, hf, rfl, htarget⟩ := hkey
  exact writeRow_of_not_mem hf (fun n hn hmem =>
    hfields r f hf (by rw [htarget]; rfl) n hn (Finset.mem_singleton.mp hmem)) new

/-- A row after a numbering, and the row it was. -/
theorem number_row {pks : Finset String} {values : String → ARow} {k : String} {row' : ARow}
    (hrow' : (accounts.updateRows db r.model pks {.sequence} values m).get k = some row') :
    ∃ row, (db m).get k = some row ∧ ∀ n target, HasKey m n target → row'.key n = row.key n := by
  obtain ⟨row, hrow, rfl | ⟨rfl, -, rfl⟩⟩ := updateRows_cases hrow'
  · exact ⟨row', hrow, fun _ _ _ => rfl⟩
  · exact ⟨row, hrow, fun n target hkey => number_keys hkey _ row⟩

theorem keyOf_number {pks : Finset String} {values : String → ARow} {n : Name} {target : Model}
    (hkey : HasKey m n target)
    (o : Option String) : keyOf (accounts.updateRows db r.model pks {.sequence} values) m n o = keyOf db m n o := by
  have hupdates : Updates accounts r.model pks {.sequence} db
      (accounts.updateRows db r.model pks {.sequence} values) := updates_updateRows
  apply keyOf_congr
  intro k _
  cases hrow : (db m).get k with
  | none => rw [hupdates.get_eq_none hrow]
  | some row =>
    obtain ⟨row', hrow', -⟩ := hupdates.row hrow
    obtain ⟨row₀, hrow₀, hsame⟩ := number_row hrow'
    obtain rfl := Option.some.inj (hrow.symm.trans hrow₀)
    rw [hrow', Option.map_some, Option.map_some, hsame n target hkey]

theorem scoped_number (hs : Scoped db) {pks : Finset String} {values : String → ARow} :
    Scoped (accounts.updateRows db r.model pks {.sequence} values) where
  movement := by
    intro k row' hrow'
    obtain ⟨row, hrow, hsame⟩ := number_row hrow'
    rw [hsame .category _ movement_category, hsame .account .account (by decide),
      keyOf_number (by decide : HasKey .accountCategory .account .account)]
    exact hs.movement k row hrow
  position := by
    intro k row' hrow'
    obtain ⟨row, hrow, hsame⟩ := number_row hrow'
    rw [hsame .category _ position_category, hsame .budget _ position_budget,
      keyOf_number (by decide : HasKey .accountCategory .account .account),
      keyOf_number (by decide : HasKey .budget .account .account)]
    exact hs.position k row hrow
  line := by
    intro k row' hrow'
    obtain ⟨row, hrow, hsame⟩ := number_row hrow'
    rw [hsame .budget .budget (by decide), hsame .position _ line_position, keyOf_number position_budget]
    exact hs.line k row hrow

/-- Nothing computed is written, and what is written is declared. -/
theorem number_consistent (hc : accounts.Consistent db) (r : Resource) (ids : List String) (offset : ℕ) :
    ∃ s, State.exit accounts registry false
        ⟨accounts.updateRows db r.model ids.toFinset {.sequence} (numbers ids offset),
          declareUpdate accounts registry db (accounts.updateRows db r.model ids.toFinset {.sequence} (numbers ids offset))
            r.model ids.toFinset {.sequence} Pending.empty, 1⟩ = some s ∧ accounts.Consistent s.db := by
  have hupdates : Updates accounts r.model ids.toFinset {.sequence} db
      (accounts.updateRows db r.model ids.toFinset {.sequence} (numbers ids offset)) := updates_updateRows
  have hwritable : accounts.Writable r.model {.sequence} := by
    intro n hn
    rw [Finset.mem_singleton.mp hn]
    cases r <;> rfl
  have hupdate := (hc.but Pending.empty).update accounts_readsOnly accounts_primaryKeys build_accounts hupdates
    (accounts_notices hupdates) hwritable fun _ _ _ _ _ hn => hn
  obtain ⟨s, hs, -, hcons⟩ := exit_consistent accounts_readsOnly.stored build_accounts (accounts_follows _) hupdate
  exact ⟨s, hs, hcons⟩

/-! ### Deletions -/

/-- Only the position of a line names a position, and nothing names a line. -/
theorem names_nested {f : AField} (hf : f ∈ fields m) (htarget : f.target = some r.model) :
    r = .positions ∧ m = .budgetLine ∧ f.name = .position ∧ f.onDelete = some .cascade := by
  have hfields : ∀ r : Resource, ∀ m ∈ accounts.models, ∀ f ∈ fields m, f.target = some r.model →
      r = .positions ∧ m = .budgetLine ∧ f.name = .position ∧ f.onDelete = some .cascade := by
    intro r
    cases r <;> decide
  exact hfields r m (accounts.mem_models m) f hf htarget

theorem mem_collection {pks : Finset String} {k : String} : k ∈ (collection db r.model pks).deleted m ↔
    m = r.model ∧ k ∈ pks ∨ r = .positions ∧ m = .budgetLine ∧
      ∃ row, (db .budgetLine).get k = some row ∧ ∃ pk ∈ pks, row.key .position = some pk := by
  have hlines : r.model = .budgetPosition ↔ r = .positions := by cases r <;> simp [Resource.model]
  unfold collection
  dsimp only
  split_ifs with hm hline
  · subst hm
    have hnot : ¬ (r = .positions ∧ r.model = .budgetLine) := by cases r <;> simp [Resource.model]
    constructor
    · exact fun h => .inl ⟨rfl, h⟩
    · rintro (⟨-, h⟩ | ⟨hr, hmodel, -⟩)
      · exact h
      · exact absurd ⟨hr, hmodel⟩ hnot
  · obtain ⟨rfl, hpositions⟩ := hline
    rw [Table.mem_find]
    constructor
    · rintro ⟨row, hrow, hposition⟩
      exact .inr ⟨hlines.mp hpositions, rfl, row, hrow, of_decide_eq_true hposition⟩
    · rintro (⟨h, -⟩ | ⟨-, -, row, hrow, hposition⟩)
      · exact absurd h hm
      · exact ⟨row, hrow, decide_eq_true hposition⟩
  · refine iff_of_false (Finset.notMem_empty k) ?_
    rintro (⟨h, -⟩ | ⟨hr, h, -⟩)
    · exact hm h
    · exact hline ⟨h, hlines.mpr hr⟩

/-- The rows that cascade, by the schema. -/
theorem collects_collection {pks : Finset String} (hpks : ∀ k ∈ pks, ∃ row, (db r.model).get k = some row) :
    Collects accounts db r.model pks (collection db r.model pks) := by
  have hdoomed : ∀ m k, k ∈ (collection db r.model pks).deleted m ↔ Doomed accounts db r.model pks m k := by
    intro m k
    rw [mem_collection]
    constructor
    · rintro (⟨rfl, hk⟩ | ⟨rfl, rfl, row, hrow, pk, hpk, hkey⟩)
      · exact .asked hk
      · exact .cascade (f := ⟨.position, .foreignKey .budgetPosition .positionId none .cascade (some .lines)⟩)
          (.asked hpk) (by simp [accounts, fields, budgetLine]) rfl rfl hrow hkey
    · intro h
      induction h with
      | asked hk => exact .inl ⟨rfl, hk⟩
      | @cascade m m' k y f row h hf htarget _ hrow hkey ih =>
        -- what is deleted is a position asked for, or one of its lines, which nothing names
        rcases ih with ⟨rfl, hk⟩ | ⟨rfl, rfl, -⟩
        · obtain ⟨rfl, rfl, hname, -⟩ := names_nested hf htarget
          rw [hname] at hkey
          exact .inr ⟨rfl, rfl, row, hrow, k, hk, hkey⟩
        · obtain ⟨hpositions, -⟩ := names_nested (r := .lines) hf htarget
          cases hpositions
  have hcascade : ∀ m, ∀ f ∈ fields m, ∀ target k, f.target = some target → Doomed accounts db r.model pks target k →
      f.onDelete = some .cascade := by
    intro m f hf target k htarget hdoom
    rcases mem_collection.mp ((hdoomed target k).mpr hdoom) with ⟨rfl, -⟩ | ⟨-, rfl, -⟩
    · exact (names_nested hf htarget).2.2.2
    · exact (names_nested (r := .lines) hf htarget).2.2.2
  refine ⟨hpks, hdoomed, fun m n y => ?_, ?_⟩
  · refine iff_of_false (Finset.notMem_empty y) ?_
    rintro ⟨f, hf, -, hnew, target, row, k, htarget, -, -, hdoom⟩
    simp [Field.newKey, hcascade m f hf target k htarget hdoom] at hnew
  · refine iff_of_false Bool.false_ne_true ?_
    rintro ⟨m, f, hf, hprotect, target, y, row, k, htarget, -, -, hdoom⟩
    rw [hcascade m f hf target k htarget hdoom] at hprotect
    cases hprotect

/-- The rows a deletion leaves are as they were: no row has many-to-many relations. -/
theorem get_deleteRows (hplain : ∀ m k row, (db m).get k = some row → row.many = fun _ => ∅) {pks : Finset String}
    {k : String} {row : ARow} : (deleteRows accounts (collection db r.model pks) db m).get k = some row ↔
      k ∉ (collection db r.model pks).deleted m ∧ (db m).get k = some row := by
  have hrewrite : ∀ row, (db m).get k = some row → (collection db r.model pks).rewrite accounts m k row = row := by
    intro row hrow
    have hmany : (collection db r.model pks).rewrite accounts m k row = { row with many := fun _ => ∅ } := by
      unfold Collection.rewrite
      congr 1
      ext n
      rw [hplain m k row hrow]
      split <;> simp
    rw [hmany, ← hplain m k row hrow]
  rw [deleteRows_some]
  refine and_congr_right fun _ => ⟨?_, fun hrow => ⟨row, hrow, (hrewrite row hrow).symm⟩⟩
  rintro ⟨row', hrow', rfl⟩
  rw [hrewrite row' hrow']
  exact hrow'

/-- A row that stays names rows that stay. -/
theorem constraints_deleteRows (hk : Constraints db)
    (hplain : ∀ m k row, (db m).get k = some row → row.many = fun _ => ∅)
    {pks : Finset String} : Constraints (deleteRows accounts (collection db r.model pks) db) where
  references := by
    intro m n target hkey k row y hleft hy
    obtain ⟨hstays, hrow⟩ := (get_deleteRows hplain).mp hleft
    obtain ⟨row', hrow'⟩ := hk.references m n target hkey k row y hrow hy
    refine ⟨row', (get_deleteRows hplain).mpr ⟨fun hdeleted => hstays ?_, hrow'⟩⟩
    obtain ⟨f, hf, rfl, htarget⟩ := hkey
    rw [mem_collection] at hdeleted ⊢
    rcases hdeleted with ⟨rfl, hpk⟩ | ⟨-, rfl, -⟩
    · obtain ⟨rfl, rfl, hname, -⟩ := names_nested hf htarget
      rw [hname] at hy
      exact .inr ⟨rfl, rfl, row, hrow, y, hpk, hy⟩
    · obtain ⟨hpositions, -⟩ := names_nested (r := .lines) hf htarget
      cases hpositions
  required := fun m n hn k row hrow => hk.required m n hn k row ((get_deleteRows hplain).mp hrow).2
  named := fun k row hrow => hk.named k row ((get_deleteRows hplain).mp hrow).2

end Constraints

/-! ## The invariant -/

/-- What every request keeps of the tables. -/
structure Sound (db : ADb) : Prop where
  constraints : Constraints db
  scopes : Scoped db
  consistent : accounts.Consistent db
  unique : UniqueCategories db
  /-- No model has many-to-many relations. -/
  plain : ∀ m k row, (db m).get k = some row → row.many = fun _ => ∅

section Sound

variable {fw : Framework} {db raw : ADb} {c : Call}

theorem uniqueCategories_iff : UniqueCategories db ↔ ∀ k k' row row', (db .budgetPosition).get k = some row →
    (db .budgetPosition).get k' = some row' → row.key .budget = row'.key .budget →
      row.key .category = row'.key .category → k = k' := by
  constructor
  · intro h k k' row row' hrow hrow' hbudget hcategory
    exact h k (Table.mem_keys_of_get hrow) k' (Table.mem_keys_of_get hrow') row hrow row' hrow' hbudget hcategory
  · intro h k _ k' _ row hrow row' hrow' hbudget hcategory
    exact h k k' row row' hrow hrow' hbudget hcategory

/-- The refresh writes neither keys nor relations. -/
theorem sound_refreshed {db' : ADb} (hconstraints : Constraints raw) (hscoped : Scoped raw)
    (hunique : UniqueCategories raw) (hplain : ∀ m k row, (raw m).get k = some row → row.many = fun _ => ∅)
    (h : Refreshed accounts raw db') (hconsistent : accounts.Consistent db') : Sound db' where
  constraints := constraints_refreshed hconstraints h
  scopes := hscoped.refreshed h
  consistent := hconsistent
  unique := by
    rw [uniqueCategories_iff] at hunique ⊢
    intro k k' row₁ row₁' hrow₁ hrow₁' hbudget hcategory
    obtain ⟨row, hrow, hkey, -⟩ := h.row_of hrow₁
    obtain ⟨row', hrow', hkey', -⟩ := h.row_of hrow₁'
    rw [hkey, hkey'] at hbudget hcategory
    exact hunique k k' row row' hrow hrow' hbudget hcategory
  plain := by
    intro m k row' hrow'
    obtain ⟨row, hrow, -, hmany, -⟩ := h.row_of hrow'
    rw [hmany]
    exact hplain m k row hrow

/-- The rows a key of the request is compared with. -/
theorem Written.constraints (h : Written fw db c raw) (hs : Sound db) : Constraints raw := by
  cases h with
  | create _ hinternal _ hnew _ => exact constraints_insert hs.constraints hnew hinternal
  | @update id body row _ hinternal hrow hvalid _ =>
    refine constraints_updateRows hs.constraints fun k hk row' hrow' n target hkey => ?_
    obtain rfl := Finset.mem_singleton.mp hk
    obtain rfl := Option.some.inj (hrow'.symm.trans (onPath_eq_some.mp hrow).1)
    obtain ⟨hbudget, hrelation⟩ := update_keys c.clock.now Finset.inter_subset_right hinternal hvalid
    rcases hasKey_cases hkey with ⟨rfl, rfl⟩ | ⟨rfl, rfl⟩
    · exact .inl hbudget
    by_cases hn : c.resource.relation.1 ∈ body.names ∩ updateFields c.resource.model
    · obtain ⟨hnull, hresolved⟩ := resolved_of_internal hinternal hkey hn
      obtain ⟨y, hy⟩ := Option.ne_none_iff_exists'.mp (hnull (relation_required _))
      obtain ⟨row', hrow'⟩ := hresolved y hy
      exact .inr ⟨y, row', by rw [hrelation, if_pos hn, hy], hrow'⟩
    · exact .inl (by rw [hrelation, if_neg hn])
  | delete => exact constraints_deleteRows hs.constraints hs.plain
  | resequence =>
    exact constraints_updateRows hs.constraints fun k _ row _ n target hkey => .inl (number_keys hkey _ row)

theorem map_insert_empty (k : String) (row : ARow) (f : String → ARow → ARow) :
    (Table.empty.insert k row).map f = Table.empty.insert k (f k row) := by
  ext1 k'
  by_cases hk : k' = k
  · subst hk
    simp
  · simp [Table.get_insert_of_ne hk]

/-- What the request has checked. -/
theorem Written.scoped (h : Written fw db c raw) (hs : Sound db) : Scoped raw := by
  cases h with
  | @create pk body _ _ hvalid hnew _ =>
    have hchecked : ∀ k data, (Table.empty.insert pk (body.input c.budget)).get k = some data →
        validateData db c.clock.today c.resource.model (createFields c.resource.model) data none = [] := by
      intro k data hdata
      obtain ⟨rfl, rfl⟩ := Table.get_insert_empty.mp hdata
      exact hvalid
    rw [← map_insert_empty pk (body.input c.budget) fun _ data => newRow db c.clock.now c.resource.model data]
    exact scoped_insertRows hs.constraints hs.scopes (new_of_insert hnew _) hchecked
  | @update id body row _ _ hrow hvalid _ =>
    have hchecked : ∀ k ∈ ({id} : Finset String), ∃ row, (db c.resource.model).get k = some row ∧ validateData db
        c.clock.today c.resource.model (body.names ∩ updateFields c.resource.model) body.values (some row) = [] := by
      intro k hk
      obtain rfl := Finset.mem_singleton.mp hk
      exact ⟨row, (onPath_eq_some.mp hrow).1, hvalid⟩
    exact scoped_updateRows hs.scopes Finset.inter_subset_right hchecked
  | @delete id row _ hrow =>
    exact scoped_deleteRows hs.scopes (collects_collection (by simpa using ⟨row, (onPath_eq_some.mp hrow).1⟩))
  | resequence => exact scoped_number hs.scopes

theorem Written.unique (h : Written fw db c raw) (hs : Sound db) : UniqueCategories raw := by
  cases h with
  | create _ _ _ _ hunique => exact hunique
  | update _ _ _ _ hunique => exact hunique
  | delete =>
    have hunique := uniqueCategories_iff.mp hs.unique
    refine uniqueCategories_iff.mpr fun k k' row row' hrow hrow' => ?_
    exact hunique k k' row row' ((get_deleteRows hs.plain).mp hrow).2 ((get_deleteRows hs.plain).mp hrow').2
  | resequence =>
    have hunique := uniqueCategories_iff.mp hs.unique
    refine uniqueCategories_iff.mpr fun k k' row₁ row₁' hrow₁ hrow₁' hbudget hcategory => ?_
    obtain ⟨row, hrow, hsame⟩ := number_row hrow₁
    obtain ⟨row', hrow', hsame'⟩ := number_row hrow₁'
    rw [hsame _ _ position_budget, hsame' _ _ position_budget] at hbudget
    rw [hsame _ _ position_category, hsame' _ _ position_category] at hcategory
    exact hunique k k' row row' hrow hrow' hbudget hcategory

theorem plain_updateRows (hs : Sound db) {m : Model} {pks : Finset String} {names : Finset Name}
    {values : String → ARow} (hvalues : ∀ k, (values k).many = fun _ => ∅) (m' : Model) (k : String) (row' : ARow)
    (hrow' : (accounts.updateRows db m pks names values m').get k = some row') : row'.many = fun _ => ∅ := by
  obtain ⟨row, hrow, rfl | ⟨rfl, -, rfl⟩⟩ := updateRows_cases hrow'
  · exact hs.plain m' k row' hrow
  · ext n
    simp [Schema.writeRow, hvalues, hs.plain m' k row hrow]

theorem Written.plain (h : Written fw db c raw) (hs : Sound db) :
    ∀ m k row, (raw m).get k = some row → row.many = fun _ => ∅ := by
  cases h with
  | create =>
    intro m k row hrow
    rcases insertRows_cases hrow with hold | ⟨rfl, hnew⟩
    · exact hs.plain m k row hold
    · obtain ⟨rfl, rfl⟩ := Table.get_insert_empty.mp hnew
      ext n
      simp [newRow, Schema.writeRow, Body.input]
  | update => exact plain_updateRows hs fun _ => rfl
  | delete => exact fun m k row hrow => hs.plain m k row ((get_deleteRows hs.plain).mp hrow).2
  | resequence => exact plain_updateRows hs fun _ => rfl

/-- A new record is in the budget of the path. -/
theorem newRow_budget (now : ℕ) {actor : Actor} {r : Resource} {budget : String} {body : Body} {today : ℕ}
    (hinternal : internalErrors fw actor db r.model (createFields r.model) (body.input budget) = [])
    (hvalid : validateData db today r.model (createFields r.model) (body.input budget) none = []) :
    (newRow db now r.model (body.input budget)).key .budget = some budget := by
  cases r with
  | positions => exact newRow_key (by decide) (by decide) now
  | lines =>
    obtain ⟨-, hsame | ⟨-, -, hkeyOf⟩⟩ := newRow_keys db (hasKey_budget .lines) now (body.input budget)
    · exact hsame
    · have hposition := (resolved_of_internal hinternal line_position (by decide)).1 (by decide)
      rw [hkeyOf]
      exact line_valid hvalid (by decide) hposition

/-- What the refresh makes of the tables a request wrote. -/
theorem Written.sound {db' : ADb} (h : Written fw db c raw) (hs : Sound db) (hrefreshed : Refreshed accounts raw db')
    (hconsistent : accounts.Consistent db') : Sound db' :=
  sound_refreshed (h.constraints hs) (h.scoped hs) (h.unique hs) (h.plain hs) hrefreshed hconsistent

/-! ### The unit of work of a write always ends -/

theorem create_exits (hs : Sound db) {r : Resource} {pk : String} (data : ARow) (clock : Clock)
    (hnew : (db r.model).get pk = none) : ∃ s, Budgets.create db clock r.model (Table.empty.insert pk data) = some s ∧
      Refreshed accounts (insertRows db r.model (Table.empty.insert pk (newRow db clock.now r.model data))) s.db ∧
        accounts.Consistent s.db := by
  obtain ⟨s, hexit, hconsistent⟩ : ∃ s, Budgets.create db clock r.model (Table.empty.insert pk data) = some s ∧
      accounts.Consistent s.db := create_consistent hs.consistent (new_of_insert hnew data)
  refine ⟨s, hexit, ?_, hconsistent⟩
  rw [Budgets.create, map_insert_empty] at hexit
  exact State.exit_refreshed hexit

theorem update_exits (hs : Sound db) {r : Resource} (id : String) {names : Finset Name} (data : ARow) (clock : Clock)
    (hnames : names ⊆ updateFields r.model) : ∃ s, Budgets.update db clock r.model {id} names data = some s ∧
      Refreshed accounts (accounts.updateRows db r.model {id} (written r.model names)
        fun _ => newValues db clock.now r.model data) s.db ∧ accounts.Consistent s.db := by
  obtain ⟨s, hexit, hconsistent⟩ : ∃ s, Budgets.update db clock r.model {id} names data = some s ∧
      accounts.Consistent s.db := update_consistent hs.consistent hnames data
  exact ⟨s, hexit, State.exit_refreshed hexit, hconsistent⟩

theorem delete_exits (hs : Sound db) {r : Resource} {id : String} {row : ARow}
    (hrow : (db r.model).get id = some row) :
    ∃ s, Budgets.delete db (collection db r.model {id}) r.model {id} = some s ∧
      Refreshed accounts (deleteRows accounts (collection db r.model {id}) db) s.db ∧ accounts.Consistent s.db := by
  have hcollects : Collects accounts db r.model {id} (collection db r.model {id}) :=
    collects_collection (by simpa using ⟨row, hrow⟩)
  obtain ⟨s, hexit, hconsistent⟩ := delete_consistent hs.consistent hcollects rfl
  refine ⟨s, hexit, ?_, hconsistent⟩
  rw [Budgets.delete, State.delete_eq_some rfl, Option.bind_some] at hexit
  exact State.exit_refreshed hexit

/-- **A request** is refused, or reads, and leaves the tables as they were; or it writes and refreshes them. -/
theorem serve_cases (fw : Framework) (c : Call) (hs : Sound db) : (serve fw db c).2 = db ∨
    ∃ raw, Written fw db c raw ∧ Refreshed accounts raw (serve fw db c).2 ∧
      accounts.Consistent (serve fw db c).2 := by
  cases hop : c.operation with
  | list filter => exact .inl (by rw [serve, hop])
  | retrieve id => exact .inl (by rw [serve, hop])
  | displayName ids => exact .inl (by rw [serve, hop])
  | create pk body =>
    have hserve : serve fw db c = create fw c.actor db c.resource c.budget pk body c.clock := by rw [serve, hop]
    rw [hserve]
    unfold create
    dsimp only
    split_ifs with hmissing hinternal hvalid htaken hunique hdenied
    · exact .inl rfl
    · exact .inl rfl
    · exact .inl rfl
    · exact .inl rfl
    · exact .inl rfl
    · rw [not_not] at hinternal hvalid
      have hnew : (db c.resource.model).get pk = none := Table.get_eq_none.mpr htaken
      obtain ⟨s, hexit, hrefreshed, hconsistent⟩ := create_exits hs (body.input c.budget) c.clock hnew
      rw [hexit]
      exact .inr ⟨_, .create hop hinternal hvalid hnew hunique, hrefreshed, hconsistent⟩
    · exact .inl rfl
  | update id body =>
    have hserve : serve fw db c = update fw c.actor db c.resource c.budget id body c.clock := by rw [serve, hop]
    rw [hserve]
    unfold update
    dsimp only
    cases hrow : onPath c.actor db c.resource c.budget "update" id with
    | none =>
      dsimp only
      split_ifs <;> exact .inl rfl
    | some row =>
      dsimp only
      split_ifs with hinternal hvalid hunique
      · exact .inl rfl
      · exact .inl rfl
      · rw [not_not] at hinternal hvalid
        obtain ⟨s, hexit, hrefreshed, hconsistent⟩ := update_exits hs id body.values c.clock
          (Finset.inter_subset_right : body.names ∩ updateFields c.resource.model ⊆ _)
        rw [hexit]
        exact .inr ⟨_, .update hop hinternal hrow hvalid hunique, hrefreshed, hconsistent⟩
      · exact .inl rfl
  | delete id =>
    have hserve : serve fw db c = delete c.actor db c.resource c.budget id := by rw [serve, hop]
    rw [hserve]
    unfold delete
    cases hrow : onPath c.actor db c.resource c.budget "delete" id with
    | none => exact .inl rfl
    | some row =>
      obtain ⟨s, hexit, hrefreshed, hconsistent⟩ := delete_exits hs (onPath_eq_some.mp hrow).1
      dsimp only
      rw [hexit]
      exact .inr ⟨_, .delete hop hrow, hrefreshed, hconsistent⟩
  | resequence ids offset =>
    have hserve : serve fw db c = resequence c.actor db c.resource c.budget ids offset := by rw [serve, hop]
    rw [hserve]
    unfold resequence
    dsimp only
    split_ifs with hduplicates hmissing
    · exact .inl rfl
    · exact .inl rfl
    rw [not_not] at hmissing
    obtain ⟨s, hexit, hconsistent⟩ := number_consistent hs.consistent c.resource ids offset
    rw [hexit]
    refine .inr ⟨_, .resequence hop fun k hk => ?_, State.exit_refreshed hexit, hconsistent⟩
    have hfound := List.filter_eq_nil_iff.mp hmissing k hk
    rw [Option.isNone_iff_eq_none] at hfound
    exact Option.ne_none_iff_exists'.mp hfound

/-- **Every request keeps the invariant.** -/
theorem serve_sound (fw : Framework) (c : Call) (hs : Sound db) : Sound (serve fw db c).2 := by
  rcases serve_cases fw c hs with hsame | ⟨raw, hwritten, hrefreshed, hconsistent⟩
  · rw [hsame]
    exact hs
  · exact hwritten.sound hs hrefreshed hconsistent

/-! ## What is answered -/

/-- What the answer shows is in the budget; and the request was answered. -/
def Answer.Within (budget : String) : Answer → Prop
  | .listed rows => ∀ k r, rows.get k = some r → r.row.key .budget = some budget
  | .named rows => ∀ x ∈ rows, x.2.row.key .budget = some budget
  | .record _ r => r.row.key .budget = some budget
  | .endless => False
  | _ => True

theorem row_refreshed {raw db₁ : ADb} (h : Refreshed accounts raw db₁) {m : Model} {k b : String} {row : ARow}
    (hrow : (raw m).get k = some row) (hbudget : row.key .budget = some b) :
    ∃ row', (db₁ m).get k = some row' ∧ row'.key .budget = some b := by
  obtain ⟨row', hrow', hkey, -⟩ := h.rows m k row hrow
  exact ⟨row', hrow', by rw [hkey, hbudget]⟩

theorem record_within {db₁ : ADb} {r : Resource} {k b : String}
    (h : ∃ row, (db₁ r.model).get k = some row ∧ row.key .budget = some b) :
    (((db₁ r.model).get k).elim Answer.endless fun row => .record k (render db₁ r row)).Within b := by
  obtain ⟨row, hrow, hbudget⟩ := h
  rw [hrow]
  exact hbudget

variable {actor : Actor} {r : Resource} {budget : String}

theorem create_within (fw : Framework) (hs : Sound db) (pk : String) (body : Body) (clock : Clock) :
    (create fw actor db r budget pk body clock).1.Within budget := by
  unfold create
  dsimp only
  split_ifs with hmissing hinternal hvalid htaken hunique hdenied
  · exact True.intro
  · exact True.intro
  · exact True.intro
  · exact True.intro
  · exact True.intro
  · rw [not_not] at hinternal hvalid
    obtain ⟨s, hexit, hrefreshed, -⟩ := create_exits hs (body.input budget) clock (Table.get_eq_none.mpr htaken)
    rw [hexit]
    refine record_within (row_refreshed hrefreshed ?_ (newRow_budget clock.now hinternal hvalid))
    simp [insertRows]
  · exact True.intro

theorem update_within (fw : Framework) (hs : Sound db) (id : String) (body : Body) (clock : Clock) :
    (update fw actor db r budget id body clock).1.Within budget := by
  unfold update
  dsimp only
  cases hrow : onPath actor db r budget "update" id with
  | none =>
    dsimp only
    split_ifs <;> exact True.intro
  | some row =>
    dsimp only
    split_ifs with hinternal hvalid hunique
    · exact True.intro
    · exact True.intro
    · rw [not_not] at hinternal hvalid
      obtain ⟨hget, -, hold⟩ := onPath_eq_some.mp hrow
      obtain ⟨s, hexit, hrefreshed, -⟩ := update_exits hs id body.values clock
        (Finset.inter_subset_right : body.names ∩ updateFields r.model ⊆ _)
      rw [hexit]
      refine record_within (row_refreshed hrefreshed ?_
        ((update_keys clock.now Finset.inter_subset_right hinternal hvalid).1.trans hold))
      simp [Schema.updateRows, hget]
    · exact True.intro

theorem delete_within (hs : Sound db) (id : String) : (delete actor db r budget id).1.Within budget := by
  have hanswer : (delete actor db r budget id).1 = .notFound ∨ (delete actor db r budget id).1 = .done := by
    unfold delete
    cases hrow : onPath actor db r budget "delete" id with
    | none => exact .inl rfl
    | some row =>
      obtain ⟨s, hexit, -⟩ := delete_exits hs (onPath_eq_some.mp hrow).1
      dsimp only
      rw [hexit]
      exact .inr rfl
  rcases hanswer with h | h <;> rw [h] <;> exact True.intro

theorem resequence_within (hs : Sound db) (ids : List String) (offset : ℕ) :
    (resequence actor db r budget ids offset).1.Within budget := by
  unfold resequence
  dsimp only
  split_ifs
  · exact True.intro
  · exact True.intro
  obtain ⟨s, hexit, -⟩ := number_consistent hs.consistent r ids offset
  rw [hexit]
  exact True.intro

/-- **What a request answers is in the budget of its path.** -/
theorem answer_within (fw : Framework) (c : Call) (hs : Sound db) : (serve fw db c).1.Within c.budget := by
  unfold serve
  cases c.operation with
  | list filter =>
    intro k r hr
    dsimp only [list] at hr
    rw [Table.get_map, Table.get_filter, Option.map_eq_some_iff] at hr
    obtain ⟨row, hrow, rfl⟩ := hr
    obtain ⟨hrow, hkept⟩ := Option.filter_eq_some_iff.mp hrow
    rw [Bool.and_eq_true] at hkept
    obtain ⟨row', hpath⟩ := Option.isSome_iff_exists.mp hkept.1
    obtain ⟨hrow', -, hbudget⟩ := onPath_eq_some.mp hpath
    obtain rfl := Option.some.inj (hrow.symm.trans hrow')
    exact hbudget
  | retrieve id =>
    dsimp only
    cases hpath : onPath c.actor db c.resource c.budget "read" id with
    | none => exact True.intro
    | some row => exact (onPath_eq_some.mp hpath).2.2
  | displayName ids =>
    intro x hx
    obtain ⟨k, -, hk⟩ := List.mem_filterMap.mp hx
    obtain ⟨row, hpath, rfl⟩ := Option.map_eq_some_iff.mp hk
    exact (onPath_eq_some.mp hpath).2.2
  | create pk body => exact create_within fw hs pk body c.clock
  | update id body => exact update_within fw hs id body c.clock
  | delete id => exact delete_within hs id
  | resequence ids offset => exact resequence_within hs ids offset

end Sound

end Totem.Budgets.Nested
