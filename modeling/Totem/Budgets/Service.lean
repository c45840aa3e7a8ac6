import Totem.Budgets.Models

/-!
# Totem.Budgets.Service — creations, updates and deletions, one after the other

The services of the account application (`account/services.py`), over `CreateMixin`, `UpdateMixin` and
`DeleteMixin`: each operation validates its data, writes, declares what it wrote, and refreshes the stored
fields at the exit of its unit of work, in one transaction.
-/

namespace Totem.Budgets

open Totem.Lib Totem.Computed

/-! ## The registry -/

def registry : Registry Model Name :=
  match build accounts with
  | .ok reg => reg
  | .error _ => ⟨[], fun _ => none, fun _ => none⟩

theorem build_accounts : build accounts = .ok registry := by
  obtain ⟨reg, h⟩ := accounts_build
  rw [registry, h]

/-! ## Requests -/

/-- An operation with its data, as `to_internal_values` resolves it: a creation by the primary keys it
draws, an update by the rows its filters select. -/
inductive Request
  | create (m : Model) (rows : Table String ARow)
  | update (m : Model) (pks : Finset String) (names : Finset Name) (data : ARow)
  | delete (m : Model) (pks : Finset String)

/-- The day in the timezone of the site, and the time. -/
structure Clock where
  today : ℕ
  now : ℕ

/-- The fields of the create schemas. -/
def createFields : Model → Finset Name
  | .user => ∅
  | .account => {.code, .name, .description, .active}
  | .accountCategory => {.name, .color, .account}
  | .accountMovement => {.account, .amount, .name, .description, .date, .reference, .category}
  | .budget => {.name, .user, .account, .active, .note}
  | .budgetPosition => {.budget, .sequence, .category}
  | .budgetLine => {.budget, .name, .sequence, .position, .plannedAmount}

/-- The fields of the update schemas. -/
def updateFields : Model → Finset Name
  | .user => ∅
  | .account => {.code, .name, .description, .active}
  | .accountCategory => {.name, .color}
  | .accountMovement => {.amount, .name, .description, .date, .reference, .category}
  | .budget => {.name, .user, .active, .note}
  | .budgetPosition => {.sequence, .category}
  | .budgetLine => {.name, .sequence, .position, .plannedAmount}

/-- The field `n` of the row a relation was resolved to. -/
def keyOf (db : ADb) (m : Model) (n : Name) (k : Option String) : Option String :=
  k.bind fun k => ((db m).get k).bind fun row => row.key n

/-- `validate_data`: the errors, by field.  `existing` is the row to update. -/
def validateData (db : ADb) (today : ℕ) (m : Model) (names : Finset Name) (data : ARow)
    (existing : Option ARow) : List (Name × String) :=
  let given := fun n => if n ∈ names then data.key n else none
  match m with
  | .accountMovement =>
    let category := keyOf db .accountCategory .account (given .category)
    let account := (existing.getD data).key .account
    (if .amount ∈ names ∧ data.col .amount = .amount 0 then
      [(.amount, "The amount cannot be zero.")] else []) ++
    (match data.col .date with
      | .date day => if .date ∈ names ∧ today < day then
          [(.date, "The date cannot be in the future.")] else []
      | _ => []) ++
    if category ≠ none ∧ category ≠ account then
      [(.category, "This category belongs to another account.")] else []
  | .budgetPosition =>
    let category := keyOf db .accountCategory .account (given .category)
    let account := keyOf db .budget .account ((existing.getD data).key .budget)
    if category ≠ none ∧ category ≠ account then
      [(.category, "This category belongs to another account than the budget's.")] else []
  | .budgetLine =>
    if given .position ≠ none ∧ keyOf db .budgetPosition .budget (given .position) ≠
        (existing.getD data).key .budget then
      [(.position, "This position belongs to another budget.")] else []
  | _ => []

/-! ## What is written -/

/-- The models whose `QuerySet.update` sets `update_date`. -/
def isStamped : Model → Bool
  | .account | .accountMovement | .budget => true
  | _ => false

/-- The row `bulk_create` writes: the stored fields are not computed yet, and the budget of a line is that
of its position. -/
def newRow (db : ADb) (now : ℕ) (m : Model) (data : ARow) : ARow :=
  let row := accounts.writeRow m (createFields m) data ⟨fun _ => .null, fun _ => none, fun _ => ∅⟩
  { row with
    col := fun n =>
      if isStamped m ∧ (n = .createDate ∨ n = .updateDate) then .int now else row.col n
    key := fun n =>
      if m = .budgetLine ∧ n = .budget then keyOf db .budgetPosition .budget (row.key .position)
      else row.key n }

/-- The fields `QuerySet.update` writes: some that the update does not name. -/
def written (m : Model) (names : Finset Name) : Finset Name :=
  if isStamped m then insert .updateDate names
  else if m = .budgetLine ∧ .position ∈ names then insert .budgetId names
  else names

/-- The values `QuerySet.update` writes. -/
def newValues (db : ADb) (now : ℕ) (m : Model) (data : ARow) : ARow where
  col n := if n = .updateDate then .int now else data.col n
  key n :=
    if m = .budgetLine ∧ n = .budget then keyOf db .budgetPosition .budget (data.key .position)
    else data.key n
  many := data.many

/-! ## Constraints -/

/-- The foreign keys that are not null. -/
def requiredKeys : Model → List Name
  | .accountMovement => [.account]
  | .budget => [.account]
  | .budgetPosition => [.budget, .category]
  | .budgetLine => [.position, .budget]
  | _ => []

/-- The model `m` has a foreign key `n` to `target`. -/
def HasKey (m : Model) (n : Name) (target : Model) : Prop :=
  ∃ f ∈ fields m, f.name = n ∧ f.target = some target

instance (m : Model) (n : Name) (target : Model) : Decidable (HasKey m n target) :=
  inferInstanceAs (Decidable (∃ f ∈ fields m, f.name = n ∧ f.target = some target))

/-- What the constraints of the database say of the foreign keys, and of the names of categories. -/
structure Constraints (db : ADb) : Prop where
  references : ∀ m n target, HasKey m n target → ∀ k row y, (db m).get k = some row →
    row.key n = some y → ∃ row', (db target).get y = some row'
  required : ∀ m, ∀ n ∈ requiredKeys m, ∀ k row, (db m).get k = some row → row.key n ≠ none
  named : ∀ k row, (db .accountCategory).get k = some row → row.col .name ≠ .null

theorem constraints_iff {db : ADb} : Constraints db ↔
    (∀ m ∈ accounts.models, ∀ k ∈ (db m).keys, ∀ row ∈ (db m).get k,
      (∀ f ∈ fields m, ∀ target ∈ f.target, ∀ y ∈ row.key f.name, y ∈ (db target).keys) ∧
      ∀ n ∈ requiredKeys m, row.key n ≠ none) ∧
    ∀ k ∈ (db .accountCategory).keys, ∀ row ∈ (db .accountCategory).get k, row.col .name ≠ .null := by
  constructor
  · intro h
    refine ⟨fun m _ k _ row hrow => ⟨fun f hf target htarget y hy => ?_, ?_⟩, ?_⟩
    · exact Table.mem_keys_iff.mpr (h.references m f.name target ⟨f, hf, rfl, htarget⟩ k row y hrow hy)
    · exact fun n hn => h.required m n hn k row hrow
    · exact fun k _ row hrow => h.named k row hrow
  · rintro ⟨hkeys, hnamed⟩
    refine ⟨?_, ?_, fun k row hrow => hnamed k (Table.mem_keys_of_get hrow) row hrow⟩
    · rintro m n target ⟨f, hf, rfl, htarget⟩ k row y hrow hy
      have hrows := hkeys m (accounts.mem_models m) k (Table.mem_keys_of_get hrow) row hrow
      exact Table.mem_keys_iff.mp (hrows.1 f hf target htarget y hy)
    · intro m n hn k row hrow
      exact (hkeys m (accounts.mem_models m) k (Table.mem_keys_of_get hrow) row hrow).2 n hn

instance (db : ADb) : Decidable (Constraints db) := decidable_of_iff' _ constraints_iff

/-! ## Operations -/

/-- `_create_atomic`, to the exit of its unit of work. -/
def create (db : ADb) (clock : Clock) (m : Model) (rows : Table String ARow) :
    Option (State Model Name String Value) :=
  let rows := rows.map fun _ data => newRow db clock.now m data
  let db' := insertRows db m rows
  State.exit accounts registry false ⟨db', created accounts registry db' m rows Pending.empty, 1⟩

/-- `_update_atomic`. -/
def update (db : ADb) (clock : Clock) (m : Model) (pks : Finset String) (names : Finset Name)
    (data : ARow) : Option (State Model Name String Value) :=
  let db' := accounts.updateRows db m pks (written m names) fun _ => newValues db clock.now m data
  State.exit accounts registry false
    ⟨db', declareUpdate accounts registry db db' m pks names Pending.empty, 1⟩

/-- `_delete_atomic`. -/
def delete (db : ADb) (c : Collection Model Name String) (m : Model) (pks : Finset String) :
    Option (State Model Name String Value) :=
  (State.delete accounts registry c m pks ⟨db, Pending.empty, 1⟩).bind (State.exit accounts registry false)

/-- One operation: it is refused, for any reason, and leaves the database as it was; or its data is valid,
and what it leaves satisfies the constraints. -/
inductive Serves : ADb → Request × Clock → ADb → Prop
  | refused (db : ADb) (e : Request × Clock) : Serves db e db
  | create {db : ADb} {clock : Clock} {m : Model} {rows : Table String ARow}
      {s : State Model Name String Value} (hm : m ≠ .user)
      (hnew : ∀ k ∈ rows.keys, (db m).get k = none)
      (hvalid : ∀ k data, rows.get k = some data →
        validateData db clock.today m (createFields m) data none = [])
      (hexit : create db clock m rows = some s) (hs : Constraints s.db) :
      Serves db (.create m rows, clock) s.db
  | update {db : ADb} {clock : Clock} {m : Model} {pks : Finset String} {names : Finset Name}
      {data : ARow} {s : State Model Name String Value} (hnames : names ⊆ updateFields m)
      (hvalid : ∀ k ∈ pks, ∃ row, (db m).get k = some row ∧
        validateData db clock.today m names data (some row) = [])
      (hexit : update db clock m pks names data = some s) (hs : Constraints s.db) :
      Serves db (.update m pks names data, clock) s.db
  | delete {db : ADb} {clock : Clock} {m : Model} {pks : Finset String}
      {c : Collection Model Name String} {s : State Model Name String Value} (hm : m ≠ .user)
      (hc : Collects accounts db m pks c) (hexit : delete db c m pks = some s) (hs : Constraints s.db) :
      Serves db (.delete m pks, clock) s.db

/-- The creations and the updates, as a function; `none` when they are refused. -/
def serve (db : ADb) : Request × Clock → Option ADb
  | (.create m rows, clock) =>
    if m ≠ .user ∧ (∀ k ∈ rows.keys, (db m).get k = none) ∧ ∀ k ∈ rows.keys, ∀ data ∈ rows.get k,
        validateData db clock.today m (createFields m) data none = [] then
      (create db clock m rows).bind fun s => if Constraints s.db then some s.db else none
    else none
  | (.update m pks names data, clock) =>
    if names ⊆ updateFields m ∧ ∀ k ∈ pks, ((db m).get k).any fun row =>
        decide (validateData db clock.today m names data (some row) = []) then
      (update db clock m pks names data).bind fun s => if Constraints s.db then some s.db else none
    else none
  | (.delete _ _, _) => none

theorem serves_of_serve {db db' : ADb} {e : Request × Clock} (h : serve db e = some db') :
    Serves db e db' := by
  obtain ⟨req, clock⟩ := e
  cases req with
  | create m rows =>
    unfold serve at h
    dsimp only at h
    split_ifs at h with hvalid
    obtain ⟨s, hexit, h⟩ := Option.bind_eq_some_iff.mp h
    split_ifs at h with hs
    obtain rfl := Option.some.inj h
    obtain ⟨hm, hnew, hvalid⟩ := hvalid
    exact .create hm hnew (fun k data hk => hvalid k (Table.mem_keys_of_get hk) data hk) hexit hs
  | update m pks names data =>
    unfold serve at h
    dsimp only at h
    split_ifs at h with hvalid
    obtain ⟨s, hexit, h⟩ := Option.bind_eq_some_iff.mp h
    split_ifs at h with hs
    obtain rfl := Option.some.inj h
    refine .update hvalid.1 (fun k hk => ?_) hexit hs
    obtain ⟨row, hrow, hrowvalid⟩ := (Option.any_eq_true _ _).mp (hvalid.2 k hk)
    exact ⟨row, hrow, by simpa using hrowvalid⟩
  | delete m pks => cases h

end Totem.Budgets
