import Totem.Computed.Deletion

/-!
# Totem.Budgets.Models — the models of the account application

`account/models`: accounts with their categories and movements, budgets with their positions and lines, as
an instance of `Totem.Computed.Schema`.  Amounts are in cents.

* `accounts`: fields, keys, `on_delete`, and the stored computed fields with their `depends_on`.
* `accounts_readsOnly`: the `depends_on` lists cover what the computations read.
-/

namespace Totem.Budgets

open Totem.Lib Totem.Computed

/-! ## Names -/

inductive Model
  | user
  | account
  | accountCategory
  | accountMovement
  | budget
  | budgetPosition
  | budgetLine
deriving DecidableEq, Repr

/-- The names of the fields, the attnames of the foreign keys, and the related names. -/
inductive Name
  | name | code | description | active | note | color | sequence | date | reference
  | createDate | updateDate
  | amount | plannedAmount
  | totalDebit | totalCredit | balance
  | totalPlanned | totalPractical | totalPlannedAmount | totalPracticalAmount
  | user | userId | account | accountId | category | categoryId | budget | budgetId | position | positionId
  | categories | movements | budgets | budgetPositions | positions | lines
deriving DecidableEq, Repr

/-- What a column holds. -/
inductive Value
  | null
  | amount (cents : ℤ)
  | text (s : String)
  | int (n : ℤ)
  | flag (b : Bool)
  | date (day : ℕ)
deriving DecidableEq, Repr

/-- What a column adds to a `Sum`. -/
def Value.cents : Value → ℤ
  | .amount cents => cents
  | _ => 0

/-- `F("total_credit") + F("total_debit")`. -/
def Value.add : Value → Value → Value
  | .amount a, .amount b => .amount (a + b)
  | _, _ => .null

/-! ## Fields -/

/-- Primary keys are ULIDs. -/
abbrev AField := Field Model Name String Value

abbrev ARow := Row Name String Value

abbrev ADb := Db Model Name String Value

def columns (names : List Name) : List AField := names.map fun n => ⟨n, .column⟩

def account : List AField :=
  columns [.name, .code, .description, .active, .createDate, .updateDate] ++
    [⟨.totalDebit, .computed [[.movements], [.movements, .amount]] true⟩,
      ⟨.totalCredit, .computed [[.movements], [.movements, .amount]] true⟩,
      ⟨.balance, .generated [.totalCredit, .totalDebit] [] fun
        | [.inl credit, .inl debit] => credit.add debit
        | _ => .null⟩]

def accountCategory : List AField :=
  columns [.name, .color] ++ [⟨.account, .foreignKey .account .accountId none .cascade (some .categories)⟩]

def accountMovement : List AField :=
  columns [.amount, .name, .description, .date, .reference, .createDate, .updateDate] ++
    [⟨.account, .foreignKey .account .accountId none .protect (some .movements)⟩,
      ⟨.category, .foreignKey .accountCategory .categoryId none .setNull (some .movements)⟩]

def budget : List AField :=
  columns [.name, .active, .note, .createDate, .updateDate] ++
    [⟨.user, .foreignKey .user .userId none .setNull (some .budgets)⟩,
      ⟨.account, .foreignKey .account .accountId none .protect (some .budgets)⟩,
      ⟨.totalPlannedAmount, .computed [[.positions], [.positions, .totalPlanned]] false⟩,
      ⟨.totalPracticalAmount, .computed [[.positions], [.positions, .totalPractical]] false⟩]

def budgetPosition : List AField :=
  columns [.sequence] ++
    [⟨.budget, .foreignKey .budget .budgetId none .cascade (some .positions)⟩,
      ⟨.category, .foreignKey .accountCategory .categoryId none .cascade (some .budgetPositions)⟩,
      ⟨.name, .computed [[.category], [.category, .name]] false⟩,
      ⟨.color, .computed [[.category], [.category, .color]] false⟩,
      ⟨.totalPlanned, .computed [[.lines], [.lines, .plannedAmount]] false⟩,
      ⟨.totalPractical, .computed [[.category], [.budget, .account], [.category, .movements],
        [.category, .movements, .amount], [.category, .movements, .account]] true⟩]

def budgetLine : List AField :=
  columns [.name, .sequence, .plannedAmount] ++
    [⟨.position, .foreignKey .budgetPosition .positionId none .cascade (some .lines)⟩,
      ⟨.budget, .foreignKey .budget .budgetId none .cascade (some .lines)⟩]

def fields : Model → List AField
  | .user => []
  | .account => account
  | .accountCategory => accountCategory
  | .accountMovement => accountMovement
  | .budget => budget
  | .budgetPosition => budgetPosition
  | .budgetLine => budgetLine

/-! ## What is computed -/

/-- What the rows whose key `f` is `k` add up to. -/
def sumOver (db : ADb) (model : Model) (f : Name) (g : String → ARow → ℤ) (k : String) : ℤ :=
  (db model).total fun y row => if row.key f = some k then g y row else 0

/-- The row a foreign key points to: there is one, by the constraints. -/
def foreignKey (db : ADb) (m : Model) (f : Name) (target : Model) (k : String) : Option String :=
  (((db m).get k).bind fun row => row.key f).filter fun y => decide (y ∈ (db target).keys)

/-- `_sum_movements`. -/
def sumMovements (p : ℤ → Bool) (db : ADb) (k : String) : ℤ :=
  sumOver db .accountMovement .account
    (fun _ row => if p (row.col .amount).cents then (row.col .amount).cents else 0) k

def prefetchTotalDebit (db : ADb) (k : String) : Value := .amount (sumMovements (fun x => decide (x < 0)) db k)

def prefetchTotalCredit (db : ADb) (k : String) : Value := .amount (sumMovements (fun x => decide (0 < x)) db k)

/-- A column of the category of a position. -/
def ofCategory (db : ADb) (n : Name) (k : String) : Value :=
  ((foreignKey db .budgetPosition .category .accountCategory k).bind (db .accountCategory).get).elim .null
    fun row => row.col n

/-- `Coalesce(F("category__name"), Value("#"))`. -/
def positionName (db : ADb) (k : String) : Value :=
  match ofCategory db .name k with
  | .null => .text "#"
  | v => v

/-- `Sum("lines__planned_amount")`. -/
def totalPlanned (db : ADb) (k : String) : Value :=
  .amount (sumOver db .budgetLine .position (fun _ row => (row.col .plannedAmount).cents) k)

/-- `prefetch_total_practical`: the movements of the category that are on the account of the budget. -/
def prefetchTotalPractical (db : ADb) (k : String) : Value :=
  .amount <|
    match foreignKey db .budgetPosition .category .accountCategory k,
      (foreignKey db .budgetPosition .budget .budget k).bind (foreignKey db .budget .account .account) with
    | some category, some account =>
      sumOver db .accountMovement .category (fun y row =>
        if foreignKey db .accountMovement .account .account y = some account then (row.col .amount).cents
        else 0) category
    | _, _ => 0

/-- `Sum("positions__…")`. -/
def sumPositions (n : Name) (db : ADb) (k : String) : Value :=
  .amount (sumOver db .budgetPosition .budget (fun _ row => (row.col n).cents) k)

def compute : Model → Name → ADb → String → Value
  | .account, .totalDebit => prefetchTotalDebit
  | .account, .totalCredit => prefetchTotalCredit
  | .budget, .totalPlannedAmount => sumPositions .totalPlanned
  | .budget, .totalPracticalAmount => sumPositions .totalPractical
  | .budgetPosition, .name => positionName
  | .budgetPosition, .color => fun db => ofCategory db .color
  | .budgetPosition, .totalPlanned => totalPlanned
  | .budgetPosition, .totalPractical => prefetchTotalPractical
  | _, _ => fun _ _ => .null

/-- The account application; `COMPUTED_FIELD_MAX_HOPS` is not set. -/
def accounts : Schema Model Name String Value where
  models := [.user, .account, .accountCategory, .accountMovement, .budget, .budgetPosition, .budgetLine]
  fields := fields
  maxHops := 4
  compute := compute
  equals _ _ _ _ := false
  mem_models m := by cases m <;> decide
  names_nodup m := by cases m <;> decide

/-- The registry builds. -/
theorem accounts_build : ∃ reg, build accounts = .ok reg := by
  have h : (build accounts).toBool = true := by decide +kernel
  cases hb : build accounts with
  | error e =>
    rw [hb] at h
    cases h
  | ok reg => exact ⟨reg, rfl⟩

/-! ## What the computations read -/

section Reads

variable {db db' : ADb} {m model target : Model} {f : Name} {k : String}

theorem sumOver_eq_next (g : String → ARow → ℤ) :
    sumOver db model f g k =
      ∑ y ∈ next db m (.reverse true model f) k, ((db model).get y).elim 0 (g y) := by
  have hp : ∀ row : ARow, decide (k ∈ row.related true f) = true ↔ row.key f = some k := by
    intro row
    simp [Row.related]
  calc sumOver db model f g k
      = (db model).total fun y row => if decide (k ∈ row.related true f) = true then g y row else 0 := by
        simp only [sumOver, hp]
    _ = ∑ y ∈ next db m (.reverse true model f) k, ((db model).get y).elim 0 (g y) :=
        Table.total_find _ g (db model)

theorem mem_foreignKey {y : String} :
    foreignKey db m f target k = some y ↔
      (∃ row, (db m).get k = some row ∧ row.key f = some y) ∧ ∃ row, (db target).get y = some row := by
  simp [foreignKey, Option.filter_eq_some_iff, Option.bind_eq_some_iff, Table.mem_keys_iff]

theorem mem_next_foreignKey {y : String} :
    y ∈ next db m (.forward true f target) k ↔ foreignKey db m f target k = some y := by
  rw [mem_next_forward, mem_foreignKey]
  simp [Row.related]

/-- A foreign key that leads to the same rows. -/
theorem foreignKey_congr
    (h : next db m (.forward true f target) k = next db' m (.forward true f target) k) :
    foreignKey db m f target k = foreignKey db' m f target k := by
  apply Option.ext
  intro y
  rw [← mem_next_foreignKey, ← mem_next_foreignKey, h]

/-- A sum over the rows of a relation, read the same in both databases. -/
theorem sumOver_congr {g g' : String → ARow → ℤ}
    (hnext : next db m (.reverse true model f) k = next db' m (.reverse true model f) k)
    (hrows : ∀ y ∈ next db m (.reverse true model f) k,
      ((db model).get y).elim 0 (g y) = ((db' model).get y).elim 0 (g' y)) :
    sumOver db model f g k = sumOver db' model f g' k := by
  rw [sumOver_eq_next (m := m), sumOver_eq_next (m := m), ← hnext]
  exact Finset.sum_congr rfl hrows

/-- A column of rows that are read the same. -/
theorem elim_congr {α : Type*} {o o' : Option ARow} {d : α} {v : ARow → Value} (g : Value → α)
    (h : o.map v = o'.map v) : (o.elim d fun row => g (v row)) = o'.elim d fun row => g (v row) := by
  cases o with
  | none =>
    rw [Option.map_none, eq_comm, Option.map_eq_none_iff] at h
    rw [h]
  | some row =>
    rw [Option.map_some, eq_comm, Option.map_eq_some_iff] at h
    obtain ⟨row', rfl, h⟩ := h
    rw [Option.elim_some, Option.elim_some, h]

theorem sumColumn_congr {n : Name} (g : Value → ℤ)
    (hnext : next db m (.reverse true model f) k = next db' m (.reverse true model f) k)
    (hcol : ∀ y ∈ next db m (.reverse true model f) k,
      ((db model).get y).map (fun row => row.col n) = ((db' model).get y).map fun row => row.col n) :
    sumOver db model f (fun _ row => g (row.col n)) k = sumOver db' model f (fun _ row => g (row.col n)) k :=
  sumOver_congr hnext fun y hy => elim_congr g (hcol y hy)

theorem ofCategory_congr {n : Name}
    (hnext : next db .budgetPosition (.forward true .category .accountCategory) k =
      next db' .budgetPosition (.forward true .category .accountCategory) k)
    (hcol : ∀ y ∈ next db .budgetPosition (.forward true .category .accountCategory) k,
      ((db .accountCategory).get y).map (fun row => row.col n) =
        ((db' .accountCategory).get y).map fun row => row.col n) :
    ofCategory db n k = ofCategory db' n k := by
  unfold ofCategory
  rw [← foreignKey_congr hnext]
  cases hkey : foreignKey db .budgetPosition .category .accountCategory k with
  | none => rfl
  | some y => exact elim_congr (d := .null) id (hcol y (mem_next_foreignKey.mpr hkey))

theorem prefetchTotalPractical_congr
    (h : ∀ dep ∈ [[.category], [.budget, .account], [.category, .movements],
      [.category, .movements, .amount], [.category, .movements, .account]],
      accounts.Agree db db' .budgetPosition k dep) :
    prefetchTotalPractical db k = prefetchTotalPractical db' k := by
  have hcategory := (h [.category] (by decide)).1
  obtain ⟨hbudget, haccount⟩ := h [.budget, .account] (by decide)
  obtain ⟨-, hmovements⟩ := h [.category, .movements, .amount] (by decide)
  obtain ⟨-, hmovements'⟩ := h [.category, .movements, .account] (by decide)
  unfold prefetchTotalPractical
  have haccount' : (foreignKey db .budgetPosition .budget .budget k).bind (foreignKey db .budget .account .account) =
      (foreignKey db' .budgetPosition .budget .budget k).bind (foreignKey db' .budget .account .account) := by
    rw [← foreignKey_congr hbudget]
    cases hkey : foreignKey db .budgetPosition .budget .budget k with
    | none => rfl
    | some y => exact foreignKey_congr (haccount y (mem_next_foreignKey.mpr hkey)).1
  have hcategory' : foreignKey db .budgetPosition .category .accountCategory k =
      foreignKey db' .budgetPosition .category .accountCategory k := foreignKey_congr hcategory
  rw [← hcategory', ← haccount']
  cases hcat : foreignKey db .budgetPosition .category .accountCategory k with
  | none => rfl
  | some category =>
    cases (foreignKey db .budgetPosition .budget .budget k).bind (foreignKey db .budget .account .account) with
    | none => rfl
    | some account =>
      have hmem := mem_next_foreignKey.mpr hcat
      obtain ⟨hnext, hamount⟩ := hmovements category hmem
      obtain ⟨-, hkeys⟩ := hmovements' category hmem
      refine congrArg Value.amount (sumOver_congr (m := .accountCategory) hnext fun y hy => ?_)
      have hkey : foreignKey db .accountMovement .account .account y =
          foreignKey db' .accountMovement .account .account y := foreignKey_congr (hkeys y hy).1
      rw [← hkey]
      exact elim_congr
        (fun v => if foreignKey db .accountMovement .account .account y = some account then v.cents else 0)
        (hamount y hy)

/-- The stored computed fields, one by one. -/
theorem stored_cases {P : Model → Name → List (List Name) → Prop}
    (totalDebit : P .account .totalDebit [[.movements], [.movements, .amount]])
    (totalCredit : P .account .totalCredit [[.movements], [.movements, .amount]])
    (totalPlannedAmount : P .budget .totalPlannedAmount [[.positions], [.positions, .totalPlanned]])
    (totalPracticalAmount : P .budget .totalPracticalAmount [[.positions], [.positions, .totalPractical]])
    (name : P .budgetPosition .name [[.category], [.category, .name]])
    (color : P .budgetPosition .color [[.category], [.category, .color]])
    (totalPlanned : P .budgetPosition .totalPlanned [[.lines], [.lines, .plannedAmount]])
    (totalPractical : P .budgetPosition .totalPractical [[.category], [.budget, .account],
      [.category, .movements], [.category, .movements, .amount], [.category, .movements, .account]]) :
    ∀ m n deps, (n, deps) ∈ accounts.stored m → P m n deps := by
  have hstored : ∀ m, ∀ x ∈ accounts.stored m, P m x.1 x.2 := by
    intro m
    cases m with
    | user => exact List.forall_mem_nil _
    | accountCategory => exact List.forall_mem_nil _
    | accountMovement => exact List.forall_mem_nil _
    | budgetLine => exact List.forall_mem_nil _
    | account =>
      exact List.forall_mem_cons.mpr ⟨totalDebit, List.forall_mem_singleton.mpr totalCredit⟩
    | budget =>
      exact List.forall_mem_cons.mpr ⟨totalPlannedAmount,
        List.forall_mem_singleton.mpr totalPracticalAmount⟩
    | budgetPosition =>
      exact List.forall_mem_cons.mpr ⟨name, List.forall_mem_cons.mpr ⟨color,
        List.forall_mem_cons.mpr ⟨totalPlanned, List.forall_mem_singleton.mpr totalPractical⟩⟩⟩
  intro m n deps hn
  exact hstored m (n, deps) hn

/-- **The `depends_on` lists cover what the computations read.** -/
theorem accounts_readsOnly : accounts.ReadsOnly := by
  apply stored_cases
  case totalDebit =>
    intro db db' k _ _ hagree
    obtain ⟨hnext, hcol⟩ := hagree [.movements, .amount] (by decide)
    exact congrArg Value.amount (sumColumn_congr (fun v => if decide (v.cents < 0) then v.cents else 0)
      hnext hcol)
  case totalCredit =>
    intro db db' k _ _ hagree
    obtain ⟨hnext, hcol⟩ := hagree [.movements, .amount] (by decide)
    exact congrArg Value.amount (sumColumn_congr (fun v => if decide (0 < v.cents) then v.cents else 0)
      hnext hcol)
  case totalPlannedAmount =>
    intro db db' k _ _ hagree
    obtain ⟨hnext, hcol⟩ := hagree [.positions, .totalPlanned] (by decide)
    exact congrArg Value.amount (sumColumn_congr Value.cents hnext hcol)
  case totalPracticalAmount =>
    intro db db' k _ _ hagree
    obtain ⟨hnext, hcol⟩ := hagree [.positions, .totalPractical] (by decide)
    exact congrArg Value.amount (sumColumn_congr Value.cents hnext hcol)
  case name =>
    intro db db' k _ _ hagree
    obtain ⟨hnext, hcol⟩ := hagree [.category, .name] (by decide)
    have hname : ofCategory db .name k = ofCategory db' .name k := ofCategory_congr hnext hcol
    exact congrArg (fun v => match v with | .null => Value.text "#" | v => v) hname
  case color =>
    intro db db' k _ _ hagree
    obtain ⟨hnext, hcol⟩ := hagree [.category, .color] (by decide)
    exact ofCategory_congr hnext hcol
  case totalPlanned =>
    intro db db' k _ _ hagree
    obtain ⟨hnext, hcol⟩ := hagree [.lines, .plannedAmount] (by decide)
    exact congrArg Value.amount (sumColumn_congr Value.cents hnext hcol)
  case totalPractical =>
    intro db db' k _ _ hagree
    exact prefetchTotalPractical_congr hagree

end Reads

/-! ## What a deletion rewrites -/

theorem accounts_conditions (m : Model) : ∀ f ∈ fields m, f.conditions = [] ∧ f.toField = none := by
  cases m <;> decide

theorem accounts_plainInputs : accounts.PlainInputs where
  columns m f hf n hn g hg := by
    have hinputs : ∀ f ∈ fields m, ∀ n ∈ f.inputs ++ f.conditions,
        (accounts.ownField m n).all (fun g => !g.isKey) = true := by
      cases m <;> decide
    have hall := hinputs f hf n hn
    rw [hg] at hall
    simpa using hall
  conditions m f hf n hn := by
    rw [(accounts_conditions m f hf).1] at hn
    cases hn

theorem accounts_primaryKeys : accounts.PrimaryKeys := fun m f hf => (accounts_conditions m f hf).2

/-- No generated column has conditions: every update is noticed. -/
theorem accounts_notices {m : Model} {pks : Finset String} {names : Finset Name} {db db' : ADb}
    (h : Updates accounts m pks names db db') : accounts.Notices m pks names db db' := by
  refine h.notices accounts_plainInputs ?_
  rintro root path f hends ⟨n, hn, -⟩
  rw [(accounts_conditions m f hends.mem).1] at hn
  cases hn

/-- Every refresh of a total is followed. -/
theorem accounts_follows (db : ADb) : accounts.Follows db := .of_plain accounts_plainInputs accounts_primaryKeys db

/-- No relation is hidden, and keys are only rewritten to null. -/
theorem accounts_shown : accounts.Shown where
  plain := accounts_plainInputs
  primary := accounts_primaryKeys
  queryName m := by cases m <;> decide
  newKey m f hf k := by
    have hnew : ∀ f ∈ fields m, f.newKey = none ∨ f.newKey = some none := by cases m <;> decide
    rcases hnew f hf with h | h <;> simp [h]

end Totem.Budgets
