import Totem.Budgets.Service

/-!
# Totem.Budgets.Totals — the totals after every operation

* `Totals`: what the stored columns of accounts, positions and budgets must be.
* `consistent_iff_totals`: under the constraints, that is `Schema.Consistent`.
* `Serves.consistent`: every operation keeps it, whatever it changes or cascades to.
* `totals_kept`: any sequence of operations.
-/

namespace Totem.Budgets

open Totem.Lib Totem.Computed

/-! ## The totals -/

/-- The generated column `balance`. -/
def balance (row : ARow) : Value := (row.col .totalCredit).add (row.col .totalDebit)

/-- The movements of an account in a category. -/
def sumCategory (db : ADb) (account category : String) : ℤ :=
  (db .accountMovement).total fun _ row =>
    if row.key .account = some account ∧ row.key .category = some category then (row.col .amount).cents
    else 0

structure AccountTotals (db : ADb) (k : String) (row : ARow) : Prop where
  totalDebit : row.col .totalDebit = .amount (sumMovements (fun x => decide (x < 0)) db k)
  totalCredit : row.col .totalCredit = .amount (sumMovements (fun x => decide (0 < x)) db k)
  balance : balance row = .amount (sumMovements (fun _ => true) db k)

structure PositionTotals (db : ADb) (k : String) (row : ARow) (category account : String)
    (categoryRow : ARow) : Prop where
  name : row.col .name = categoryRow.col .name
  color : row.col .color = categoryRow.col .color
  totalPlanned : row.col .totalPlanned =
    .amount (sumOver db .budgetLine .position (fun _ line => (line.col .plannedAmount).cents) k)
  totalPractical : row.col .totalPractical = .amount (sumCategory db account category)

structure BudgetTotals (db : ADb) (k : String) (row : ARow) : Prop where
  totalPlannedAmount : row.col .totalPlannedAmount =
    .amount (sumOver db .budgetPosition .budget (fun _ position => (position.col .totalPlanned).cents) k)
  totalPracticalAmount : row.col .totalPracticalAmount =
    .amount (sumOver db .budgetPosition .budget (fun _ position => (position.col .totalPractical).cents) k)

/-- The rows a position is on. -/
structure OnRows (db : ADb) (row : ARow) (category account : String) (categoryRow : ARow) : Prop where
  onCategory : row.key .category = some category
  isCategory : (db .accountCategory).get category = some categoryRow
  onBudget : ∃ budget budgetRow, row.key .budget = some budget ∧ (db .budget).get budget = some budgetRow ∧
    budgetRow.key .account = some account

/-- The totals of every account, position and budget. -/
structure Totals (db : ADb) : Prop where
  account : ∀ k row, (db .account).get k = some row → AccountTotals db k row
  position : ∀ k row, (db .budgetPosition).get k = some row →
    ∃ category account categoryRow, OnRows db row category account categoryRow ∧
      PositionTotals db k row category account categoryRow
  budget : ∀ k row, (db .budget).get k = some row → BudgetTotals db k row

/-! ## Under the constraints -/

section Constraints

variable {db : ADb} {k : String} {row : ARow}

/-- The debits and the credits are all the movements. -/
theorem sumMovements_add :
    sumMovements (fun x => decide (0 < x)) db k + sumMovements (fun x => decide (x < 0)) db k =
      sumMovements (fun _ => true) db k := by
  unfold sumMovements sumOver Table.total
  rw [← Finset.sum_add_distrib]
  apply Finset.sum_congr rfl
  intro y _
  cases (db .accountMovement).get y with
  | none => rfl
  | some movement =>
    simp only [Option.elim_some, decide_eq_true_eq, if_true]
    split
    · rcases lt_trichotomy (movement.col .amount).cents 0 with h | h | h
      · simp [h, not_lt.mpr h.le]
      · simp [h]
      · simp [h, not_lt.mpr h.le]
    · rfl

theorem Constraints.foreignKey_eq (h : Constraints db) {m target : Model} {n : Name}
    (hkey : HasKey m n target) (hrow : (db m).get k = some row) :
    foreignKey db m n target k = row.key n := by
  apply Option.ext
  intro y
  rw [mem_foreignKey]
  constructor
  · rintro ⟨⟨row', hrow', hy⟩, -⟩
    obtain rfl := Option.some.inj (hrow.symm.trans hrow')
    exact hy
  · intro hy
    exact ⟨⟨row, hrow, hy⟩, h.references m n target hkey k row y hrow hy⟩

/-- The row a required key points to. -/
theorem Constraints.exists_row (h : Constraints db) {m target : Model} {n : Name}
    (hkey : HasKey m n target) (hn : n ∈ requiredKeys m) (hrow : (db m).get k = some row) :
    ∃ y row', row.key n = some y ∧ (db target).get y = some row' := by
  obtain ⟨y, hy⟩ := Option.ne_none_iff_exists'.mp (h.required m n hn k row hrow)
  obtain ⟨row', hrow'⟩ := h.references m n target hkey k row y hrow hy
  exact ⟨y, row', hy, hrow'⟩

/-- The movements of a category on an account, by their keys. -/
theorem Constraints.sumOver_category (h : Constraints db) (account category : String) :
    sumOver db .accountMovement .category (fun y row =>
      if foreignKey db .accountMovement .account .account y = some account then (row.col .amount).cents
      else 0) category = sumCategory db account category := by
  apply Table.total_congr
  intro y
  cases hy : (db .accountMovement).get y with
  | none => rfl
  | some movement =>
    have hkey : foreignKey db .accountMovement .account .account y = movement.key .account :=
      h.foreignKey_eq (by decide) hy
    by_cases hc : movement.key .category = some category <;> simp [hkey, hc]

theorem Constraints.onRows (h : Constraints db) (hrow : (db .budgetPosition).get k = some row) :
    ∃ category account categoryRow, OnRows db row category account categoryRow := by
  obtain ⟨category, categoryRow, hcategory, hcategoryRow⟩ :=
    h.exists_row (by decide : HasKey .budgetPosition .category .accountCategory) (by decide) hrow
  obtain ⟨budget, budgetRow, hbudget, hbudgetRow⟩ :=
    h.exists_row (by decide : HasKey .budgetPosition .budget .budget) (by decide) hrow
  obtain ⟨account, -, haccount, -⟩ :=
    h.exists_row (by decide : HasKey .budget .account .account) (by decide) hbudgetRow
  exact ⟨category, account, categoryRow, hcategory, hcategoryRow, budget, budgetRow, hbudget, hbudgetRow,
    haccount⟩

section Position

variable {category account : String} {categoryRow : ARow}

theorem ofCategory_eq (h : Constraints db) (hrow : (db .budgetPosition).get k = some row)
    (hon : OnRows db row category account categoryRow) (n : Name) :
    ofCategory db n k = categoryRow.col n := by
  have hkey : foreignKey db .budgetPosition .category .accountCategory k = some category := by
    rw [h.foreignKey_eq (by decide) hrow, hon.onCategory]
  simp [ofCategory, hkey, hon.isCategory]

theorem positionName_eq (h : Constraints db) (hrow : (db .budgetPosition).get k = some row)
    (hon : OnRows db row category account categoryRow) : positionName db k = categoryRow.col .name := by
  unfold positionName
  rw [ofCategory_eq h hrow hon]
  split
  · rename_i hnull
    exact absurd hnull (h.named category categoryRow hon.isCategory)
  · rfl

theorem prefetchTotalPractical_eq (h : Constraints db) (hrow : (db .budgetPosition).get k = some row)
    (hon : OnRows db row category account categoryRow) :
    prefetchTotalPractical db k = .amount (sumCategory db account category) := by
  obtain ⟨budget, budgetRow, hbudget, hbudgetRow, haccount⟩ := hon.onBudget
  have hcategory : foreignKey db .budgetPosition .category .accountCategory k = some category := by
    rw [h.foreignKey_eq (by decide) hrow, hon.onCategory]
  have hbudget' : foreignKey db .budgetPosition .budget .budget k = some budget := by
    rw [h.foreignKey_eq (by decide) hrow, hbudget]
  have haccount' : foreignKey db .budget .account .account budget = some account := by
    rw [h.foreignKey_eq (by decide) hbudgetRow, haccount]
  unfold prefetchTotalPractical
  rw [hcategory, hbudget', Option.bind_some, haccount']
  exact congrArg Value.amount (h.sumOver_category account category)

end Position

/-- **Under the constraints**, the stored fields are the totals. -/
theorem consistent_iff_totals (h : Constraints db) : accounts.Consistent db ↔ Totals db := by
  constructor
  · intro hc
    constructor
    · intro k row hrow
      have hdebit : row.col .totalDebit = prefetchTotalDebit db k :=
        hc .account .totalDebit _ List.mem_cons_self k row hrow
      have hcredit : row.col .totalCredit = prefetchTotalCredit db k :=
        hc .account .totalCredit _ (List.mem_cons_of_mem _ List.mem_cons_self) k row hrow
      refine ⟨hdebit, hcredit, ?_⟩
      rw [balance, hdebit, hcredit]
      exact congrArg Value.amount sumMovements_add
    · intro k row hrow
      obtain ⟨category, account, categoryRow, hon⟩ := h.onRows hrow
      refine ⟨category, account, categoryRow, hon, ?_, ?_, ?_, ?_⟩
      · rw [← positionName_eq h hrow hon]
        exact hc .budgetPosition .name [[.category], [.category, .name]] (by decide) k row hrow
      · rw [← ofCategory_eq h hrow hon]
        exact hc .budgetPosition .color [[.category], [.category, .color]] (by decide) k row hrow
      · exact hc .budgetPosition .totalPlanned [[.lines], [.lines, .plannedAmount]] (by decide) k row hrow
      · rw [← prefetchTotalPractical_eq h hrow hon]
        exact hc .budgetPosition .totalPractical [[.category], [.budget, .account], [.category, .movements],
          [.category, .movements, .amount], [.category, .movements, .account]] (by decide) k row hrow
    · intro k row hrow
      exact ⟨hc .budget .totalPlannedAmount _ List.mem_cons_self k row hrow,
        hc .budget .totalPracticalAmount _ (List.mem_cons_of_mem _ List.mem_cons_self) k row hrow⟩
  · intro ht
    apply stored_cases
    case totalDebit => exact fun k row hrow => (ht.account k row hrow).totalDebit
    case totalCredit => exact fun k row hrow => (ht.account k row hrow).totalCredit
    case totalPlannedAmount => exact fun k row hrow => (ht.budget k row hrow).totalPlannedAmount
    case totalPracticalAmount => exact fun k row hrow => (ht.budget k row hrow).totalPracticalAmount
    case name =>
      intro k row hrow
      obtain ⟨category, account, categoryRow, hon, hp⟩ := ht.position k row hrow
      exact hp.name.trans (positionName_eq h hrow hon).symm
    case color =>
      intro k row hrow
      obtain ⟨category, account, categoryRow, hon, hp⟩ := ht.position k row hrow
      exact hp.color.trans (ofCategory_eq h hrow hon .color).symm
    case totalPlanned =>
      intro k row hrow
      obtain ⟨category, account, categoryRow, hon, hp⟩ := ht.position k row hrow
      exact hp.totalPlanned
    case totalPractical =>
      intro k row hrow
      obtain ⟨category, account, categoryRow, hon, hp⟩ := ht.position k row hrow
      exact hp.totalPractical.trans (prefetchTotalPractical_eq h hrow hon).symm

end Constraints

/-! ## One operation -/

section Operation

variable {db db' : ADb} {clock : Clock} {m : Model} {pks : Finset String} {names : Finset Name}

/-- A `QuerySet.update` names everything it writes, dates and the budgets of lines apart. -/
theorem mem_written {n : Name} (hn : n ∈ written m names) :
    n ∈ names ∨ n = .updateDate ∨ m = .budgetLine ∧ n = .budgetId := by
  unfold written at hn
  split_ifs at hn with hstamped hline
  · rcases Finset.mem_insert.mp hn with rfl | hn
    · exact .inr (.inl rfl)
    · exact .inl hn
  · rcases Finset.mem_insert.mp hn with rfl | hn
    · exact .inr (.inr ⟨hline.1, rfl⟩)
    · exact .inl hn
  · exact .inl hn

theorem written_mono {names' : Finset Name} (h : names ⊆ names') : written m names ⊆ written m names' := by
  unfold written
  split_ifs with hstamped hline hline' hline'
  · exact Finset.insert_subset_insert _ h
  · exact Finset.insert_subset_insert _ h
  · exact absurd ⟨hline.1, h hline.2⟩ hline'
  · exact h.trans (Finset.subset_insert _ _)
  · exact h

/-- No stored field is written by an update. -/
theorem written_writable (hnames : names ⊆ updateFields m) : accounts.Writable m (written m names) := by
  have hfields : ∀ m, ∀ n ∈ written m (updateFields m), accounts.isStored m n = false := by
    intro m
    cases m <;> decide
  exact fun n hn => hfields m n (written_mono hnames hn)

/-- Nothing reads what an update writes without naming it. -/
theorem written_declared : Declared registry m (written m names) names := by
  have hdate : ∀ b ∈ registry.bindings, .updateDate ∉ b.triggers := by decide +kernel
  have hbudget : ∀ b ∈ registry.bindings, b.watched = .budgetLine → .budgetId ∉ b.triggers := by
    decide +kernel
  intro b hb hm n htr hn
  rcases mem_written hn with hn | rfl | ⟨rfl, rfl⟩
  · exact hn
  · exact absurd htr (hdate b hb)
  · exact absurd htr (hbudget b hb hm)

theorem create_consistent (hc : accounts.Consistent db) {rows : Table String ARow}
    (hnew : ∀ k ∈ rows.keys, (db m).get k = none) :
    ∃ s, create db clock m rows = some s ∧ accounts.Consistent s.db := by
  have hnew' : ∀ k ∈ (rows.map fun _ data => newRow db clock.now m data).keys, (db m).get k = none := hnew
  have hcreate := (hc.but Pending.empty).create accounts_readsOnly accounts_primaryKeys build_accounts hnew'
  obtain ⟨s, hs, -, hcons⟩ := exit_consistent accounts_readsOnly.stored build_accounts (accounts_follows _) hcreate
  exact ⟨s, hs, hcons⟩

theorem update_consistent (hc : accounts.Consistent db) (hnames : names ⊆ updateFields m) (data : ARow) :
    ∃ s, update db clock m pks names data = some s ∧ accounts.Consistent s.db := by
  have hupdates : Updates accounts m pks (written m names) db
      (accounts.updateRows db m pks (written m names) fun _ => newValues db clock.now m data) :=
    updates_updateRows
  have hupdate := (hc.but Pending.empty).update accounts_readsOnly accounts_primaryKeys build_accounts
    hupdates (accounts_notices hupdates) (written_writable hnames) written_declared
  obtain ⟨s, hs, -, hcons⟩ := exit_consistent accounts_readsOnly.stored build_accounts (accounts_follows _) hupdate
  exact ⟨s, hs, hcons⟩

/-- A deletion that no key protects from. -/
theorem delete_consistent (hc : accounts.Consistent db) {c : Collection Model Name String}
    (hcollects : Collects accounts db m pks c) (hprotected : c.isProtected = false) :
    ∃ s, delete db c m pks = some s ∧ accounts.Consistent s.db := by
  have hdelete := hc.delete accounts_readsOnly
    ((queues_iff_inSight build_accounts hcollects).mpr (inSight_of_shown accounts_shown hcollects))
  obtain ⟨s, hs, -, hcons⟩ := exit_consistent accounts_readsOnly.stored build_accounts (accounts_follows _) hdelete
  refine ⟨s, ?_, hcons⟩
  rw [Budgets.delete, State.delete_eq_some hprotected, Option.bind_some, hs]

/-- **One operation.** -/
theorem Serves.consistent {e : Request × Clock} (h : Serves db e db') (hc : accounts.Consistent db) :
    accounts.Consistent db' := by
  cases h with
  | refused => exact hc
  | create hm hnew hvalid hexit hs =>
    obtain ⟨s, hs, hcons⟩ := create_consistent hc hnew
    obtain rfl := Option.some.inj (hexit.symm.trans hs)
    exact hcons
  | update hnames hvalid hexit hs =>
    obtain ⟨s, hs, hcons⟩ := update_consistent hc hnames _
    obtain rfl := Option.some.inj (hexit.symm.trans hs)
    exact hcons
  | @delete clock m pks c s hm hcollects hexit hs =>
    have hprotected : c.isProtected = false := by
      by_contra h
      rw [Budgets.delete, State.delete, if_pos (by simpa using h)] at hexit
      cases hexit
    obtain ⟨s, hs, hcons⟩ := delete_consistent hc hcollects hprotected
    obtain rfl := Option.some.inj (hexit.symm.trans hs)
    exact hcons

theorem Serves.constraints {e : Request × Clock} (h : Serves db e db') (hk : Constraints db) :
    Constraints db' := by
  cases h with
  | refused => exact hk
  | create _ _ _ _ hs => exact hs
  | update _ _ _ hs => exact hs
  | delete _ _ _ hs => exact hs

/-- **The totals after any sequence of operations.** -/
theorem totals_kept {es : List (Request × Clock)} (hk : Constraints db) (ht : Totals db)
    (hr : Run Serves db es db') : Constraints db' ∧ Totals db' := by
  have hstep : ∀ db e db', Constraints db ∧ accounts.Consistent db → Serves db e db' →
      Constraints db' ∧ accounts.Consistent db' :=
    fun db e db' hdb h => ⟨h.constraints hdb.1, h.consistent hdb.2⟩
  obtain ⟨hk', hc'⟩ := hr.invariant hstep ⟨hk, (consistent_iff_totals hk).mpr ht⟩
  exact ⟨hk', (consistent_iff_totals hk').mp hc'⟩

end Operation

/-! ### An account and its budget -/

section Sample

/-- A row of amounts, a name and foreign keys. -/
def sampleRow (name : String) (amount : Value) (keys : List (Name × String)) : ARow where
  col n := if n = .name then .text name else if n = .amount ∨ n = .plannedAmount then amount else .null
  key n := (keys.find? fun x => decide (x.1 = n)).map Prod.snd
  many _ := ∅

/-- An account with a category, a budget of one position and one line, and a movement, corrected later. -/
def sampleRequests : List (Request × Clock) :=
  [.create .account (Table.empty.insert "A" (sampleRow "Main" .null [])),
    .create .accountCategory (Table.empty.insert "C" (sampleRow "Food" .null [(.account, "A")])),
    .create .budget (Table.empty.insert "B" (sampleRow "Year" .null [(.account, "A")])),
    .create .budgetPosition (Table.empty.insert "P"
      (sampleRow "" .null [(.budget, "B"), (.category, "C")])),
    .create .budgetLine (Table.empty.insert "L"
      (sampleRow "Bread" (.amount (-700)) [(.budget, "B"), (.position, "P")])),
    .create .accountMovement (Table.empty.insert "M"
      (sampleRow "Baker" (.amount (-500)) [(.account, "A"), (.category, "C")])),
    .update .accountMovement {"M"} {.amount} (sampleRow "" (.amount (-450)) [])].map (·, ⟨10, 10⟩)

theorem constraints_empty : Constraints fun _ => .empty := by decide

theorem totals_empty : Totals fun _ => .empty where
  account := by simp
  position := by simp
  budget := by simp

/-- The operations of the sample are served: the movement counts as it was corrected. -/
theorem sampleRequests_run : ∃ db, Run Serves (fun _ => .empty) sampleRequests db ∧
    ((db .account).get "A").map (fun row => row.col .totalDebit) = some (.amount (-450)) ∧
      ((db .budgetPosition).get "P").map (fun row => (row.col .totalPlanned, row.col .totalPractical)) =
        some (.amount (-700), .amount (-450)) ∧
      (((db .accountMovement).get "M").isSome ∧ ((db .budgetLine).get "L").isSome) := by
  have hserved : (sampleRequests.foldlM serve fun _ => .empty).any (fun db => decide
      (((db .account).get "A").map (fun row => row.col .totalDebit) = some (.amount (-450)) ∧
        ((db .budgetPosition).get "P").map (fun row => (row.col .totalPlanned, row.col .totalPractical)) =
          some (.amount (-700), .amount (-450)) ∧
        (((db .accountMovement).get "M").isSome ∧ ((db .budgetLine).get "L").isSome))) = true := by
    decide +kernel
  obtain ⟨db, hdb, hrows⟩ := (Option.any_eq_true ..).mp hserved
  exact ⟨db, (Run.of_foldlM hdb).mono fun _ _ _ h => serves_of_serve h, of_decide_eq_true hrows⟩

theorem totals_kept_sample : ∃ db, Run Serves (fun _ => .empty) sampleRequests db ∧ Totals db ∧
    ((db .account).get "A").map (fun row => row.col .totalDebit) = some (.amount (-450)) ∧
      ((db .budgetPosition).get "P").map (fun row => (row.col .totalPlanned, row.col .totalPractical)) =
        some (.amount (-700), .amount (-450)) := by
  obtain ⟨db, hr, haccount, hposition, -⟩ := sampleRequests_run
  exact ⟨db, hr, (totals_kept constraints_empty totals_empty hr).2, haccount, hposition⟩

end Sample

end Totem.Budgets
