import Totem.Budgets.Nested

/-!
# Totem.Budgets.Isolation — the requests of a budget, among those of the others

The routes nested under a budget, in any order: what a budget holds and what its requests answer are what they would
be without the requests of the other budgets.

* `view`: the tables without what is in another budget.
* `view_eq_of_agrees`: computed columns of the budget apart, there is nothing more in it.
* `Acts`: what a request writes, row by row; `Acts.frame`, `Acts.congr`.
* `requests_isolated`: every run.
-/

namespace Totem.Budgets.Nested

open Totem.Lib Totem.Computed
open Totem.Services (Rule Environment applyAccessRules)

/-! ## The tables of a budget -/

section View

/-- The models whose rows are in a budget. -/
def isNested (m : Model) : Bool := decide (m = .budgetPosition ∨ m = .budgetLine)

/-- The row is not in a budget, or it is in this one. -/
def visible (budget : String) (m : Model) (k : String) (row : ARow) : Bool :=
  if isNested m then decide (row.key .budget = some budget) else decide (m = .budget → k = budget)

/-- The tables without the other budgets, their positions and their lines. -/
def view (budget : String) (db : ADb) : ADb := fun m => (db m).filter (visible budget m)

variable {budget b : String} {db db' : ADb} {m : Model} {k : String} {row row' : ARow}

theorem get_view : (view b db m).get k = some row ↔ (db m).get k = some row ∧ visible b m k row = true := by
  rw [view, Table.get_filter, Option.filter_eq_some_iff]

theorem view_eq_iff : view b db = view b db' ↔
    ∀ m k row, visible b m k row = true → ((db m).get k = some row ↔ (db' m).get k = some row) := by
  constructor
  · intro h m k row hvisible
    have hrow : (view b db m).get k = some row ↔ (db m).get k = some row ∧ visible b m k row = true := get_view
    rw [h, get_view] at hrow
    simpa [hvisible] using hrow.symm
  · intro h
    funext m
    ext1 k
    refine Option.ext fun row => ?_
    rw [get_view, get_view]
    exact and_congr_left fun hvisible => h m k row hvisible

theorem isNested_model (r : Resource) : isNested r.model = true := by
  cases r <;> decide

theorem visible_nested (hm : isNested m = true) : visible b m k row = true ↔ row.key .budget = some b := by
  rw [visible, if_pos hm, decide_eq_true_eq]

theorem visible_of_not_nested (hm : isNested m = false) : visible b m k row = true ↔ (m = .budget → k = b) := by
  rw [visible, if_neg (by rw [hm]; exact Bool.false_ne_true), decide_eq_true_eq]

theorem visible_congr (hkey : row'.key = row.key) : visible b m k row' = visible b m k row := by
  unfold visible
  rw [hkey]

/-- What the computed columns are computed from. -/
structure SameBare (m : Model) (row row' : ARow) : Prop where
  key : row'.key = row.key
  many : row'.many = row.many
  col : ∀ n, accounts.isStored m n = false → row'.col n = row.col n

/-- What is in the budget is in the other tables, computed columns apart. -/
def Agrees (b : String) (db db' : ADb) : Prop :=
  ∀ m k row, (db m).get k = some row → visible b m k row = true →
    ∃ row', (db' m).get k = some row' ∧ SameBare m row row'

theorem SameBare.symm (h : SameBare m row row') : SameBare m row' row :=
  ⟨h.key.symm, h.many.symm, fun n hn => (h.col n hn).symm⟩

theorem SameBare.eq (h : SameBare m row row') (hm : ∀ n, accounts.isStored m n = true → row'.col n = row.col n) :
    row' = row := by
  obtain ⟨col, key, many⟩ := row
  obtain ⟨col', key', many'⟩ := row'
  obtain ⟨rfl, rfl, hcol⟩ := h
  have hsame : col' = col := by
    funext n
    cases hn : accounts.isStored m n with
    | true => exact hm n hn
    | false => exact hcol n hn
  rw [hsame]

theorem SameBare.eq_of_unstored (h : SameBare m row row') (hm : ∀ x ∈ accounts.stored m, False) : row' = row :=
  h.eq fun n hn => by
    obtain ⟨deps, hdeps⟩ := Schema.isStored_iff.mp hn
    exact absurd hdeps (hm _)

end View

/-! ## Computed columns -/

section Computed

variable {b : String} {db db' : ADb} {m : Model} {k : String} {row : ARow}

/-- Rows without computed columns are the same. -/
theorem Agrees.get_eq (h : Agrees b db db') (hm : ∀ x ∈ accounts.stored m, False) (hrow : (db m).get k = some row)
    (hvisible : visible b m k row = true) : (db' m).get k = some row := by
  obtain ⟨row', hrow', hbare⟩ := h m k row hrow hvisible
  rw [hrow', hbare.eq_of_unstored hm]

/-- Tables that are in no budget, and have no computed columns, are the same. -/
theorem Agrees.table_eq (h : Agrees b db db') (h' : Agrees b db' db) (hm : ∀ x ∈ accounts.stored m, False)
    (hshared : ∀ k row, visible b m k row = true) : db m = db' m := by
  ext1 k
  refine Option.ext fun row => ⟨fun hrow => ?_, fun hrow => ?_⟩
  · exact h.get_eq hm hrow (hshared k row)
  · exact h'.get_eq hm hrow (hshared k row)

/-- Sums over rows of the budget. -/
theorem total_of_visible (h : ∀ k row, (db m).get k = some row → visible b m k row = true → (db' m).get k = some row)
    (h' : ∀ k row, (db' m).get k = some row → visible b m k row = true → (db m).get k = some row)
    {f : String → ARow → ℤ} (hf : ∀ k row, (db m).get k = some row → visible b m k row = false → f k row = 0)
    (hf' : ∀ k row, (db' m).get k = some row → visible b m k row = false → f k row = 0) :
    (db m).total f = (db' m).total f := by
  refine Table.total_congr fun k => ?_
  cases hrow : (db m).get k with
  | none =>
    cases hrow' : (db' m).get k with
    | none => rfl
    | some row' =>
      cases hvisible : visible b m k row' with
      | true =>
        rw [h' k row' hrow' hvisible] at hrow
        cases hrow
      | false => exact (hf' k row' hrow' hvisible).symm
  | some row =>
    cases hvisible : visible b m k row with
    | true => rw [h k row hrow hvisible]
    | false =>
      rw [Option.elim_some, hf k row hrow hvisible]
      cases hrow' : (db' m).get k with
      | none => rfl
      | some row' =>
        cases hvisible' : visible b m k row' with
        | true =>
          rw [h' k row' hrow' hvisible'] at hrow
          obtain rfl := Option.some.inj hrow
          rw [hvisible] at hvisible'
          cases hvisible'
        | false => exact (hf' k row' hrow' hvisible').symm

theorem Sound.totals (hs : Sound db) : Totals db := (consistent_iff_totals hs.constraints).mp hs.consistent

theorem line_visible (hs : Sound db) {position : ARow} (hposition : (db .budgetPosition).get k = some position)
    (hbudget : position.key .budget = some b) {y : String} (hrow : (db .budgetLine).get y = some row)
    (hkey : row.key .position = some k) : visible b .budgetLine y row = true := by
  rw [visible_nested rfl, hs.scopes.line y row hrow, hkey]
  simp only [keyOf, Option.bind_some, hposition, hbudget]

/-- The budget of an account and a category, in both tables. -/
theorem position_eq (hs : Sound db) (hs' : Sound db') (h : Agrees b db db') (h' : Agrees b db' db)
    (hrow : (db .budgetPosition).get k = some row) (hvisible : visible b .budgetPosition k row = true) :
    (db' .budgetPosition).get k = some row := by
  obtain ⟨row', hrow', hbare⟩ := h _ k row hrow hvisible
  have hbudget := (visible_nested rfl).mp hvisible
  obtain ⟨category, account, categoryRow, hon, htotals⟩ := hs.totals.position k row hrow
  obtain ⟨category', account', categoryRow', hon', htotals'⟩ := hs'.totals.position k row' hrow'
  have hmovements : db .accountMovement = db' .accountMovement :=
    h.table_eq h' (by decide) fun k row => by rw [visible_of_not_nested rfl]; exact nofun
  -- the category and the account are those of the same keys
  obtain rfl : category' = category := by
    have hkey := hon'.onCategory
    rw [hbare.key, hon.onCategory] at hkey
    exact (Option.some.inj hkey).symm
  obtain rfl : categoryRow' = categoryRow := by
    have hsame := h.get_eq (by decide) hon.isCategory ((visible_of_not_nested rfl).mpr nofun)
    exact Option.some.inj (hon'.isCategory.symm.trans hsame)
  obtain rfl : account' = account := by
    obtain ⟨c, budgetRow, hc, hbudgetRow, haccount⟩ := hon.onBudget
    obtain ⟨c', budgetRow', hc', hbudgetRow', haccount'⟩ := hon'.onBudget
    obtain rfl := Option.some.inj (hbudget.symm.trans hc)
    rw [hbare.key] at hc'
    obtain rfl := Option.some.inj (hbudget.symm.trans hc')
    obtain ⟨budgetRow₁, hbudgetRow₁, hsame⟩ := h _ _ _ hbudgetRow ((visible_of_not_nested rfl).mpr fun _ => rfl)
    obtain rfl := Option.some.inj (hbudgetRow'.symm.trans hbudgetRow₁)
    rw [hsame.key, haccount] at haccount'
    exact (Option.some.inj haccount').symm
  have hplanned : row'.col .totalPlanned = row.col .totalPlanned := by
    rw [htotals.totalPlanned, htotals'.totalPlanned]
    congr 1
    refine (total_of_visible (fun y line => h.get_eq (by decide)) (fun y line => h'.get_eq (by decide)) ?_ ?_).symm
    · intro y line hline hnot
      refine if_neg fun hkey => ?_
      rw [line_visible hs hrow hbudget hline hkey] at hnot
      cases hnot
    · intro y line hline hnot
      refine if_neg fun hkey => ?_
      rw [line_visible hs' hrow' (by rw [hbare.key, hbudget]) hline hkey] at hnot
      cases hnot
  have hpractical : row'.col .totalPractical = row.col .totalPractical := by
    rw [htotals.totalPractical, htotals'.totalPractical, sumCategory, sumCategory, hmovements]
  have hstored : ∀ n, accounts.isStored .budgetPosition n = true →
      n = .name ∨ n = .color ∨ n = .totalPlanned ∨ n = .totalPractical := by
    intro n
    cases n <;> decide
  rw [hrow', hbare.eq fun n hn => ?_]
  rcases hstored n hn with rfl | rfl | rfl | rfl
  · rw [htotals.name, htotals'.name]
  · rw [htotals.color, htotals'.color]
  · exact hplanned
  · exact hpractical

theorem get_eq_of_agrees (hs : Sound db) (hs' : Sound db') (h : Agrees b db db') (h' : Agrees b db' db)
    (hrow : (db m).get k = some row) (hvisible : visible b m k row = true) : (db' m).get k = some row := by
  cases m with
  | user => exact h.get_eq (by decide) hrow hvisible
  | accountCategory => exact h.get_eq (by decide) hrow hvisible
  | accountMovement => exact h.get_eq (by decide) hrow hvisible
  | budgetLine => exact h.get_eq (by decide) hrow hvisible
  | budgetPosition => exact position_eq hs hs' h h' hrow hvisible
  | account =>
    obtain ⟨row', hrow', hbare⟩ := h _ k row hrow hvisible
    have hmovements : db .accountMovement = db' .accountMovement :=
      h.table_eq h' (by decide) fun k row => by rw [visible_of_not_nested rfl]; exact nofun
    have htotals := hs.totals.account k row hrow
    have htotals' := hs'.totals.account k row' hrow'
    have hstored : ∀ n, accounts.isStored .account n = true → n = .totalDebit ∨ n = .totalCredit := by
      intro n
      cases n <;> decide
    rw [hrow', hbare.eq fun n hn => ?_]
    rcases hstored n hn with rfl | rfl
    · rw [htotals.totalDebit, htotals'.totalDebit, sumMovements, sumMovements, sumOver, sumOver, hmovements]
    · rw [htotals.totalCredit, htotals'.totalCredit, sumMovements, sumMovements, sumOver, sumOver, hmovements]
  | budget =>
    obtain ⟨row', hrow', hbare⟩ := h _ k row hrow hvisible
    obtain rfl := (visible_of_not_nested rfl).mp hvisible rfl
    have htotals := hs.totals.budget k row hrow
    have htotals' := hs'.totals.budget k row' hrow'
    have hsums : ∀ g : ARow → ℤ, sumOver db .budgetPosition .budget (fun _ position => g position) k
        = sumOver db' .budgetPosition .budget (fun _ position => g position) k := by
      intro g
      refine total_of_visible (fun y position => position_eq hs hs' h h')
        (fun y position => position_eq hs' hs h' h) ?_ ?_
      · intro y position _ hnot
        refine if_neg fun hkey => ?_
        rw [(visible_nested rfl).mpr hkey] at hnot
        cases hnot
      · intro y position _ hnot
        refine if_neg fun hkey => ?_
        rw [(visible_nested rfl).mpr hkey] at hnot
        cases hnot
    have hstored : ∀ n, accounts.isStored .budget n = true → n = .totalPlannedAmount ∨ n = .totalPracticalAmount := by
      intro n
      cases n <;> decide
    rw [hrow', hbare.eq fun n hn => ?_]
    rcases hstored n hn with rfl | rfl
    · rw [htotals.totalPlannedAmount, htotals'.totalPlannedAmount, hsums]
    · rw [htotals.totalPracticalAmount, htotals'.totalPracticalAmount, hsums]

/-- **Computed columns of a budget are computed from what is in it**, and from what is in none. -/
theorem view_eq_of_agrees (hs : Sound db) (hs' : Sound db') (h : Agrees b db db') (h' : Agrees b db' db) :
    view b db = view b db' :=
  view_eq_iff.mpr fun _ _ _ hvisible => ⟨fun hrow => get_eq_of_agrees hs hs' h h' hrow hvisible,
    fun hrow => get_eq_of_agrees hs' hs h' h hrow hvisible⟩

theorem agrees_refreshed {raw raw' : ADb} (h : view b raw = view b raw') (hdb : Refreshed accounts raw db)
    (hdb' : Refreshed accounts raw' db') : Agrees b db db' := by
  intro m k row hrow hvisible
  obtain ⟨row₀, hrow₀, hkey, hmany, hcol⟩ := hdb.row_of hrow
  rw [visible_congr hkey] at hvisible
  obtain ⟨row', hrow', hkey', hmany', hcol'⟩ := hdb'.rows m k row₀ ((view_eq_iff.mp h m k row₀ hvisible).mp hrow₀)
  exact ⟨row', hrow', hkey'.trans hkey.symm, hmany'.trans hmany.symm,
    fun n hn => (hcol' n hn).trans (hcol n hn).symm⟩

/-- The refresh of tables that agree on a budget. -/
theorem view_refreshed {raw raw' : ADb} (hs : Sound db) (hs' : Sound db') (h : view b raw = view b raw')
    (hdb : Refreshed accounts raw db) (hdb' : Refreshed accounts raw' db') : view b db = view b db' :=
  view_eq_of_agrees hs hs' (agrees_refreshed h hdb hdb') (agrees_refreshed h.symm hdb' hdb)

end Computed

/-! ## What a request writes, row by row -/

section Acts

/-- The rows are rewritten one by one by `f`: it leaves alone what is not in the budget, and what it writes is in
it. -/
structure Acts (b : String) (f : Model → String → Option ARow → Option ARow) (db raw : ADb) : Prop where
  get : ∀ m k, (raw m).get k = f m k ((db m).get k)
  others : ∀ m k row, (db m).get k = some row → (isNested m = true → row.key .budget ≠ some b) →
    f m k (some row) = some row
  writes : ∀ m k row, (raw m).get k = some row → (db m).get k = some row ∨
    isNested m = true ∧ row.key .budget = some b

variable {b b' : String} {f : Model → String → Option ARow → Option ARow} {db db' raw raw' : ADb}

/-- The other budgets are as they were. -/
theorem Acts.frame (h : Acts b f db raw) (hb : b' ≠ b) : view b' raw = view b' db := by
  refine view_eq_iff.mpr fun m k row hvisible => ⟨fun hrow => ?_, fun hrow => ?_⟩
  · rcases h.writes m k row hrow with hold | ⟨hm, hbudget⟩
    · exact hold
    · have hbudget' := (visible_nested hm).mp hvisible
      exact absurd (Option.some.inj (hbudget'.symm.trans hbudget)) hb
  · rw [h.get, hrow]
    refine h.others m k row hrow fun hm hbudget => hb ?_
    exact Option.some.inj (((visible_nested hm).mp hvisible).symm.trans hbudget)

/-- Tables that agree on the budget agree on it afterwards. -/
theorem Acts.congr (h : Acts b f db raw) (h' : Acts b f db' raw') (hview : view b db = view b db')
    (hnew : ∀ m k, f m k none ≠ none → (db m).get k = none ∧ (db' m).get k = none) :
    view b raw = view b raw' := by
  have hone : ∀ {db db' raw raw' : ADb}, Acts b f db raw → Acts b f db' raw' → view b db = view b db' →
      (∀ m k, f m k none ≠ none → (db' m).get k = none) →
      ∀ m k row, visible b m k row = true → (raw m).get k = some row → (raw' m).get k = some row := by
    intro db db' raw raw' h h' hview hnew m k row hvisible hraw
    rw [h.get] at hraw
    rw [h'.get]
    cases hrow : (db m).get k with
    | none =>
      rw [hrow] at hraw
      rw [hnew m k (by rw [hraw]; exact Option.some_ne_none row), hraw]
    | some old =>
      rw [hrow] at hraw
      cases hold : visible b m k old with
      | true => rw [(view_eq_iff.mp hview m k old hold).mp hrow, hraw]
      | false =>
        -- what is not in the budget is not written
        have hsame := h.others m k old hrow fun hm hbudget => by
          rw [(visible_nested hm).mpr hbudget] at hold
          cases hold
        obtain rfl := Option.some.inj (hsame.symm.trans hraw)
        rw [hvisible] at hold
        cases hold
  exact view_eq_iff.mpr fun m k row hvisible =>
    ⟨hone h h' hview (fun m k hne => (hnew m k hne).2) m k row hvisible,
      hone h' h hview.symm (fun m k hne => (hnew m k hne).1) m k row hvisible⟩

/-! ### Creations, updates, deletions, numberings -/

variable {r : Resource} {k : String} {row new : ARow}

def inserts (m : Model) (pk : String) (new : ARow) (m' : Model) (k : String) (old : Option ARow) : Option ARow :=
  if m' = m ∧ k = pk then some new else old

def rewrites (m : Model) (id : String) (new : ARow) (m' : Model) (k : String) (old : Option ARow) : Option ARow :=
  old.map fun row => if m' = m ∧ k = id then new else row

def removes (r : Resource) (id : String) (m : Model) (k : String) (old : Option ARow) : Option ARow :=
  old.filter fun row => !decide (m = r.model ∧ k = id ∨ r = .positions ∧ m = .budgetLine ∧
    row.key .position = some id)

def renumbers (m : Model) (ids : List String) (offset : ℕ) (m' : Model) (k : String) (old : Option ARow) :
    Option ARow :=
  old.map fun row => if m' = m ∧ k ∈ ids then accounts.writeRow m {.sequence} (numbers ids offset k) row else row

theorem acts_insert {pk : String} (hnew : (db r.model).get pk = none) (hbudget : new.key .budget = some b) :
    Acts b (inserts r.model pk new) db (insertRows db r.model (Table.empty.insert pk new)) where
  get m k := by
    unfold insertRows inserts
    by_cases hm : m = r.model
    · subst hm
      by_cases hk : k = pk
      · subst hk
        simp
      · simp [hk, Table.get_insert_of_ne hk]
    · simp [hm]
  others m k row hrow _ := by
    refine if_neg ?_
    rintro ⟨rfl, rfl⟩
    rw [hnew] at hrow
    cases hrow
  writes m k row hrow := by
    rcases insertRows_cases hrow with hold | ⟨rfl, hnew⟩
    · exact .inl hold
    · obtain ⟨-, rfl⟩ := Table.get_insert_empty.mp hnew
      exact .inr ⟨isNested_model r, hbudget⟩

theorem acts_update {names : Finset Name} (values : String → ARow) {id : String}
    (hrow : (db r.model).get id = some row)
    (hold : row.key .budget = some b)
    (hbudget : (accounts.writeRow r.model names (values id) row).key .budget = some b) :
    Acts b (rewrites r.model id (accounts.writeRow r.model names (values id) row)) db
      (accounts.updateRows db r.model {id} names values) where
  get m k := by
    unfold Schema.updateRows rewrites
    by_cases hm : m = r.model
    · subst hm
      simp only [Function.update_self, Table.get_map, Finset.mem_singleton, true_and]
      by_cases hk : k = id
      · subst hk
        simp [hrow]
      · simp [hk]
    · simp [hm]
  others m k row' hrow' hother := by
    refine congrArg some (if_neg ?_)
    rintro ⟨rfl, rfl⟩
    obtain rfl := Option.some.inj (hrow.symm.trans hrow')
    exact hother (isNested_model r) hold
  writes m k row' hrow' := by
    obtain ⟨row₀, hrow₀, rfl | ⟨rfl, hk, rfl⟩⟩ := updateRows_cases hrow'
    · exact .inl hrow₀
    · obtain rfl := Finset.mem_singleton.mp hk
      obtain rfl := Option.some.inj (hrow.symm.trans hrow₀)
      exact .inr ⟨isNested_model r, hbudget⟩

theorem acts_delete (hs : Sound db) {id : String} (hrow : (db r.model).get id = some row)
    (hold : row.key .budget = some b) :
    Acts b (removes r id) db (deleteRows accounts (collection db r.model {id}) db) where
  get m k := by
    refine Option.ext fun row' => ?_
    rw [get_deleteRows hs.plain, mem_collection, removes, Option.filter_eq_some_iff]
    simp only [Finset.mem_singleton, exists_eq_left, Bool.not_eq_true', decide_eq_false_iff_not]
    constructor
    · rintro ⟨hnot, hrow'⟩
      refine ⟨hrow', fun hdeleted => hnot (hdeleted.imp_right ?_)⟩
      rintro ⟨hr, rfl, hposition⟩
      exact ⟨hr, rfl, row', hrow', hposition⟩
    · rintro ⟨hrow', hnot⟩
      refine ⟨fun hdeleted => hnot (hdeleted.imp_right ?_), hrow'⟩
      rintro ⟨hr, rfl, line, hline, hposition⟩
      obtain rfl := Option.some.inj (hline.symm.trans hrow')
      exact ⟨hr, rfl, hposition⟩
  others m k row' hrow' hother := by
    refine Option.filter_eq_some_iff.mpr ⟨rfl, ?_⟩
    rw [Bool.not_eq_true', decide_eq_false_iff_not]
    rintro (⟨rfl, rfl⟩ | ⟨rfl, rfl, hposition⟩)
    · obtain rfl := Option.some.inj (hrow.symm.trans hrow')
      exact hother (isNested_model r) hold
    · exact hother rfl ((visible_nested rfl).mp (line_visible hs hrow hold hrow' hposition))
  writes m k row' hrow' := .inl ((get_deleteRows hs.plain).mp hrow').2

theorem acts_resequence (offset : ℕ) {ids : List String}
    (hrows : ∀ k ∈ ids, ∃ row, (db r.model).get k = some row ∧ row.key .budget = some b) :
    Acts b (renumbers r.model ids offset) db
      (accounts.updateRows db r.model ids.toFinset {.sequence} (numbers ids offset)) where
  get m k := by
    unfold Schema.updateRows renumbers
    by_cases hm : m = r.model
    · subst hm
      simp
    · simp [hm]
  others m k row' hrow' hother := by
    refine congrArg some (if_neg ?_)
    rintro ⟨rfl, hk⟩
    obtain ⟨row, hrow, hbudget⟩ := hrows k hk
    obtain rfl := Option.some.inj (hrow.symm.trans hrow')
    exact hother (isNested_model r) hbudget
  writes m k row' hrow' := by
    obtain ⟨row₀, hrow₀, rfl | ⟨rfl, hk, rfl⟩⟩ := updateRows_cases hrow'
    · exact .inl hrow₀
    · obtain ⟨row, hrow, hbudget⟩ := hrows k (List.mem_toFinset.mp hk)
      obtain rfl := Option.some.inj (hrow.symm.trans hrow₀)
      exact .inr ⟨isNested_model r, by rw [number_keys (hasKey_budget r)]; exact hbudget⟩

theorem Written.acts {fw : Framework} {c : Call} (h : Written fw db c raw) (hs : Sound db) :
    ∃ f, Acts c.budget f db raw := by
  cases h with
  | create _ hinternal hvalid hnew _ => exact ⟨_, acts_insert hnew (newRow_budget _ hinternal hvalid)⟩
  | @update id body row _ hinternal hrow hvalid _ =>
    obtain ⟨hrow, -, hbudget⟩ := onPath_eq_some.mp hrow
    refine ⟨_, acts_update _ hrow hbudget ?_⟩
    rw [(update_keys _ Finset.inter_subset_right hinternal hvalid).1, hbudget]
  | @delete id row _ hrow =>
    obtain ⟨hrow, -, hbudget⟩ := onPath_eq_some.mp hrow
    exact ⟨_, acts_delete hs hrow hbudget⟩
  | @resequence ids offset _ hrows =>
    refine ⟨_, acts_resequence offset fun k hk => ?_⟩
    obtain ⟨row, hrow⟩ := hrows k hk
    obtain ⟨hrow, -, hbudget⟩ := onPath_eq_some.mp hrow
    exact ⟨row, hrow, hbudget⟩

/-- **A request leaves the other budgets as they were**, computed columns included. -/
theorem serve_frame (fw : Framework) {c : Call} (hs : Sound db) (hb : b ≠ c.budget) :
    view b (serve fw db c).2 = view b db := by
  rcases serve_cases fw c hs with hsame | ⟨raw, hwritten, hrefreshed, -⟩
  · rw [hsame]
  · obtain ⟨f, hacts⟩ := hwritten.acts hs
    exact view_refreshed (serve_sound fw c hs) hs (hacts.frame hb) hrefreshed (.refl db)

end Acts

/-! ## What a request depends on -/

section Depends

variable {fw : Framework} {actor : Actor} {db db' : ADb} {r : Resource} {b : String}

theorem view_table (h : view b db = view b db') {m : Model} (hm : isNested m = false) (hbudget : m ≠ .budget) :
    db m = db' m := by
  ext1 k
  refine Option.ext fun row => ?_
  exact view_eq_iff.mp h m k row ((visible_of_not_nested hm).mpr fun hm => absurd hm hbudget)

theorem view_budget (h : view b db = view b db') : (db .budget).get b = (db' .budget).get b :=
  Option.ext fun row => view_eq_iff.mp h .budget b row ((visible_of_not_nested rfl).mpr fun _ => rfl)

theorem keyOf_budget (h : view b db = view b db') (n : Name) :
    keyOf db .budget n (some b) = keyOf db' .budget n (some b) := by
  simp only [keyOf, Option.bind_some, view_budget h]

theorem view_row (h : view b db = view b db') {k : String} {row : ARow} (hbudget : row.key .budget = some b) :
    (db r.model).get k = some row ↔ (db' r.model).get k = some row :=
  view_eq_iff.mp h r.model k row ((visible_nested (isNested_model r)).mpr hbudget)

/-- The rules read the user of the budget. -/
theorem reaches_congr (h : view b db = view b db') {operation : String} {row : ARow}
    (hbudget : row.key .budget = some b) :
    actor.reaches db r.model operation row = actor.reaches db' r.model operation row := by
  have hne : r.model ≠ .budget := by cases r <;> decide
  have huser : budgetUser db r.model row = budgetUser db' r.model row := by
    rw [budgetUser, budgetUser, if_neg hne, if_neg hne, hbudget, keyOf_budget h]
  rw [Actor.reaches, Actor.reaches, huser]

theorem onPath_congr (h : view b db = view b db') (operation k : String) :
    onPath actor db r b operation k = onPath actor db' r b operation k := by
  refine Option.ext fun row => ?_
  rw [onPath_eq_some, onPath_eq_some]
  constructor
  · rintro ⟨hrow, hreaches, hbudget⟩
    exact ⟨(view_row h hbudget).mp hrow, (reaches_congr h hbudget).symm.trans hreaches, hbudget⟩
  · rintro ⟨hrow, hreaches, hbudget⟩
    exact ⟨(view_row h hbudget).mpr hrow, (reaches_congr h hbudget).trans hreaches, hbudget⟩

/-- The position of a line of the budget is one of its positions. -/
theorem position_of_keyOf {y : Option String} (h : keyOf db .budgetPosition .budget y = some b) :
    ∃ k row, y = some k ∧ (db .budgetPosition).get k = some row ∧ row.key .budget = some b := by
  obtain ⟨k, rfl, hrow⟩ := Option.bind_eq_some_iff.mp h
  obtain ⟨row, hrow, hbudget⟩ := Option.bind_eq_some_iff.mp hrow
  exact ⟨k, row, rfl, hrow, hbudget⟩

theorem keyOf_position (h : view b db = view b db') {y : Option String}
    (hkey : keyOf db .budgetPosition .budget y = some b) : keyOf db' .budgetPosition .budget y = some b := by
  obtain ⟨k, row, rfl, hrow, hbudget⟩ := position_of_keyOf hkey
  have hrow' := (view_row (r := .positions) h hbudget).mp hrow
  simp only [keyOf, Option.bind_some]
  rw [show (db' .budgetPosition).get k = some row from hrow', Option.bind_some, hbudget]

theorem render_congr (hs : Sound db) (h : view b db = view b db') {k : String} {row : ARow}
    (hrow : (db r.model).get k = some row) (hbudget : row.key .budget = some b) :
    render db r row = render db' r row := by
  have hrelated : (row.key r.relation.1).bind (db r.relation.2).get
      = (row.key r.relation.1).bind (db' r.relation.2).get := by
    cases r with
    | positions =>
      show (row.key .category).bind (db .accountCategory).get = (row.key .category).bind (db' .accountCategory).get
      rw [view_table h rfl (by decide)]
    | lines =>
      have hkeyOf := hs.scopes.line k row hrow
      rw [hbudget] at hkeyOf
      obtain ⟨y, position, hy, hposition, hin⟩ := position_of_keyOf hkeyOf.symm
      have hposition' := (view_row (r := .positions) h hin).mp hposition
      show (row.key .position).bind (db .budgetPosition).get = (row.key .position).bind (db' .budgetPosition).get
      rw [hy, Option.bind_some, Option.bind_some, hposition]
      exact hposition'.symm
  rw [render, render, hbudget, Option.bind_some, Option.bind_some, view_budget h, hrelated]

/-- No rule is about categories. -/
theorem reaches_category (operation : String) (row : ARow) :
    actor.reaches db .accountCategory operation row = true := by
  refine reaches_iff.mpr (.inl ?_)
  rintro role - ⟨rule, happlies, -⟩
  have hmodels : ∀ rule ∈ rules, rule.model ≠ .accountCategory := by
    simp [rules, budgetManageOwnRule, budgetPositionManageOwnRule, budgetLineManageOwnRule, budgetManageAllRule,
      budgetPositionManageAllRule, budgetLineManageAllRule, manageOwn, manageAll]
  exact hmodels rule happlies.registered happlies.model

theorem browses_budget (h : view b db = view b db') : browses actor db .budget b = browses actor db' .budget b := by
  unfold browses
  rw [view_budget h]
  rfl

theorem browses_category (h : view b db = view b db') (k : String) :
    browses actor db .accountCategory k = browses actor db' .accountCategory k := by
  unfold browses
  rw [view_table h rfl (by decide)]
  congr 1
  funext row
  rw [reaches_category, reaches_category]

theorem browses_position (h : view b db = view b db') {k : String}
    (hkey : keyOf db .budgetPosition .budget (some k) = some b) :
    browses actor db .budgetPosition k = browses actor db' .budgetPosition k := by
  obtain ⟨k', row, hk, hrow, hbudget⟩ := position_of_keyOf hkey
  obtain rfl := Option.some.inj hk
  have hrow' := (view_row (r := .positions) h hbudget).mp hrow
  have hreaches : actor.reaches db .budgetPosition "read" row = actor.reaches db' .budgetPosition "read" row :=
    reaches_congr (r := .positions) h hbudget
  unfold browses
  rw [hrow, show (db' .budgetPosition).get k = some row from hrow', Option.any_some, Option.any_some]
  exact hreaches

/-- What is given is accepted: every relation is found, and what the record must satisfy is satisfied. -/
structure Accepted (fw : Framework) (actor : Actor) (db : ADb) (r : Resource) (today : ℕ) (names : Finset Name)
    (data : ARow) (existing : Option ARow) : Prop where
  internal : internalErrors fw actor db r.model names data = []
  valid : validateData db today r.model names data existing = []

/-- What is accepted depends on the budget: a position of another budget is refused, whatever finds it. -/
theorem Accepted.congr {today : ℕ} {names : Finset Name} {data : ARow} {existing : Option ARow}
    (h : Accepted fw actor db r today names data existing) (hview : view b db = view b db')
    (hbudget : .budget ∈ names → data.key .budget = some b) (hexisting : (existing.getD data).key .budget = some b) :
    Accepted fw actor db' r today names data existing := by
  obtain ⟨hcheck, hbrowses⟩ := internalErrors_eq_nil.mp h.internal
  have hposition : r = .lines → .position ∈ names → data.key .position ≠ none →
      keyOf db .budgetPosition .budget (data.key .position) = some b := by
    rintro rfl hn hnull
    rw [line_valid h.valid hn hnull, hexisting]
  refine ⟨internalErrors_eq_nil.mpr ⟨hcheck, fun n target hkey hn k hk => ?_⟩, ?_⟩
  · have hfound := hbrowses n target hkey hn k hk
    rcases hasKey_cases hkey with ⟨rfl, rfl⟩ | ⟨rfl, rfl⟩
    · obtain rfl := Option.some.inj (hk.symm.trans (hbudget hn))
      rw [← browses_budget hview]
      exact hfound
    · cases r with
      | positions => exact (browses_category hview k).symm.trans hfound
      | lines =>
        have hkeyOf := hposition rfl hn (by rw [show data.key .position = some k from hk]; exact Option.some_ne_none k)
        rw [show data.key .position = some k from hk] at hkeyOf
        exact (browses_position hview hkeyOf).symm.trans hfound
  · have hvalid := h.valid
    cases r with
    | positions =>
      unfold validateData at hvalid ⊢
      simp only [Resource.model, hexisting] at hvalid ⊢
      rw [← keyOf_budget hview]
      unfold keyOf at hvalid ⊢
      rw [← view_table hview rfl (by decide)]
      exact hvalid
    | lines =>
      unfold validateData
      simp only [Resource.model, hexisting]
      refine if_neg ?_
      rintro ⟨hgiven, hne⟩
      by_cases hn : .position ∈ names
      · rw [if_pos hn] at hgiven hne
        exact hne (keyOf_position hview (hposition rfl hn hgiven))
      · rw [if_neg hn] at hgiven
        exact hgiven rfl

theorem relationErrors_congr {m : Model} {names : Finset Name} {data : ARow}
    (h : ∀ n target, HasKey m n target → n ∈ names → ∀ k, data.key n = some k →
      browses actor db target k = browses actor db' target k) :
    relationErrors fw actor db m names data = relationErrors fw actor db' m names data := by
  unfold relationErrors
  dsimp only
  congr 2
  refine List.filterMap_congr fun n hn => ?_
  rw [(fw.order_perm _).mem_iff, List.mem_filter, decide_eq_true_eq] at hn
  unfold relationError
  cases hfind : (fields m).find? fun f => decide (f.name = n) with
  | none => rfl
  | some f =>
    have hname := List.find?_some hfind
    rw [decide_eq_true_eq] at hname
    rw [Option.bind_some]
    cases htarget : f.target with
    | none => rfl
    | some target =>
      have hkey : HasKey m n target := ⟨f, List.mem_of_find?_eq_some hfind, hname, htarget⟩
      rw [Option.bind_some, Option.bind_some]
      congr 1
      cases hk : data.key n with
      | none => rfl
      | some k => rw [Option.filter, Option.filter, h n target hkey hn.2 k hk]

/-- The errors of a body that names no position. -/
theorem internal_congr {names : Finset Name} {data : ARow} (hview : view b db = view b db')
    (hplain : r = .positions ∨ .position ∉ names) (hbudget : .budget ∈ names → data.key .budget = some b) :
    internalErrors fw actor db r.model names data = internalErrors fw actor db' r.model names data := by
  have hrelations : relationErrors fw actor db r.model names data = relationErrors fw actor db' r.model names data := by
    refine relationErrors_congr fun n target hkey hn k hk => ?_
    rcases hasKey_cases hkey with ⟨rfl, rfl⟩ | ⟨rfl, rfl⟩
    · obtain rfl := Option.some.inj (hk.symm.trans (hbudget hn))
      exact browses_budget hview
    · cases r with
      | positions => exact browses_category hview k
      | lines => exact absurd hn (hplain.resolve_left (by decide))
  unfold internalErrors
  rw [hrelations]

theorem valid_congr {today : ℕ} {names : Finset Name} {data : ARow} {existing : Option ARow}
    (hview : view b db = view b db') (hplain : r = .positions ∨ .position ∉ names)
    (hexisting : (existing.getD data).key .budget = some b) :
    validateData db today r.model names data existing = validateData db' today r.model names data existing := by
  unfold validateData
  cases r with
  | positions =>
    simp only [Resource.model, hexisting]
    rw [keyOf_budget hview]
    unfold keyOf
    rw [view_table hview rfl (by decide)]
  | lines => simp only [Resource.model, if_neg (hplain.resolve_left (by decide)), ne_eq, not_true, false_and, if_false]

/-! ## What is written -/

/-- A category is taken in the budget, or it is not. -/
theorem unique_of_view {f : Model → String → Option ARow → Option ARow} {raw raw' : ADb} (hs : Sound db)
    (hacts : Acts b f db raw) (hview : view b raw = view b raw') (h : UniqueCategories raw') :
    UniqueCategories raw := by
  rw [uniqueCategories_iff] at h ⊢
  intro k k' row row' hrow hrow' hbudget hcategory
  by_cases hb : row.key .budget = some b
  · have hview' : ∀ k row, row.key .budget = some b → (raw .budgetPosition).get k = some row →
        (raw' .budgetPosition).get k = some row := fun k row hb hrow => (view_row (r := .positions) hview hb).mp hrow
    exact h k k' row row' (hview' k row hb hrow) (hview' k' row' (hbudget ▸ hb) hrow') hbudget hcategory
  · have hold : ∀ k row, (raw .budgetPosition).get k = some row → row.key .budget ≠ some b →
        (db .budgetPosition).get k = some row :=
      fun k row hrow hne => (hacts.writes _ k row hrow).resolve_right fun hin => hne hin.2
    exact uniqueCategories_iff.mp hs.unique k k' row row' (hold k row hrow hb) (hold k' row' hrow' (hbudget ▸ hb))
      hbudget hcategory

theorem newRow_congr {budget : String} {body : Body} {today now : ℕ} (hview : view budget db = view budget db')
    (h : Accepted fw actor db r today (createFields r.model) (body.input budget) none) :
    newRow db now r.model (body.input budget) = newRow db' now r.model (body.input budget) := by
  have h' := h.congr hview (fun _ => rfl) rfl
  have hbudget := newRow_budget now h.internal h.valid
  have hbudget' := newRow_budget now h'.internal h'.valid
  have hkey : (newRow db now r.model (body.input budget)).key = (newRow db' now r.model (body.input budget)).key := by
    funext n
    by_cases hn : n = .budget
    · rw [hn, hbudget, hbudget']
    · simp [newRow, hn]
  unfold newRow at hkey ⊢
  dsimp only at hkey ⊢
  rw [hkey]

/-- What is written to a row of the budget. -/
theorem writeRow_congr (now : ℕ) {names : Finset Name} {data row : ARow} {today : ℕ} (hview : view b db = view b db')
    (hnames : names ⊆ updateFields r.model) (hold : row.key .budget = some b)
    (h : Accepted fw actor db r today names data (some row)) :
    accounts.writeRow r.model (written r.model names) (newValues db now r.model data) row
      = accounts.writeRow r.model (written r.model names) (newValues db' now r.model data) row := by
  have hbudget : .budget ∈ names → data.key .budget = some b := fun hn => by
    have hnot : ∀ r : Resource, .budget ∉ updateFields r.model := by
      intro r
      cases r <;> decide
    exact absurd (hnames hn) (hnot r)
  have h' := h.congr hview hbudget hold
  have hkeys := update_keys now hnames h.internal h.valid
  have hkeys' := update_keys now hnames h'.internal h'.valid
  have hkey : (accounts.writeRow r.model (written r.model names) (newValues db now r.model data) row).key
      = (accounts.writeRow r.model (written r.model names) (newValues db' now r.model data) row).key := by
    funext n
    by_cases hn : n = .budget
    · rw [hn, hkeys.1, hkeys'.1]
    · simp [Schema.writeRow, newValues, hn]
  unfold Schema.writeRow at hkey ⊢
  dsimp only at hkey ⊢
  rw [hkey]
  rfl

end Depends

/-! ## Two databases that agree on a budget -/

/-- A 404 or a 422. -/
def Answer.Refused : Answer → Prop
  | .notFound => True
  | .invalid _ => True
  | _ => False

/-- The fields of the body. -/
def Operation.names : Operation → Finset Name
  | .create _ body => body.names
  | .update _ body => body.names
  | _ => ∅

/-- Two answers to the same request: they are the same; or the body names a position, and both refuse it. -/
def Alike (c : Call) (a a' : Answer) : Prop :=
  a = a' ∨ c.resource = .lines ∧ .position ∈ c.operation.names ∧ a.Refused ∧ a'.Refused

/-- What a request would draw is not taken. -/
def Call.Fresh (c : Call) (db : ADb) : Prop :=
  match c.operation with
  | .create pk _ => (db c.resource.model).get pk = none
  | _ => True

section Congr

variable {fw : Framework} {db db' : ADb} {c : Call}

/-- The databases after the refresh, and a record of the budget in them. -/
theorem record_congr {db₁ db₁' : ADb} {b : String} (hs : Sound db₁) (hview : view b db₁ = view b db₁') {r : Resource}
    {k : String} (hrow : ∃ row, (db₁ r.model).get k = some row ∧ row.key .budget = some b) :
    (((db₁ r.model).get k).elim Answer.endless fun row => .record k (render db₁ r row))
      = ((db₁' r.model).get k).elim .endless fun row => .record k (render db₁' r row) := by
  obtain ⟨row, hrow, hbudget⟩ := hrow
  rw [hrow, (view_row hview hbudget).mp hrow, Option.elim_some, Option.elim_some, render_congr hs hview hrow hbudget]

theorem reads_congr (hs : Sound db) (hview : view c.budget db = view c.budget db') :
    (∀ filter, list c.actor db c.resource c.budget filter = list c.actor db' c.resource c.budget filter) ∧
      (∀ ids, displayName c.actor db c.resource c.budget ids = displayName c.actor db' c.resource c.budget ids) ∧
      ∀ id, ((onPath c.actor db c.resource c.budget "read" id).elim Answer.notFound fun row =>
          .record id (render db c.resource row))
        = (onPath c.actor db' c.resource c.budget "read" id).elim .notFound fun row =>
          .record id (render db' c.resource row) := by
  have hrender : ∀ k row, onPath c.actor db' c.resource c.budget "read" k = some row →
      render db c.resource row = render db' c.resource row := by
    intro k row hrow
    rw [← onPath_congr hview] at hrow
    obtain ⟨hrow, -, hbudget⟩ := onPath_eq_some.mp hrow
    exact render_congr hs hview hrow hbudget
  refine ⟨fun filter => ?_, fun ids => ?_, fun id => ?_⟩
  · unfold list
    ext1 k
    rw [Table.get_map, Table.get_map, Table.get_filter, Table.get_filter, onPath_congr hview]
    cases hrow : onPath c.actor db' c.resource c.budget "read" k with
    | none =>
      simp only [Option.isSome_none, Bool.false_and]
      cases (db c.resource.model).get k <;> cases (db' c.resource.model).get k <;> rfl
    | some row =>
      have hrow' := onPath_congr hview "read" k ▸ hrow
      rw [(onPath_eq_some.mp hrow).1, (onPath_eq_some.mp hrow').1]
      simp only [Option.isSome_some, Bool.true_and]
      cases hkept : filter k row with
      | false => simp [Option.filter, hkept]
      | true => simp [Option.filter, hkept, hrender k row hrow]
  · unfold displayName
    refine List.filterMap_congr fun k _ => ?_
    rw [onPath_congr hview]
    cases hrow : onPath c.actor db' c.resource c.budget "read" k with
    | none => rfl
    | some row => rw [Option.map_some, Option.map_some, hrender k row hrow]
  · rw [onPath_congr hview]
    cases hrow : onPath c.actor db' c.resource c.budget "read" id with
    | none => rfl
    | some row => rw [Option.elim_some, Option.elim_some, hrender id row hrow]

theorem create_refused (pk : String) {actor : Actor} {r : Resource} {budget : String} {body : Body} {clock : Clock}
    (h : ¬ Accepted fw actor db r clock.today (createFields r.model) (body.input budget) none) :
    ∃ errors, create fw actor db r budget pk body clock = (fieldErrors errors, db) := by
  unfold create
  dsimp only
  split_ifs with hmissing hinternal hvalid
  · exact ⟨_, rfl⟩
  · exact ⟨_, rfl⟩
  · exact ⟨_, rfl⟩
  all_goals exact absurd ⟨not_not.mp hinternal, not_not.mp hvalid⟩ h

/-- A creation that is accepted. -/
theorem create_accepted {actor : Actor} {r : Resource} {budget pk : String} {body : Body} {clock : Clock}
    (hmissing : (r.required.filter fun n => decide (n ∉ body.names)) = [])
    (h : Accepted fw actor db r clock.today (createFields r.model) (body.input budget) none)
    (hnew : (db r.model).get pk = none) : create fw actor db r budget pk body clock =
      if ¬ UniqueCategories (insertRows db r.model (Table.empty.insert pk (newRow db clock.now r.model
          (body.input budget)))) then (notUnique, db)
      else if actor.reaches (insertRows db r.model (Table.empty.insert pk (newRow db clock.now r.model
          (body.input budget)))) r.model "create" (newRow db clock.now r.model (body.input budget)) = false then
        (.denied, db)
      else refetched db r pk (Budgets.create db clock r.model (Table.empty.insert pk (body.input budget))) := by
  unfold create
  dsimp only
  rw [if_neg (not_not.mpr hmissing), if_neg (not_not.mpr h.internal), if_neg (not_not.mpr h.valid),
    if_neg (Table.get_eq_none.mp hnew)]

/-- A creation that is accepted, in databases that agree on its budget. -/
theorem create_accepted_congr {pk : String} {body : Body} (hop : c.operation = .create pk body) (hs : Sound db)
    (hs' : Sound db') (hview : view c.budget db = view c.budget db') (hnew : (db c.resource.model).get pk = none)
    (hnew' : (db' c.resource.model).get pk = none)
    (hmissing : (c.resource.required.filter fun n => decide (n ∉ body.names)) = [])
    (haccepted : Accepted fw c.actor db c.resource c.clock.today (createFields c.resource.model)
      (body.input c.budget) none) :
    (create fw c.actor db c.resource c.budget pk body c.clock).1
        = (create fw c.actor db' c.resource c.budget pk body c.clock).1 ∧
      view c.budget (create fw c.actor db c.resource c.budget pk body c.clock).2
        = view c.budget (create fw c.actor db' c.resource c.budget pk body c.clock).2 := by
  have haccepted' := haccepted.congr hview (fun _ => rfl) rfl
  have hbudget := newRow_budget c.clock.now haccepted.internal haccepted.valid
  rw [create_accepted hmissing haccepted hnew, create_accepted hmissing haccepted' hnew',
    ← newRow_congr hview haccepted]
  have hacts := acts_insert hnew hbudget
  have hacts' := acts_insert hnew' hbudget
  have hraw := hacts.congr hacts' hview fun m k hne => by
    unfold inserts at hne
    by_cases hmk : m = c.resource.model ∧ k = pk
    · obtain ⟨rfl, rfl⟩ := hmk
      exact ⟨hnew, hnew'⟩
    · rw [if_neg hmk] at hne
      exact absurd rfl hne
  rw [reaches_congr hraw hbudget]
  by_cases hunique : UniqueCategories (insertRows db c.resource.model (Table.empty.insert pk
    (newRow db c.clock.now c.resource.model (body.input c.budget))))
  · have hunique' := unique_of_view hs' hacts' hraw.symm hunique
    rw [if_neg (not_not.mpr hunique), if_neg (not_not.mpr hunique')]
    split_ifs with hdenied
    · exact ⟨rfl, hview⟩
    obtain ⟨s, hexit, hrefreshed, hconsistent⟩ := create_exits hs (body.input c.budget) c.clock hnew
    obtain ⟨s', hexit', hrefreshed', hconsistent'⟩ :=
      create_exits hs' (body.input c.budget) c.clock hnew'
    rw [← newRow_congr hview haccepted] at hrefreshed'
    have hsound := (Written.create hop haccepted.internal haccepted.valid hnew hunique).sound hs hrefreshed hconsistent
    have hwritten' := Written.create hop haccepted'.internal haccepted'.valid hnew'
      (by rw [← newRow_congr hview haccepted]; exact hunique')
    have hsound' := hwritten'.sound hs' (by rw [← newRow_congr hview haccepted]; exact hrefreshed') hconsistent'
    have hviews := view_refreshed hsound hsound' hraw hrefreshed hrefreshed'
    rw [hexit, hexit']
    refine ⟨record_congr hsound hviews (row_refreshed hrefreshed ?_ hbudget), hviews⟩
    simp [insertRows]
  · have hunique' : ¬ UniqueCategories (insertRows db' c.resource.model (Table.empty.insert pk
        (newRow db c.clock.now c.resource.model (body.input c.budget)))) :=
      fun h => hunique (unique_of_view hs hacts hraw h)
    rw [if_pos hunique, if_pos hunique']
    exact ⟨rfl, hview⟩

/-- The same errors, wherever they are found. -/
theorem create_rejected_congr (pk : String) {actor : Actor} {r : Resource} {budget : String} {body : Body}
    {clock : Clock}
    (hinternal : internalErrors fw actor db r.model (createFields r.model) (body.input budget)
      = internalErrors fw actor db' r.model (createFields r.model) (body.input budget))
    (hvalid : internalErrors fw actor db r.model (createFields r.model) (body.input budget) = [] →
      validateData db clock.today r.model (createFields r.model) (body.input budget) none
        = validateData db' clock.today r.model (createFields r.model) (body.input budget) none)
    (h : ¬ Accepted fw actor db r clock.today (createFields r.model) (body.input budget) none) :
    ∃ errors, create fw actor db r budget pk body clock = (fieldErrors errors, db) ∧
      create fw actor db' r budget pk body clock = (fieldErrors errors, db') := by
  unfold create
  dsimp only
  by_cases hmissing : (r.required.filter fun n => decide (n ∉ body.names)) = []
  · rw [if_neg (not_not.mpr hmissing), if_neg (not_not.mpr hmissing), ← hinternal]
    by_cases hi : internalErrors fw actor db r.model (createFields r.model) (body.input budget) = []
    · have hv : validateData db clock.today r.model (createFields r.model) (body.input budget) none ≠ [] :=
        fun hv => h ⟨hi, hv⟩
      rw [if_neg (not_not.mpr hi), if_neg (not_not.mpr hi), ← hvalid hi, if_pos hv, if_pos hv]
      exact ⟨_, rfl, rfl⟩
    · rw [if_pos hi, if_pos hi]
      exact ⟨_, rfl, rfl⟩
  · rw [if_pos hmissing, if_pos hmissing]
    exact ⟨_, rfl, rfl⟩

theorem create_congr {pk : String} {body : Body} (hop : c.operation = .create pk body) (hs : Sound db)
    (hs' : Sound db') (hview : view c.budget db = view c.budget db') (hnew : (db c.resource.model).get pk = none)
    (hnew' : (db' c.resource.model).get pk = none) :
    Alike c (create fw c.actor db c.resource c.budget pk body c.clock).1
        (create fw c.actor db' c.resource c.budget pk body c.clock).1 ∧
      view c.budget (create fw c.actor db c.resource c.budget pk body c.clock).2
        = view c.budget (create fw c.actor db' c.resource c.budget pk body c.clock).2 := by
  by_cases hmissing : (c.resource.required.filter fun n => decide (n ∉ body.names)) = []
  swap
  · unfold create
    dsimp only
    rw [if_pos hmissing, if_pos hmissing]
    exact ⟨.inl rfl, hview⟩
  by_cases haccepted : Accepted fw c.actor db c.resource c.clock.today (createFields c.resource.model)
    (body.input c.budget) none
  · exact (create_accepted_congr hop hs hs' hview hnew hnew' hmissing haccepted).imp_left .inl
  have haccepted' : ¬ Accepted fw c.actor db' c.resource c.clock.today (createFields c.resource.model)
      (body.input c.budget) none := fun h => haccepted (h.congr hview.symm (fun _ => rfl) rfl)
  cases hresource : c.resource with
  | lines =>
    have hposition : .position ∈ body.names := by
      by_contra hnot
      rw [List.filter_eq_nil_iff] at hmissing
      exact hmissing .position (by rw [hresource]; decide) (decide_eq_true hnot)
    obtain ⟨errors, herrors⟩ := create_refused pk haccepted
    obtain ⟨errors', herrors'⟩ := create_refused pk haccepted'
    rw [hresource] at herrors herrors'
    rw [herrors, herrors']
    exact ⟨.inr ⟨hresource, by rw [hop]; exact hposition, True.intro, True.intro⟩, hview⟩
  | positions =>
    obtain ⟨errors, herrors, herrors'⟩ := create_rejected_congr pk (internal_congr hview (.inl hresource) fun _ => rfl)
      (fun _ => valid_congr hview (.inl hresource) rfl) haccepted
    rw [hresource] at herrors herrors'
    rw [herrors, herrors']
    exact ⟨.inl rfl, hview⟩

theorem budget_not_updated (r : Resource) {names : Finset Name} (hnames : names ⊆ updateFields r.model) :
    .budget ∉ names := by
  intro hn
  have hnot : .budget ∉ updateFields r.model := by cases r <;> decide
  exact hnot (hnames hn)

theorem update_refused {actor : Actor} {r : Resource} {budget id : String} {body : Body} {clock : Clock}
    (h : ∀ row, onPath actor db r budget "update" id = some row →
      ¬ Accepted fw actor db r clock.today (body.names ∩ updateFields r.model) body.values (some row)) :
    ∃ answer, update fw actor db r budget id body clock = (answer, db) ∧ answer.Refused := by
  unfold update
  dsimp only
  by_cases hi : internalErrors fw actor db r.model (body.names ∩ updateFields r.model) body.values = []
  swap
  · rw [if_pos hi]
    exact ⟨_, rfl, True.intro⟩
  rw [if_neg (not_not.mpr hi)]
  cases hrow : onPath actor db r budget "update" id with
  | none => exact ⟨_, rfl, True.intro⟩
  | some row =>
    dsimp only
    rw [if_pos fun hv => h row hrow ⟨hi, hv⟩]
    exact ⟨_, rfl, True.intro⟩

/-- An update that is accepted. -/
theorem update_accepted {actor : Actor} {r : Resource} {budget id : String} {body : Body} {clock : Clock} {row : ARow}
    (hrow : onPath actor db r budget "update" id = some row)
    (h : Accepted fw actor db r clock.today (body.names ∩ updateFields r.model) body.values (some row)) :
    update fw actor db r budget id body clock =
      if ¬ UniqueCategories (accounts.updateRows db r.model {id} (written r.model (body.names ∩ updateFields r.model))
          fun _ => newValues db clock.now r.model body.values) then (notUnique, db)
      else refetched db r id (Budgets.update db clock r.model {id} (body.names ∩ updateFields r.model) body.values) := by
  unfold update
  dsimp only
  rw [if_neg (not_not.mpr h.internal), hrow]
  dsimp only
  rw [if_neg (not_not.mpr h.valid)]

/-- An update that is accepted, in databases that agree on its budget. -/
theorem update_accepted_congr {id : String} {body : Body} {row : ARow} (hop : c.operation = .update id body)
    (hs : Sound db) (hs' : Sound db') (hview : view c.budget db = view c.budget db')
    (hrow : onPath c.actor db c.resource c.budget "update" id = some row)
    (haccepted : Accepted fw c.actor db c.resource c.clock.today (body.names ∩ updateFields c.resource.model)
      body.values (some row)) :
    (update fw c.actor db c.resource c.budget id body c.clock).1
        = (update fw c.actor db' c.resource c.budget id body c.clock).1 ∧
      view c.budget (update fw c.actor db c.resource c.budget id body c.clock).2
        = view c.budget (update fw c.actor db' c.resource c.budget id body c.clock).2 := by
  have hnames : body.names ∩ updateFields c.resource.model ⊆ updateFields c.resource.model :=
    Finset.inter_subset_right
  have hrow' := onPath_congr hview "update" id ▸ hrow
  obtain ⟨hget, -, hold⟩ := onPath_eq_some.mp hrow
  obtain ⟨hget', -, -⟩ := onPath_eq_some.mp hrow'
  have haccepted' := haccepted.congr hview (fun hn => absurd hn (budget_not_updated c.resource hnames)) hold
  rw [update_accepted hrow haccepted, update_accepted hrow' haccepted']
  have hkept : (accounts.writeRow c.resource.model (written c.resource.model (body.names ∩ updateFields
      c.resource.model)) (newValues db c.clock.now c.resource.model body.values) row).key .budget = some c.budget := by
    rw [(update_keys c.clock.now hnames haccepted.internal haccepted.valid).1, hold]
  have hacts := acts_update (fun _ => newValues db c.clock.now c.resource.model body.values) hget hold hkept
  have hwrite := writeRow_congr c.clock.now hview hnames hold haccepted
  have hacts' := acts_update (fun _ => newValues db' c.clock.now c.resource.model body.values) hget' hold
    (hwrite ▸ hkept)
  have hraw := hacts.congr (hwrite ▸ hacts') hview fun m k hne => absurd rfl hne
  obtain ⟨s, hexit, hrefreshed, hconsistent⟩ := update_exits hs id body.values c.clock hnames
  obtain ⟨s', hexit', hrefreshed', hconsistent'⟩ := update_exits hs' id body.values c.clock hnames
  by_cases hunique : UniqueCategories (accounts.updateRows db c.resource.model {id}
    (written c.resource.model (body.names ∩ updateFields c.resource.model))
      fun _ => newValues db c.clock.now c.resource.model body.values)
  · have hunique' := unique_of_view hs' hacts' hraw.symm hunique
    rw [if_neg (not_not.mpr hunique), if_neg (not_not.mpr hunique'), hexit, hexit']
    have hsound := (Written.update hop haccepted.internal hrow haccepted.valid hunique).sound hs hrefreshed
      hconsistent
    have hsound' := (Written.update hop haccepted'.internal hrow' haccepted'.valid hunique').sound hs' hrefreshed'
      hconsistent'
    have hviews := view_refreshed hsound hsound' hraw hrefreshed hrefreshed'
    have hwritten : (accounts.updateRows db c.resource.model {id} (written c.resource.model (body.names ∩ updateFields
        c.resource.model)) (fun _ => newValues db c.clock.now c.resource.model body.values) c.resource.model).get id
          = some (accounts.writeRow c.resource.model (written c.resource.model (body.names ∩ updateFields
            c.resource.model)) (newValues db c.clock.now c.resource.model body.values) row) := by
      simp [Schema.updateRows, hget]
    exact ⟨record_congr hsound hviews (row_refreshed hrefreshed hwritten hkept), hviews⟩
  · rw [if_pos hunique, if_pos fun h => hunique (unique_of_view hs hacts hraw h)]
    exact ⟨rfl, hview⟩

/-- The same errors, wherever they are found. -/
theorem update_rejected_congr {actor : Actor} {r : Resource} {budget id : String} {body : Body} {clock : Clock}
    (hpath : onPath actor db r budget "update" id = onPath actor db' r budget "update" id)
    (hinternal : internalErrors fw actor db r.model (body.names ∩ updateFields r.model) body.values
      = internalErrors fw actor db' r.model (body.names ∩ updateFields r.model) body.values)
    (hvalid : ∀ row, onPath actor db r budget "update" id = some row →
      internalErrors fw actor db r.model (body.names ∩ updateFields r.model) body.values = [] →
        validateData db clock.today r.model (body.names ∩ updateFields r.model) body.values (some row)
          = validateData db' clock.today r.model (body.names ∩ updateFields r.model) body.values (some row))
    (h : ∀ row, onPath actor db r budget "update" id = some row →
      ¬ Accepted fw actor db r clock.today (body.names ∩ updateFields r.model) body.values (some row)) :
    ∃ answer, update fw actor db r budget id body clock = (answer, db) ∧
      update fw actor db' r budget id body clock = (answer, db') := by
  unfold update
  dsimp only
  rw [← hinternal, ← hpath]
  by_cases hi : internalErrors fw actor db r.model (body.names ∩ updateFields r.model) body.values = []
  swap
  · rw [if_pos hi, if_pos hi]
    exact ⟨_, rfl, rfl⟩
  rw [if_neg (not_not.mpr hi), if_neg (not_not.mpr hi)]
  cases hrow : onPath actor db r budget "update" id with
  | none => exact ⟨_, rfl, rfl⟩
  | some row =>
    have hv : validateData db clock.today r.model (body.names ∩ updateFields r.model) body.values (some row) ≠ [] :=
      fun hv => h row hrow ⟨hi, hv⟩
    dsimp only
    rw [← hvalid row hrow hi, if_pos hv, if_pos hv]
    exact ⟨_, rfl, rfl⟩

theorem update_congr {id : String} {body : Body} (hop : c.operation = .update id body) (hs : Sound db)
    (hs' : Sound db') (hview : view c.budget db = view c.budget db') :
    Alike c (update fw c.actor db c.resource c.budget id body c.clock).1
        (update fw c.actor db' c.resource c.budget id body c.clock).1 ∧
      view c.budget (update fw c.actor db c.resource c.budget id body c.clock).2
        = view c.budget (update fw c.actor db' c.resource c.budget id body c.clock).2 := by
  have hnames : body.names ∩ updateFields c.resource.model ⊆ updateFields c.resource.model :=
    Finset.inter_subset_right
  have hbudget : .budget ∈ body.names ∩ updateFields c.resource.model → body.values.key .budget = some c.budget :=
    fun hn => absurd hn (budget_not_updated c.resource hnames)
  by_cases haccepted : ∃ row, onPath c.actor db c.resource c.budget "update" id = some row ∧
    Accepted fw c.actor db c.resource c.clock.today (body.names ∩ updateFields c.resource.model) body.values (some row)
  · obtain ⟨row, hrow, haccepted⟩ := haccepted
    exact (update_accepted_congr hop hs hs' hview hrow haccepted).imp_left .inl
  by_cases hplain : c.resource = .positions ∨ .position ∉ body.names ∩ updateFields c.resource.model
  · obtain ⟨answer, hanswer, hanswer'⟩ := update_rejected_congr (onPath_congr hview "update" id)
      (internal_congr hview hplain hbudget)
      (fun row hrow _ => valid_congr hview hplain (onPath_eq_some.mp hrow).2.2)
      fun row hrow h => haccepted ⟨row, hrow, h⟩
    rw [hanswer, hanswer']
    exact ⟨.inl rfl, hview⟩
  · rw [not_or, not_not] at hplain
    have hlines : c.resource = .lines := by
      cases hresource : c.resource with
      | positions => exact absurd hresource hplain.1
      | lines => rfl
    have hname : .position ∈ c.operation.names := by
      rw [hop]
      exact (Finset.mem_inter.mp hplain.2).1
    have hrejected : ∀ row, onPath c.actor db' c.resource c.budget "update" id = some row →
        ¬ Accepted fw c.actor db' c.resource c.clock.today (body.names ∩ updateFields c.resource.model) body.values
          (some row) := fun row hrow h =>
      haccepted ⟨row, onPath_congr hview "update" id ▸ hrow, h.congr hview.symm hbudget (onPath_eq_some.mp hrow).2.2⟩
    obtain ⟨answer, hanswer, hrefused⟩ := update_refused fun row hrow h => haccepted ⟨row, hrow, h⟩
    obtain ⟨answer', hanswer', hrefused'⟩ := update_refused hrejected
    rw [hanswer, hanswer']
    exact ⟨.inr ⟨hlines, hname, hrefused, hrefused'⟩, hview⟩

theorem delete_congr (fw : Framework) {id : String} (hop : c.operation = .delete id) (hs : Sound db)
    (hs' : Sound db') (hview : view c.budget db = view c.budget db') :
    (delete c.actor db c.resource c.budget id).1 = (delete c.actor db' c.resource c.budget id).1 ∧
      view c.budget (delete c.actor db c.resource c.budget id).2
        = view c.budget (delete c.actor db' c.resource c.budget id).2 := by
  unfold delete
  rw [← onPath_congr hview]
  cases hrow : onPath c.actor db c.resource c.budget "delete" id with
  | none => exact ⟨rfl, hview⟩
  | some row =>
    have hrow' := onPath_congr hview "delete" id ▸ hrow
    obtain ⟨hget, -, hbudget⟩ := onPath_eq_some.mp hrow
    obtain ⟨hget', -, -⟩ := onPath_eq_some.mp hrow'
    obtain ⟨s, hexit, hrefreshed, hconsistent⟩ := delete_exits hs hget
    obtain ⟨s', hexit', hrefreshed', hconsistent'⟩ := delete_exits hs' hget'
    have hraw := (acts_delete hs hget hbudget).congr (acts_delete hs' hget' hbudget) hview fun m k hne =>
      absurd rfl hne
    have hwritten : Written fw db c _ := .delete hop hrow
    have hwritten' : Written fw db' c _ := .delete hop hrow'
    have hsound := hwritten.sound hs hrefreshed hconsistent
    have hsound' := hwritten'.sound hs' hrefreshed' hconsistent'
    dsimp only
    rw [hexit, hexit']
    exact ⟨rfl, view_refreshed hsound hsound' hraw hrefreshed hrefreshed'⟩

theorem resequence_congr (fw : Framework) {ids : List String} {offset : ℕ}
    (hop : c.operation = .resequence ids offset) (hs : Sound db) (hs' : Sound db')
    (hview : view c.budget db = view c.budget db') :
    (resequence c.actor db c.resource c.budget ids offset).1
        = (resequence c.actor db' c.resource c.budget ids offset).1 ∧
      view c.budget (resequence c.actor db c.resource c.budget ids offset).2
        = view c.budget (resequence c.actor db' c.resource c.budget ids offset).2 := by
  unfold resequence
  dsimp only
  have hpath : ∀ k, onPath c.actor db' c.resource c.budget "update" k
      = onPath c.actor db c.resource c.budget "update" k :=
    fun k => (onPath_congr hview "update" k).symm
  simp only [hpath]
  split_ifs with hduplicates hmissing
  · exact ⟨rfl, hview⟩
  · exact ⟨rfl, hview⟩
  rw [not_not] at hmissing
  have hfound : ∀ k ∈ ids, ∃ row, onPath c.actor db c.resource c.budget "update" k = some row := by
    intro k hk
    have hfound := List.filter_eq_nil_iff.mp hmissing k hk
    rw [Option.isNone_iff_eq_none] at hfound
    exact Option.ne_none_iff_exists'.mp hfound
  have hfound' : ∀ k ∈ ids, ∃ row, onPath c.actor db' c.resource c.budget "update" k = some row := by
    intro k hk
    rw [← onPath_congr hview]
    exact hfound k hk
  obtain ⟨s, hexit, hconsistent⟩ := number_consistent hs.consistent c.resource ids offset
  obtain ⟨s', hexit', hconsistent'⟩ := number_consistent hs'.consistent c.resource ids offset
  have hin : ∀ {db : ADb}, (∀ k ∈ ids, ∃ row, onPath c.actor db c.resource c.budget "update" k = some row) →
      ∀ k ∈ ids, ∃ row, (db c.resource.model).get k = some row ∧ row.key .budget = some c.budget := by
    intro db hfound k hk
    obtain ⟨row, hrow⟩ := hfound k hk
    obtain ⟨hrow, -, hbudget⟩ := onPath_eq_some.mp hrow
    exact ⟨row, hrow, hbudget⟩
  have hraw := (acts_resequence offset (hin hfound)).congr (acts_resequence offset (hin hfound')) hview
    fun m k hne => absurd rfl hne
  have hwritten : Written fw db c _ := .resequence hop hfound
  have hwritten' : Written fw db' c _ := .resequence hop hfound'
  have hsound := hwritten.sound hs (State.exit_refreshed hexit) hconsistent
  have hsound' := hwritten'.sound hs' (State.exit_refreshed hexit') hconsistent'
  rw [hexit, hexit']
  exact ⟨rfl, view_refreshed hsound hsound' hraw (State.exit_refreshed hexit) (State.exit_refreshed hexit')⟩

/-- **The same request to databases that agree on its budget.** -/
theorem serve_congr (fw : Framework) (hs : Sound db) (hs' : Sound db') (hview : view c.budget db = view c.budget db')
    (hfresh : c.Fresh db) (hfresh' : c.Fresh db') : Alike c (serve fw db c).1 (serve fw db' c).1 ∧
      view c.budget (serve fw db c).2 = view c.budget (serve fw db' c).2 := by
  obtain ⟨hlist, hnames, hretrieve⟩ := reads_congr hs hview
  unfold serve
  cases hop : c.operation with
  | list filter => exact ⟨.inl (congrArg Answer.listed (hlist filter)), hview⟩
  | retrieve id => exact ⟨.inl (hretrieve id), hview⟩
  | displayName ids => exact ⟨.inl (congrArg Answer.named (hnames ids)), hview⟩
  | create pk body =>
    rw [Call.Fresh, hop] at hfresh hfresh'
    exact create_congr hop hs hs' hview hfresh hfresh'
  | update id body => exact update_congr hop hs hs' hview
  | delete id => exact (delete_congr fw hop hs hs' hview).imp_left .inl
  | resequence ids offset => exact (resequence_congr fw hop hs hs' hview).imp_left .inl

end Congr

/-! ## Runs -/

section Run

variable {fw : Framework} {db db' : ADb} {c : Call} {cs : List Call}

/-- Requests one after the other, whatever their budgets and their users: each with its answer. -/
def run (fw : Framework) : ADb → List Call → List (Call × Answer) × ADb
  | db, [] => ([], db)
  | db, c :: cs =>
    ((c, (serve fw db c).1) :: (run fw (serve fw db c).2 cs).1, (run fw (serve fw db c).2 cs).2)

/-- The key a creation draws. -/
def Call.draws (c : Call) : Option (Model × String) :=
  match c.operation with
  | .create pk _ => some (c.resource.model, pk)
  | _ => none

/-- The keys that creations draw are new. -/
structure NewKeys (db : ADb) (cs : List Call) : Prop where
  nodup : (cs.filterMap Call.draws).Nodup
  new : ∀ x ∈ cs.filterMap Call.draws, (db x.1).get x.2 = none

theorem draws_eq_some {x : Model × String} :
    c.draws = some x ↔ ∃ pk body, c.operation = .create pk body ∧ x = (c.resource.model, pk) := by
  unfold Call.draws
  cases c.operation <;> simp [eq_comm]

theorem fresh_of_draws (h : ∀ x, c.draws = some x → (db x.1).get x.2 = none) : c.Fresh db := by
  unfold Call.Fresh
  cases hop : c.operation with
  | create pk body => exact h (c.resource.model, pk) (draws_eq_some.mpr ⟨pk, body, hop, rfl⟩)
  | _ => exact True.intro

/-- A request adds no other row than the one it draws. -/
theorem serve_new (fw : Framework) (hs : Sound db) {m : Model} {k : String} (hk : (db m).get k = none)
    (hne : c.draws ≠ some (m, k)) : ((serve fw db c).2 m).get k = none := by
  rcases serve_cases fw c hs with hsame | ⟨raw, hwritten, hrefreshed, -⟩
  · rw [hsame]
    exact hk
  refine hrefreshed.gone m k ?_
  by_contra hrow
  obtain ⟨row, hrow⟩ := Option.ne_none_iff_exists'.mp hrow
  have hold : ∀ {row : ARow}, (db m).get k ≠ some row := fun h => by
    rw [hk] at h
    cases h
  cases hwritten with
  | @create pk body hop =>
    rcases insertRows_cases hrow with h | ⟨rfl, hnew⟩
    · exact hold h
    · obtain ⟨rfl, -⟩ := Table.get_insert_empty.mp hnew
      exact hne (draws_eq_some.mpr ⟨_, body, hop, rfl⟩)
  | update =>
    obtain ⟨row₀, h, -⟩ := updateRows_cases hrow
    exact hold h
  | delete => exact hold ((get_deleteRows hs.plain).mp hrow).2
  | resequence =>
    obtain ⟨row₀, h, -⟩ := updateRows_cases hrow
    exact hold h

theorem NewKeys.fresh (h : NewKeys db (c :: cs)) : c.Fresh db :=
  fresh_of_draws fun x hx => h.new x (List.mem_filterMap.mpr ⟨c, List.mem_cons_self, hx⟩)

theorem NewKeys.next (fw : Framework) (h : NewKeys db (c :: cs)) (hs : Sound db) : NewKeys (serve fw db c).2 cs where
  nodup := h.nodup.sublist ((List.sublist_cons_self c cs).filterMap _)
  new := by
    intro x hx
    have hmem : x ∈ (c :: cs).filterMap Call.draws := by
      obtain ⟨c', hc', hdraws⟩ := List.mem_filterMap.mp hx
      exact List.mem_filterMap.mpr ⟨c', List.mem_cons_of_mem c hc', hdraws⟩
    refine serve_new fw hs (h.new x hmem) fun hdraws => ?_
    have hnodup := h.nodup
    rw [List.filterMap_cons, hdraws] at hnodup
    exact (List.nodup_cons.mp hnodup).1 hx

theorem run_sound (fw : Framework) (cs : List Call) (hs : Sound db) : Sound (run fw db cs).2 := by
  induction cs generalizing db with
  | nil => exact hs
  | cons c cs ih => exact ih (serve_sound fw c hs)

/-- The requests that are answered are those that are sent. -/
theorem call_of_run {x : Call × Answer} (hx : x ∈ (run fw db cs).1) : x.1 ∈ cs := by
  induction cs generalizing db with
  | nil => exact absurd hx List.not_mem_nil
  | cons c cs ih =>
    rw [run] at hx
    rcases List.mem_cons.mp hx with rfl | hx
    · exact List.mem_cons_self
    · exact List.mem_cons_of_mem c (ih hx)

/-- **Any sequence of requests**, of any users to any budgets: keys, totals, scopes and uniqueness are kept, and every
request is answered, by what is in the budget of its path. -/
theorem requests_kept (fw : Framework) (cs : List Call) (hs : Sound db) : Sound (run fw db cs).2 ∧
    Totals (run fw db cs).2 ∧ ∀ x ∈ (run fw db cs).1, x.2.Within x.1.budget := by
  have hend := run_sound fw cs hs
  refine ⟨hend, hend.totals, ?_⟩
  induction cs generalizing db with
  | nil => exact fun x hx => absurd hx List.not_mem_nil
  | cons c cs ih =>
    intro x hx
    rw [run] at hx
    rcases List.mem_cons.mp hx with rfl | hx
    · exact answer_within fw c hs
    · exact ih (serve_sound fw c hs) (run_sound fw cs (serve_sound fw c hs)) x hx

/-- **The requests of a budget, among those of the others.**  Two databases may differ in everything that is in
another budget, and the second receives the requests of the budget alone: they are answered alike, and leave the
budget alike. -/
theorem requests_isolated (fw : Framework) (budget : String) (cs : List Call) (hs : Sound db) (hs' : Sound db')
    (hview : view budget db = view budget db') (hnew : NewKeys db cs)
    (hnew' : NewKeys db' (cs.filter fun c => c.budget = budget)) :
    List.Forall₂ (fun x y => x.1 = y.1 ∧ Alike x.1 x.2 y.2) ((run fw db cs).1.filter fun x => x.1.budget = budget)
        (run fw db' (cs.filter fun c => c.budget = budget)).1 ∧
      view budget (run fw db cs).2 = view budget (run fw db' (cs.filter fun c => c.budget = budget)).2 := by
  induction cs generalizing db db' with
  | nil => exact ⟨.nil, hview⟩
  | cons c cs ih =>
    by_cases hbudget : c.budget = budget
    · obtain rfl := hbudget
      have hfilter : (c :: cs).filter (fun c' => decide (c'.budget = c.budget))
          = c :: cs.filter fun c' => decide (c'.budget = c.budget) := List.filter_cons_of_pos (by simp)
      rw [hfilter] at hnew' ⊢
      obtain ⟨halike, hnext⟩ := serve_congr fw hs hs' hview hnew.fresh hnew'.fresh
      obtain ⟨hanswers, hviews⟩ := ih (serve_sound fw c hs) (serve_sound fw c hs') hnext (hnew.next fw hs)
        (hnew'.next fw hs')
      refine ⟨?_, hviews⟩
      rw [run, run, List.filter_cons_of_pos (by simp)]
      exact .cons ⟨rfl, halike⟩ hanswers
    · have hfilter : (c :: cs).filter (fun c' => decide (c'.budget = budget))
          = cs.filter fun c' => decide (c'.budget = budget) := List.filter_cons_of_neg (by simpa using hbudget)
      rw [hfilter] at hnew' ⊢
      have hnext : view budget (serve fw db c).2 = view budget db' :=
        (serve_frame fw hs fun h => hbudget h.symm).trans hview
      obtain ⟨hanswers, hviews⟩ := ih (serve_sound fw c hs) hs' hnext (hnew.next fw hs) hnew'
      refine ⟨?_, hviews⟩
      rw [run, List.filter_cons_of_neg (by simpa using hbudget)]
      exact hanswers

end Run

/-! ### Two budgets -/

section Sample

/-- A row of a name, of foreign keys and of totals of nothing. -/
def openingRow (name : String) (keys : List (Name × String)) : ARow where
  col n :=
    if n = .name then .text name
    else if n ∈ [.totalDebit, .totalCredit, .totalPlannedAmount, .totalPracticalAmount] then .amount 0
    else .null
  key n := (keys.find? fun x => decide (x.1 = n)).map Prod.snd
  many _ := ∅

/-- An account with a category, and the budgets of two users. -/
def twoBudgets : ADb
  | .user => (Table.empty.insert "U1" (openingRow "One" [])).insert "U2" (openingRow "Two" [])
  | .account => Table.empty.insert "A" (openingRow "Main" [])
  | .accountCategory => Table.empty.insert "C" (openingRow "Food" [(.account, "A")])
  | .budget => (Table.empty.insert "B1" (openingRow "Year" [(.account, "A"), (.user, "U1")])).insert "B2"
      (openingRow "Holidays" [(.account, "A"), (.user, "U2")])
  | _ => .empty

theorem get_of_insert {k k' : String} {row row' : ARow} {t : Table String ARow}
    (h : (t.insert k row).get k' = some row') : k' = k ∧ row' = row ∨ t.get k' = some row' := by
  by_cases hk : k' = k
  · subst hk
    rw [Table.get_insert_self] at h
    exact .inl ⟨rfl, (Option.some.inj h).symm⟩
  · rw [Table.get_insert_of_ne hk] at h
    exact .inr h

theorem twoBudgets_plain {m : Model} {k : String} {row : ARow} (hrow : (twoBudgets m).get k = some row) :
    ∃ name keys, row = openingRow name keys := by
  cases m with
  | user =>
    rcases get_of_insert hrow with ⟨-, rfl⟩ | hrow
    · exact ⟨_, _, rfl⟩
    · obtain ⟨-, rfl⟩ := Table.get_insert_empty.mp hrow
      exact ⟨_, _, rfl⟩
  | budget =>
    rcases get_of_insert hrow with ⟨-, rfl⟩ | hrow
    · exact ⟨_, _, rfl⟩
    · obtain ⟨-, rfl⟩ := Table.get_insert_empty.mp hrow
      exact ⟨_, _, rfl⟩
  | account =>
    obtain ⟨-, rfl⟩ := Table.get_insert_empty.mp hrow
    exact ⟨_, _, rfl⟩
  | accountCategory =>
    obtain ⟨-, rfl⟩ := Table.get_insert_empty.mp hrow
    exact ⟨_, _, rfl⟩
  | _ => cases hrow

theorem twoBudgets_sound : Sound twoBudgets := by
  have hconstraints : Constraints twoBudgets := by decide +kernel
  have htotals : Totals twoBudgets := by
    refine ⟨fun k row hrow => ?_, fun k row hrow => ?_, fun k row hrow => ?_⟩
    · obtain ⟨name, keys, rfl⟩ := twoBudgets_plain hrow
      have hnone : ∀ p, sumMovements p twoBudgets k = 0 := fun p => rfl
      exact ⟨by rw [hnone]; rfl, by rw [hnone]; rfl, by rw [hnone]; rfl⟩
    · cases hrow
    · obtain ⟨name, keys, rfl⟩ := twoBudgets_plain hrow
      exact ⟨rfl, rfl⟩
  refine ⟨hconstraints, ⟨?_, ?_, ?_⟩, (consistent_iff_totals hconstraints).mpr htotals, ?_, fun m k row hrow => ?_⟩
  · intro k row hrow
    cases hrow
  · intro k row hrow
    cases hrow
  · intro k row hrow
    cases hrow
  · decide
  · obtain ⟨name, keys, rfl⟩ := twoBudgets_plain hrow
    rfl

def sampleFramework : Framework where
  validate _ _ _ := none
  order names := names
  order_perm _ := .refl _
  keyTaken := "Budget with this Id already exists."

/-- A user whose role grants the rules on the budgets they are in charge of. -/
def inCharge (user : String) : Actor :=
  ⟨some user, [some ["budget_manage_own", "budget_position_manage_own", "budget_line_manage_own"]]⟩

def sampleBody (names : Finset Name) (keys : List (Name × String)) : Body where
  names := names
  col n := if n = .plannedAmount then .amount (-700) else if n = .name then .text "Bread" else .null
  key n := (keys.find? fun x => decide (x.1 = n)).map Prod.snd

/-- Two users, each on both budgets. -/
def sampleCalls : List Call :=
  [⟨inCharge "U1", .positions, "B1", .create "P1" (sampleBody {.category} [(.category, "C")]), ⟨10, 10⟩⟩,
    ⟨inCharge "U2", .lines, "B1", .create "L1" (sampleBody {.name, .position, .plannedAmount} [(.position, "P1")]),
      ⟨10, 10⟩⟩,
    ⟨inCharge "U2", .positions, "B2", .create "P2" (sampleBody {.category} [(.category, "C")]), ⟨10, 10⟩⟩,
    ⟨inCharge "U1", .lines, "B1", .create "L2" (sampleBody {.name, .position, .plannedAmount} [(.position, "P1")]),
      ⟨10, 10⟩⟩,
    ⟨inCharge "U2", .positions, "B1", .delete "P1", ⟨10, 10⟩⟩,
    ⟨inCharge "U1", .positions, "B1", .resequence ["P1"] 0, ⟨10, 10⟩⟩]

theorem sampleCalls_new : NewKeys twoBudgets sampleCalls := ⟨by decide, by decide⟩

theorem requests_kept_sample : Totals (run sampleFramework twoBudgets sampleCalls).2 ∧
    ∀ x ∈ (run sampleFramework twoBudgets sampleCalls).1, x.2.Within x.1.budget :=
  (requests_kept sampleFramework sampleCalls twoBudgets_sound).2

/-- The first user has their budget as if they were alone. -/
theorem requests_isolated_sample : view "B1" (run sampleFramework twoBudgets sampleCalls).2
    = view "B1" (run sampleFramework twoBudgets (sampleCalls.filter fun c => c.budget = "B1")).2 := by
  have hnew : NewKeys twoBudgets (sampleCalls.filter fun c => c.budget = "B1") := ⟨by decide, by decide⟩
  exact (requests_isolated sampleFramework "B1" sampleCalls twoBudgets_sound twoBudgets_sound rfl sampleCalls_new
    hnew).2

end Sample

end Totem.Budgets.Nested
