import Totem.Budgets.Totals

/-!
# Totem.Budgets.Scoping — which account a category, a position or a line belongs to

`validate_data` of the movement, position and line services, and the keys `BudgetLineQuerySet` derives: a
category scoped to an account stays on the movements and the budgets of this account, and a line follows
its position.

* `Scoped`: the three invariants.
* `scoped_insertRows`, `scoped_updateRows`, `scoped_deleteRows`: what one write keeps.
* `scoped_kept`: any sequence of operations.
-/

namespace Totem.Budgets

open Totem.Lib Totem.Computed

/-- The account of a category is null when it is general. -/
structure Scoped (db : ADb) : Prop where
  movement : ∀ k row, (db .accountMovement).get k = some row →
    keyOf db .accountCategory .account (row.key .category) = none ∨
    keyOf db .accountCategory .account (row.key .category) = row.key .account
  position : ∀ k row, (db .budgetPosition).get k = some row →
    keyOf db .accountCategory .account (row.key .category) = none ∨
    keyOf db .accountCategory .account (row.key .category) = keyOf db .budget .account (row.key .budget)
  line : ∀ k row, (db .budgetLine).get k = some row →
    row.key .budget = keyOf db .budgetPosition .budget (row.key .position)

section Keys

variable {db db' : ADb} {clock : Clock} {m m' : Model} {n : Name} {k : String} {row : ARow}

/-- The same keys on the rows referred to. -/
theorem keyOf_congr {o : Option String}
    (h : ∀ k, o = some k → ((db' m).get k).map (fun row => row.key n) = ((db m).get k).map fun row => row.key n) :
    keyOf db' m n o = keyOf db m n o := by
  cases o with
  | none => rfl
  | some k =>
    have hk := h k rfl
    simp only [keyOf, Option.bind_some]
    cases hrow : (db m).get k with
    | none =>
      rw [hrow, Option.map_none, Option.map_eq_none_iff] at hk
      rw [hk]
    | some row =>
      rw [hrow, Option.map_some, Option.map_eq_some_iff] at hk
      obtain ⟨row', hrow', heq⟩ := hk
      rw [hrow', Option.bind_some, Option.bind_some, heq]

theorem movement_category : HasKey .accountMovement .category .accountCategory := by decide

theorem position_category : HasKey .budgetPosition .category .accountCategory := by decide

theorem position_budget : HasKey .budgetPosition .budget .budget := by decide

theorem line_position : HasKey .budgetLine .position .budgetPosition := by decide

/-! ## What is validated -/

/-- The category given to a movement. -/
theorem movement_valid {today : ℕ} {names : Finset Name} {data : ARow} {existing : Option ARow}
    (h : validateData db today .accountMovement names data existing = []) (hn : .category ∈ names) :
    keyOf db .accountCategory .account (data.key .category) = none ∨
      keyOf db .accountCategory .account (data.key .category) = (existing.getD data).key .account := by
  unfold validateData at h
  simp only [hn, if_true, List.append_eq_nil_iff, ite_eq_right_iff, List.cons_ne_nil] at h
  by_contra hnot
  rw [not_or] at hnot
  exact h.2 hnot

/-- The category given to a position. -/
theorem position_valid {today : ℕ} {names : Finset Name} {data : ARow} {existing : Option ARow}
    (h : validateData db today .budgetPosition names data existing = []) (hn : .category ∈ names) :
    keyOf db .accountCategory .account (data.key .category) = none ∨
      keyOf db .accountCategory .account (data.key .category) =
        keyOf db .budget .account ((existing.getD data).key .budget) := by
  unfold validateData at h
  simp only [hn, if_true, ite_eq_right_iff, List.cons_ne_nil] at h
  by_contra hnot
  rw [not_or] at hnot
  exact h hnot

/-! ## The refresh -/

theorem keyOf_refreshed (h : Refreshed accounts db db') (m : Model) (n : Name) (o : Option String) :
    keyOf db' m n o = keyOf db m n o := by
  apply keyOf_congr
  intro k _
  cases hrow : (db m).get k with
  | none => rw [h.gone m k hrow]
  | some row =>
    obtain ⟨row', hrow', hkey, -, -⟩ := h.rows m k row hrow
    rw [hrow', Option.map_some, Option.map_some, hkey]

theorem Scoped.refreshed (hs : Scoped db) (h : Refreshed accounts db db') : Scoped db' where
  movement := by
    intro k row' hrow'
    obtain ⟨row, hrow, hkey, -, -⟩ := h.row_of hrow'
    rw [keyOf_refreshed h, hkey]
    exact hs.movement k row hrow
  position := by
    intro k row' hrow'
    obtain ⟨row, hrow, hkey, -, -⟩ := h.row_of hrow'
    rw [keyOf_refreshed h, keyOf_refreshed h, hkey]
    exact hs.position k row hrow
  line := by
    intro k row' hrow'
    obtain ⟨row, hrow, hkey, -, -⟩ := h.row_of hrow'
    rw [keyOf_refreshed h, hkey]
    exact hs.line k row hrow

/-! ## Creations -/

theorem newRow_key {data : ARow} (hn : n ∈ createFields m) (hline : m = .budgetLine → n ≠ .budget)
    (now : ℕ) : (newRow db now m data).key n = data.key n := by
  have hnot : ¬ (m = .budgetLine ∧ n = .budget) := fun h => hline h.1 h.2
  simp [newRow, Schema.writeRow, hn, hnot]

/-- A row that was there refers to the rows it referred to. -/
theorem keyOf_insertRows (hk : Constraints db) {rows : Table String ARow}
    (hnew : ∀ k ∈ rows.keys, (db m).get k = none) {m₁ : Model} {n₁ : Name}
    (hkey : HasKey m₁ n₁ m') (hrow : (db m₁).get k = some row) (n : Name) :
    keyOf (insertRows db m rows) m' n (row.key n₁) = keyOf db m' n (row.key n₁) := by
  apply keyOf_congr
  intro y hy
  obtain ⟨row', hrow'⟩ := hk.references m₁ n₁ m' hkey k row y hrow hy
  rw [insertRows_old hnew hrow', hrow']

theorem keyOf_insertRows_of_ne {rows : Table String ARow} (hm : m' ≠ m) (n : Name) (o : Option String) :
    keyOf (insertRows db m rows) m' n o = keyOf db m' n o := by
  apply keyOf_congr
  intro y _
  simp [insertRows, hm]

theorem scoped_insertRows (hk : Constraints db) (hs : Scoped db) {rows : Table String ARow}
    (hnew : ∀ k ∈ rows.keys, (db m).get k = none)
    (hvalid : ∀ k data, rows.get k = some data →
      validateData db clock.today m (createFields m) data none = []) :
    Scoped (insertRows db m (rows.map fun _ data => newRow db clock.now m data)) := by
  have hnew' : ∀ k ∈ (rows.map fun _ data => newRow db clock.now m data).keys, (db m).get k = none := hnew
  constructor
  · intro k row hrow
    rcases insertRows_cases hrow with hold | ⟨rfl, hfresh⟩
    · rw [keyOf_insertRows hk hnew' movement_category hold]
      exact hs.movement k row hold
    · obtain ⟨data, hdata, rfl⟩ := Option.map_eq_some_iff.mp hfresh
      rw [keyOf_insertRows_of_ne (by decide), newRow_key (by decide) (by decide),
        newRow_key (by decide) (by decide)]
      exact movement_valid (hvalid k data hdata) (by decide)
  · intro k row hrow
    rcases insertRows_cases hrow with hold | ⟨rfl, hfresh⟩
    · rw [keyOf_insertRows hk hnew' position_category hold, keyOf_insertRows hk hnew' position_budget hold]
      exact hs.position k row hold
    · obtain ⟨data, hdata, rfl⟩ := Option.map_eq_some_iff.mp hfresh
      rw [keyOf_insertRows_of_ne (by decide), keyOf_insertRows_of_ne (by decide),
        newRow_key (by decide) (by decide), newRow_key (by decide) (by decide)]
      exact position_valid (hvalid k data hdata) (by decide)
  · intro k row hrow
    rcases insertRows_cases hrow with hold | ⟨rfl, hfresh⟩
    · rw [keyOf_insertRows hk hnew' line_position hold]
      exact hs.line k row hold
    · obtain ⟨data, hdata, rfl⟩ := Option.map_eq_some_iff.mp hfresh
      rw [keyOf_insertRows_of_ne (by decide)]
      -- `bulk_create` reads the budget off the position
      have hposition : (newRow db clock.now .budgetLine data).key .position = data.key .position :=
        newRow_key (by decide) (by decide) clock.now
      rw [hposition]
      simp [newRow, Schema.writeRow, createFields]

/-! ## Updates -/

variable {pks : Finset String} {names : Finset Name} {data row' : ARow}

/-- No update writes the key `n` of `m`. -/
def FixedKey (m : Model) (n : Name) : Prop :=
  ∀ f ∈ fields m, f.name = n → Disjoint f.names (written m (updateFields m))

instance (m : Model) (n : Name) : Decidable (FixedKey m n) :=
  inferInstanceAs (Decidable (∀ f ∈ fields m, f.name = n → Disjoint f.names (written m (updateFields m))))

theorem not_mem_written (hnames : names ⊆ updateFields m) {f : AField} (hf : f ∈ fields m)
    (hfixed : FixedKey m f.name) : ∀ n ∈ f.names, n ∉ written m names :=
  fun _ hn hmem => Finset.disjoint_left.mp (hfixed f hf rfl) hn (written_mono hnames hmem)

/-- A key of which no name is written. -/
theorem writeRow_of_not_mem {f : AField} (hf : f ∈ fields m) (hnot : ∀ n ∈ f.names, n ∉ names)
    (new : ARow) : (accounts.writeRow m names new row).key f.name = row.key f.name := by
  refine if_neg ?_
  rintro (hmem | hany)
  · exact hnot f.name f.name_mem hmem
  · obtain ⟨g, hg, hg'⟩ := List.any_eq_true.mp hany
    rw [decide_eq_true_eq] at hg'
    obtain rfl := accounts.field_unique hg hf hg'.1
    exact hnot _ g.attname_mem hg'.2

theorem writeRow_fixed (hnames : names ⊆ updateFields m) {target : Model} (hkey : HasKey m n target)
    (hfixed : FixedKey m n) (new : ARow) :
    (accounts.writeRow m (written m names) new row).key n = row.key n := by
  obtain ⟨f, hf, rfl, -⟩ := hkey
  exact writeRow_of_not_mem hf (not_mem_written hnames hf hfixed) new

/-- A key that an update names by the field is written when it is named. -/
theorem writeRow_key {target : Model} (hkey : HasKey m n target)
    (hnot : ∀ f ∈ fields m, f.name = n → f.attname ∉ written m (updateFields m))
    (hnames : names ⊆ updateFields m) (new : ARow) :
    (accounts.writeRow m (written m names) new row).key n =
      if n ∈ written m names then new.key n else row.key n := by
  obtain ⟨f, hf, rfl, -⟩ := hkey
  have hany : ¬ (accounts.fields m).any
      (fun g => decide (g.name = f.name ∧ g.attname ∈ written m names)) = true := by
    intro hany
    obtain ⟨g, hg, hg'⟩ := List.any_eq_true.mp hany
    rw [decide_eq_true_eq] at hg'
    exact hnot g hg hg'.1 (written_mono hnames hg'.2)
  simp only [Schema.writeRow, hany, Bool.false_eq_true, or_false]

theorem mem_of_mem_written (hn : n ∈ written m names) (hdate : n ≠ .updateDate) (hbudget : n ≠ .budgetId) :
    n ∈ names := by
  rcases mem_written hn with hn | h | ⟨-, h⟩
  · exact hn
  · exact absurd h hdate
  · exact absurd h hbudget

theorem mem_written_of_mem {n : Name} (hn : n ∈ names) : n ∈ written m names := by
  unfold written
  split_ifs <;> simp [hn]

/-- The keys an update does not write. -/
theorem keyOf_updateRows (hnames : names ⊆ updateFields m) {target : Model} (hkey : HasKey m' n target)
    (hfixed : FixedKey m' n) (values : String → ARow) (o : Option String) :
    keyOf (accounts.updateRows db m pks (written m names) values) m' n o = keyOf db m' n o := by
  apply keyOf_congr
  intro k _
  cases hrow : (db m').get k with
  | none => rw [updates_updateRows.get_eq_none hrow]
  | some row =>
    have hup : Updates accounts m pks (written m names) db
        (accounts.updateRows db m pks (written m names) values) := updates_updateRows
    obtain ⟨row', hrow', -⟩ := hup.row hrow
    obtain ⟨row₀, hrow₀, hcases⟩ := updateRows_cases hrow'
    obtain rfl := Option.some.inj (hrow.symm.trans hrow₀)
    rw [hrow', Option.map_some, Option.map_some]
    rcases hcases with rfl | ⟨rfl, -, rfl⟩
    · rfl
    · rw [writeRow_fixed hnames hkey hfixed]

theorem scoped_updateRows (hs : Scoped db) (hnames : names ⊆ updateFields m)
    (hvalid : ∀ k ∈ pks, ∃ row, (db m).get k = some row ∧
      validateData db clock.today m names data (some row) = []) :
    Scoped (accounts.updateRows db m pks (written m names) fun _ => newValues db clock.now m data) := by
  have hkeyOf : ∀ m' n target o, HasKey m' n target → FixedKey m' n →
      keyOf (accounts.updateRows db m pks (written m names) fun _ => newValues db clock.now m data) m' n o =
        keyOf db m' n o := fun m' n target o hkey hfixed => keyOf_updateRows hnames hkey hfixed _ o
  constructor
  · intro k row' hrow'
    obtain ⟨row, hrow, rfl | ⟨rfl, hk, rfl⟩⟩ := updateRows_cases hrow'
    · rw [hkeyOf _ _ .account _ (by decide) (by decide)]
      exact hs.movement k row' hrow
    · rw [hkeyOf _ _ .account _ (by decide) (by decide), writeRow_fixed hnames
        (by decide : HasKey .accountMovement .account .account) (by decide),
        writeRow_key movement_category (by decide) hnames]
      split
      · rename_i hn
        obtain ⟨row₀, hrow₀, hv⟩ := hvalid k hk
        obtain rfl := Option.some.inj (hrow.symm.trans hrow₀)
        exact movement_valid hv (mem_of_mem_written hn (by decide) (by decide))
      · exact hs.movement k row hrow
  · intro k row' hrow'
    obtain ⟨row, hrow, rfl | ⟨rfl, hk, rfl⟩⟩ := updateRows_cases hrow'
    · rw [hkeyOf _ _ .account _ (by decide) (by decide), hkeyOf _ _ .account _ (by decide) (by decide)]
      exact hs.position k row' hrow
    · rw [hkeyOf _ _ .account _ (by decide) (by decide), hkeyOf _ _ .account _ (by decide) (by decide),
        writeRow_fixed hnames position_budget (by decide),
        writeRow_key position_category (by decide) hnames]
      split
      · rename_i hn
        obtain ⟨row₀, hrow₀, hv⟩ := hvalid k hk
        obtain rfl := Option.some.inj (hrow.symm.trans hrow₀)
        exact position_valid hv (mem_of_mem_written hn (by decide) (by decide))
      · exact hs.position k row hrow
  · intro k row' hrow'
    obtain ⟨row, hrow, rfl | ⟨rfl, hk, rfl⟩⟩ := updateRows_cases hrow'
    · rw [hkeyOf _ _ .budget _ (by decide) (by decide)]
      exact hs.line k row' hrow
    · rw [hkeyOf _ _ .budget _ (by decide) (by decide), writeRow_key line_position (by decide) hnames]
      by_cases hn : .position ∈ names
      · -- the budget is written with the position
        rw [if_pos (mem_written_of_mem hn)]
        simp [Schema.writeRow, written, isStamped, hn, newValues, accounts, fields, budgetLine, columns,
          Field.attname]
      · have hnot : .position ∉ written .budgetLine names :=
          fun h => hn (mem_of_mem_written h (by decide) (by decide))
        have hwritten : written .budgetLine names = names := by simp [written, isStamped, hn]
        have hbudget : ∀ n ∈ ({.budget, .budgetId} : Finset Name), n ∉ names := by
          intro n hn hmem
          have hfields : Disjoint ({.budget, .budgetId} : Finset Name) (updateFields .budgetLine) := by decide
          exact Finset.disjoint_left.mp hfields hn (hnames hmem)
        have hkept : (accounts.writeRow .budgetLine names (newValues db clock.now .budgetLine data) row).key
            .budget = row.key .budget :=
          writeRow_of_not_mem (f := ⟨.budget, .foreignKey .budget .budgetId none .cascade (some .lines)⟩)
            (by simp [fields, budgetLine]) hbudget _
        rw [if_neg hnot, hwritten, hkept]
        exact hs.line k row hrow

/-! ## Deletions -/

variable {m₀ : Model} {c : Collection Model Name String}

/-- A cascading foreign key. -/
def HasCascade (m : Model) (n : Name) (target : Model) : Prop :=
  ∃ f ∈ fields m, f.name = n ∧ f.target = some target ∧ f.onDelete = some .cascade

instance (m : Model) (n : Name) (target : Model) : Decidable (HasCascade m n target) :=
  inferInstanceAs (Decidable (∃ f ∈ fields m, f.name = n ∧ f.target = some target ∧
    f.onDelete = some .cascade))

/-- The key `n` of `m` is not rewritten when the row it points to is deleted. -/
def KeptKey (m : Model) (n : Name) : Prop := ∃ f ∈ fields m, f.name = n ∧ f.newKey = none

instance (m : Model) (n : Name) : Decidable (KeptKey m n) :=
  inferInstanceAs (Decidable (∃ f ∈ fields m, f.name = n ∧ f.newKey = none))

theorem rewrite_kept (hc : Collects accounts db m₀ pks c) (h : KeptKey m n) :
    (c.rewrite accounts m k row).key n = row.key n := by
  obtain ⟨f, hf, rfl, hnew⟩ := h
  exact hc.rewrite_key_eq hf hnew

/-- The key of the row that a row that stays points to by a cascading key. -/
theorem keyOf_deleteRows (hc : Collects accounts db m₀ pks c) {n₁ : Name}
    (hcascade : HasCascade m n₁ m') (hkept : KeptKey m' n) (hrow : (db m).get k = some row)
    (hk : k ∉ c.deleted m) :
    keyOf (deleteRows accounts c db) m' n (row.key n₁) = keyOf db m' n (row.key n₁) := by
  obtain ⟨f, hf, rfl, htarget, honDelete⟩ := hcascade
  apply keyOf_congr
  intro y hy
  have hstays := hc.stays hf htarget honDelete hrow hk hy
  rw [deleteRows_get, if_neg hstays]
  cases (db m').get y with
  | none => rfl
  | some row' => simp [rewrite_kept hc hkept]

/-- The account of a category: there is none when the category is deleted. -/
theorem keyOf_deleteRows_or (hc : Collects accounts db m₀ pks c) (hkept : KeptKey m' n)
    (o : Option String) :
    keyOf (deleteRows accounts c db) m' n o = none ∨
      keyOf (deleteRows accounts c db) m' n o = keyOf db m' n o := by
  cases o with
  | none => exact .inl rfl
  | some y =>
    simp only [keyOf, Option.bind_some, deleteRows_get]
    split
    · exact .inl rfl
    · right
      cases (db m').get y with
      | none => rfl
      | some row' => simp [rewrite_kept hc hkept]

theorem scoped_deleteRows (hs : Scoped db) (hc : Collects accounts db m₀ pks c) :
    Scoped (deleteRows accounts c db) where
  movement := by
    intro k row' hrow'
    obtain ⟨hk, row, hrow, rfl⟩ := deleteRows_some.mp hrow'
    rw [rewrite_kept hc (by decide : KeptKey .accountMovement .account)]
    -- the category is the one it was, or null
    have hcategory : (c.rewrite accounts .accountMovement k row).key .category = none ∨
        (c.rewrite accounts .accountMovement k row).key .category = row.key .category := by
      obtain ⟨f, hf, hname, -⟩ := movement_category
      have hnull : ∀ f ∈ fields .accountMovement, f.newKey.join = none := by decide
      rw [← hname, rewrite_key hf, hnull f hf]
      split
      · exact .inl rfl
      · exact .inr rfl
    rcases hcategory with hnull | hsame
    · rw [hnull]
      exact .inl rfl
    · rw [hsame]
      rcases keyOf_deleteRows_or hc (by decide : KeptKey .accountCategory .account) (row.key .category)
        with h | h
      · exact .inl h
      · rw [h]
        exact hs.movement k row hrow
  position := by
    intro k row' hrow'
    obtain ⟨hk, row, hrow, rfl⟩ := deleteRows_some.mp hrow'
    rw [rewrite_kept hc (by decide : KeptKey .budgetPosition .category),
      rewrite_kept hc (by decide : KeptKey .budgetPosition .budget),
      keyOf_deleteRows hc (by decide : HasCascade .budgetPosition .category .accountCategory)
        (by decide) hrow hk,
      keyOf_deleteRows hc (by decide : HasCascade .budgetPosition .budget .budget) (by decide) hrow hk]
    exact hs.position k row hrow
  line := by
    intro k row' hrow'
    obtain ⟨hk, row, hrow, rfl⟩ := deleteRows_some.mp hrow'
    rw [rewrite_kept hc (by decide : KeptKey .budgetLine .position),
      rewrite_kept hc (by decide : KeptKey .budgetLine .budget),
      keyOf_deleteRows hc (by decide : HasCascade .budgetLine .position .budgetPosition)
        (by decide) hrow hk]
    exact hs.line k row hrow

end Keys

/-! ## Operations -/

/-- **One operation.** -/
theorem Serves.scoped {db db' : ADb} {e : Request × Clock} (h : Serves db e db') (hk : Constraints db)
    (hs : Scoped db) : Scoped db' := by
  cases h with
  | refused => exact hs
  | create hm hnew hvalid hexit _ =>
    exact (scoped_insertRows hk hs hnew hvalid).refreshed (State.exit_refreshed hexit)
  | update hnames hvalid hexit _ =>
    exact (scoped_updateRows hs hnames hvalid).refreshed (State.exit_refreshed hexit)
  | delete hm hc hexit _ =>
    obtain ⟨s₁, hdelete, hexit⟩ := Option.bind_eq_some_iff.mp hexit
    unfold State.delete at hdelete
    split_ifs at hdelete
    obtain rfl := Option.some.inj hdelete
    exact (scoped_deleteRows hs hc).refreshed (State.exit_refreshed hexit)

/-- **The scopes after any sequence of operations.** -/
theorem scoped_kept {db db' : ADb} {es : List (Request × Clock)} (hk : Constraints db) (hs : Scoped db)
    (hr : Run Serves db es db') : Constraints db' ∧ Scoped db' := by
  have hstep : ∀ db e db', Constraints db ∧ Scoped db → Serves db e db' → Constraints db' ∧ Scoped db' :=
    fun db e db' hdb h => ⟨h.constraints hdb.1, h.scoped hdb.1 hdb.2⟩
  exact hr.invariant hstep ⟨hk, hs⟩

theorem scoped_kept_sample : ∃ db, Run Serves (fun _ => .empty) sampleRequests db ∧ Scoped db ∧
    ((db .accountMovement).get "M").isSome ∧ ((db .budgetPosition).get "P").isSome ∧
      ((db .budgetLine).get "L").isSome := by
  obtain ⟨db, hr, -, hposition, hmovement, hline⟩ := sampleRequests_run
  have hempty : Scoped fun _ => .empty := ⟨by simp, by simp, by simp⟩
  have hsome := congrArg Option.isSome hposition
  rw [Option.isSome_map] at hsome
  exact ⟨db, hr, (scoped_kept constraints_empty hempty hr).2, hmovement, hsome, hline⟩

end Totem.Budgets
