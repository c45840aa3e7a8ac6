import Totem.Services.Scope

/-!
# Totem.Services.Create — the access check of a creation

`CreateMixin._create_atomic`: the rows are inserted, the rows of the scoped queryset among them are counted, and
the many-to-many rows are written if the count is the length of the batch.

* `length_checked`: the count is that of the matches of the created rows, as they are before their many-to-many
  rows.
* `create_exact_iff`: the check is exact when every created row matches at most once, and then just in case it is
  allowed; with all other rows allowed, it is exact only so.
-/

namespace Totem.Services

open Lib

variable {Model User Pk R Rel J Link : Type}

/-! ## The database -/

/-- The rows of the model, and those of its many-to-many relations. -/
structure Db (R Link : Type) where
  rows : List R
  links : List Link
  deriving DecidableEq

/-- Values that pass validation and the constraints of the database: the rows as they are inserted, each with the
many-to-many rows to add for it. -/
structure Batch (pk : R → Pk) (db : Db R Link) where
  items : List (R × List Link)
  pk_nodup : ((db.rows ++ items.map Prod.fst).map pk).Nodup

namespace Batch

variable {pk : R → Pk} {db : Db R Link}

def instances (batch : Batch pk db) : List R := batch.items.map Prod.fst

/-- The database once `bulk_create` has run. -/
def inserted (batch : Batch pk db) : Db R Link := { db with rows := db.rows ++ batch.instances }

/-- The database once the many-to-many rows are added too. -/
def written (batch : Batch pk db) : Db R Link :=
  { batch.inserted with links := db.links ++ batch.items.flatMap Prod.snd }

end Batch

inductive Response
  | created
  | permissionDenied
  deriving DecidableEq

section

variable [DecidableEq Model] [DecidableEq Pk] (joinsOf : Db R Link → Joins R Rel J)
  (env : Environment Model User R Rel J) (model : Model) {pk : R → Pk} {db : Db R Link}

/-- `scoped_queryset.filter(pk__in=[obj.pk for obj in instances])`. -/
def checked (batch : Batch pk db) : List R :=
  select (joinsOf batch.inserted) batch.inserted.rows
    (applyAccessRules env model "create" ++ [.column fun r => decide (pk r ∈ batch.instances.map pk)])

/-- `_create`: the response, and the database as the transaction leaves it. -/
def create (batch : Batch pk db) : Response × Db R Link :=
  if (checked joinsOf env model batch).length ≠ batch.instances.length then (.permissionDenied, db)
  else (.created, batch.written)

/-- The row satisfies the composed access filter, with the many-to-many rows of the creation. -/
def Allowed (batch : Batch pk db) (r : R) : Prop :=
  Selects (joinsOf batch.written) (applyAccessRules env model "create") r

def AllAllowed (batch : Batch pk db) : Prop :=
  ∀ r ∈ batch.instances, Allowed joinsOf env model batch r

instance (batch : Batch pk db) (r : R) : Decidable (Allowed joinsOf env model batch r) :=
  inferInstanceAs (Decidable (Selects _ _ r))

instance (batch : Batch pk db) : Decidable (AllAllowed joinsOf env model batch) :=
  inferInstanceAs (Decidable (∀ r ∈ batch.instances, _))

/-- The creation commits if every created row is allowed, and otherwise changes nothing. -/
def Exact (batch : Batch pk db) : Prop :=
  (AllAllowed joinsOf env model batch → create joinsOf env model batch = (.created, batch.written)) ∧
  (¬ AllAllowed joinsOf env model batch → create joinsOf env model batch = (.permissionDenied, db))

/-- The matches of a created row when the check is made. -/
def matchCount (batch : Batch pk db) (r : R) : ℕ :=
  rowCount (joinsOf batch.inserted) (applyAccessRules env model "create") r

/-- The row is joined to one match at most when the check is made, and to one just in case it is allowed. -/
def Judged (batch : Batch pk db) (r : R) : Prop :=
  matchCount joinsOf env model batch r ≤ 1 ∧
    (0 < matchCount joinsOf env model batch r ↔ Allowed joinsOf env model batch r)

instance (batch : Batch pk db) (r : R) : Decidable (Judged joinsOf env model batch r) :=
  inferInstanceAs (Decidable (_ ∧ _))

end

section

variable [DecidableEq Model] [DecidableEq Pk] {joinsOf : Db R Link → Joins R Rel J}
  {env : Environment Model User R Rel J} {model : Model} {pk : R → Pk} {db : Db R Link}

/-! ## What is counted -/

omit [DecidableEq Pk] in
theorem Batch.pk_not_mem (batch : Batch pk db) {r : R} (hr : r ∈ db.rows) :
    pk r ∉ batch.instances.map pk := by
  have hnodup := batch.pk_nodup
  rw [List.map_append, List.nodup_append] at hnodup
  exact fun hmem => hnodup.2.2 _ (List.mem_map_of_mem hr) _ hmem rfl

omit [DecidableEq Model] [DecidableEq Pk] in
theorem sum_map_eq_zero {f : R → ℕ} {rows : List R} (h : ∀ r ∈ rows, f r = 0) : (rows.map f).sum = 0 := by
  induction rows with
  | nil => rfl
  | cons r rows ih =>
    rw [List.map_cons, List.sum_cons, h r (List.mem_cons_self ..), ih fun s hs => h s (List.mem_cons_of_mem _ hs)]

/-- **The check counts the matches of the created rows.** -/
theorem length_checked (batch : Batch pk db) :
    (checked joinsOf env model batch).length
      = (batch.instances.map (matchCount joinsOf env model batch)).sum := by
  have hmult : ∀ r, rowCount (joinsOf batch.inserted)
      (applyAccessRules env model "create" ++ [.column fun r => decide (pk r ∈ batch.instances.map pk)]) r
      = matchCount joinsOf env model batch r * if pk r ∈ batch.instances.map pk then 1 else 0 := by
    intro r
    rw [rowCount_append]
    simp only [rowCount, List.map_cons, List.map_nil, List.prod_cons, List.prod_nil, mul_one,
      Cond.hits_column, decide_eq_true_eq]
    rfl
  have hold : (db.rows.map fun r => matchCount joinsOf env model batch r *
      if pk r ∈ batch.instances.map pk then 1 else 0).sum = 0 := by
    refine sum_map_eq_zero fun r hr => ?_
    rw [if_neg (batch.pk_not_mem hr), Nat.mul_zero]
  have hnew : (batch.instances.map fun r => matchCount joinsOf env model batch r *
      if pk r ∈ batch.instances.map pk then 1 else 0)
      = batch.instances.map (matchCount joinsOf env model batch) := by
    refine List.map_congr_left fun r hr => ?_
    rw [if_pos (List.mem_map_of_mem hr), Nat.mul_one]
  rw [checked, length_select, List.map_congr_left fun r _ => hmult r]
  show ((db.rows ++ batch.instances).map _).sum = _
  rw [List.map_append, List.sum_append, hold, hnew, Nat.zero_add]

/-- The creation commits exactly when the created rows have as many matches as there are rows. -/
theorem create_created_iff (batch : Batch pk db) :
    create joinsOf env model batch = (.created, batch.written) ↔
      (batch.instances.map (matchCount joinsOf env model batch)).sum = batch.instances.length := by
  rw [← length_checked]
  unfold create
  split_ifs with h
  · exact iff_of_false (by simp) h
  · exact iff_of_true rfl (not_not.1 h)

theorem create_denied_iff (batch : Batch pk db) :
    create joinsOf env model batch = (.permissionDenied, db) ↔
      ¬ create joinsOf env model batch = (.created, batch.written) := by
  unfold create
  split_ifs with h <;> simp

theorem exact_iff (batch : Batch pk db) :
    Exact joinsOf env model batch ↔
      (AllAllowed joinsOf env model batch ↔
        (batch.instances.map (matchCount joinsOf env model batch)).sum = batch.instances.length) := by
  rw [Exact, create_denied_iff, create_created_iff]
  tauto

/-! ## When the check is exact -/

omit [DecidableEq Model] [DecidableEq Pk] in
theorem sum_le_length {f : R → ℕ} {rows : List R} (h : ∀ r ∈ rows, f r ≤ 1) : (rows.map f).sum ≤ rows.length := by
  induction rows with
  | nil => exact Nat.le_refl 0
  | cons r rows ih =>
    have hr := h r (List.mem_cons_self ..)
    have hrows := ih fun s hs => h s (List.mem_cons_of_mem _ hs)
    rw [List.map_cons, List.sum_cons, List.length_cons]
    omega

omit [DecidableEq Model] [DecidableEq Pk] in
/-- Counts of at most one add up to the number of rows exactly when none of them is zero. -/
theorem sum_eq_length_iff {f : R → ℕ} {rows : List R} (h : ∀ r ∈ rows, f r ≤ 1) :
    (rows.map f).sum = rows.length ↔ ∀ r ∈ rows, 0 < f r := by
  induction rows with
  | nil => simp
  | cons r rows ih =>
    have hr := h r (List.mem_cons_self ..)
    have hrows : ∀ s ∈ rows, f s ≤ 1 := fun s hs => h s (List.mem_cons_of_mem _ hs)
    have hle := sum_le_length hrows
    rw [List.map_cons, List.sum_cons, List.length_cons, List.forall_mem_cons, ← ih hrows]
    omega

omit [DecidableEq Model] [DecidableEq Pk] in
/-- Counts that are one but for one row. -/
theorem sum_eq_of_others {f : R → ℕ} {rows : List R} (hnodup : rows.Nodup) {r₀ : R} (hmem : r₀ ∈ rows)
    (h : ∀ r ∈ rows, r ≠ r₀ → f r = 1) : (rows.map f).sum + 1 = rows.length + f r₀ := by
  obtain ⟨before, after, rfl⟩ := List.append_of_mem hmem
  have hother : ∀ r ∈ before ++ after, f r = 1 := by
    intro r hr
    have hne : r ≠ r₀ := by
      rintro rfl
      exact (List.nodup_middle.1 hnodup).notMem hr
    refine h r ?_ hne
    rcases List.mem_append.1 hr with hr | hr
    · exact List.mem_append_left _ hr
    · exact List.mem_append_right _ (List.mem_cons_of_mem _ hr)
  have hones : ∀ rows : List R, (∀ r ∈ rows, f r = 1) → (rows.map f).sum = rows.length := by
    intro rows hrows
    rw [List.map_congr_left hrows]
    simp
  rw [List.map_append, List.sum_append, List.map_cons, List.sum_cons, List.length_append, List.length_cons,
    hones before fun r hr => hother r (List.mem_append_left _ hr),
    hones after fun r hr => hother r (List.mem_append_right _ hr)]
  omega

omit [DecidableEq Pk] in
theorem Batch.instances_nodup (batch : Batch pk db) : batch.instances.Nodup := by
  have hnodup := batch.pk_nodup
  rw [List.map_append, List.nodup_append] at hnodup
  exact hnodup.2.1.of_map

omit [DecidableEq Pk] in
theorem Judged.count_eq_one {batch : Batch pk db} {r : R} (h : Judged joinsOf env model batch r)
    (hallowed : Allowed joinsOf env model batch r) : matchCount joinsOf env model batch r = 1 := by
  have hpos := h.2.2 hallowed
  have hle := h.1
  omega

/-- Where every created row is judged by its own match, the check is exact. -/
theorem exact_of_judged {batch : Batch pk db}
    (h : ∀ r ∈ batch.instances, Judged joinsOf env model batch r) : Exact joinsOf env model batch := by
  rw [exact_iff, sum_eq_length_iff (fun r hr => (h r hr).1)]
  exact forall_congr' fun r => forall_congr' fun hr => (h r hr).2.symm

/-- Where all other rows are allowed, and judged so, the check is exact just in case it judges the row left. -/
theorem exact_iff_of_others {batch : Batch pk db} {r₀ : R} (hmem : r₀ ∈ batch.instances)
    (h : ∀ r ∈ batch.instances, r ≠ r₀ →
      Judged joinsOf env model batch r ∧ Allowed joinsOf env model batch r) :
    Exact joinsOf env model batch ↔
      (Allowed joinsOf env model batch r₀ ↔ matchCount joinsOf env model batch r₀ = 1) := by
  have hsum := sum_eq_of_others batch.instances_nodup hmem
    fun r hr hne => (h r hr hne).1.count_eq_one (h r hr hne).2
  have hall : AllAllowed joinsOf env model batch ↔ Allowed joinsOf env model batch r₀ := by
    refine ⟨fun hall => hall r₀ hmem, fun hallowed r hr => ?_⟩
    by_cases hne : r = r₀
    · rw [hne]
      exact hallowed
    · exact (h r hr hne).2
  have hcount : (batch.instances.map (matchCount joinsOf env model batch)).sum = batch.instances.length ↔
      matchCount joinsOf env model batch r₀ = 1 := by omega
  rw [exact_iff, hall, hcount]

end

/-! ## Orders of accounts with teams -/

inductive OrderRel
  /-- `account__teams` -/
  | teams
  /-- `tags`, a many-to-many relation of the order. -/
  | tags
  deriving DecidableEq

/-- An order is its key and its account; a link is an order and a tag.  Account 1 has the teams 10 and 11,
account 2 the team 12. -/
def orderJoins (db : Db (ℕ × ℕ) (ℕ × ℕ)) : Joins (ℕ × ℕ) OrderRel ℕ where
  rows
    | [], _ => [0]
    | .teams :: _, order => if order.2 = 1 then [10, 11] else [12]
    | .tags :: _, order => (db.links.filter fun link => decide (link.1 = order.1)).map Prod.snd
  rows_nil _ := rfl

/-- The rule of a user of some teams. -/
def teamRule (teams : List ℕ) : Rule Unit Unit (ℕ × ℕ) OrderRel ℕ where
  identifier := "order_team"
  model := ()
  operations := ["create"]
  scopeFilter _ := .related [.teams] fun _ team => decide (team ∈ teams)

/-- The rule that an order has the tag 5. -/
def tagRule : Rule Unit Unit (ℕ × ℕ) OrderRel ℕ where
  identifier := "order_tag"
  model := ()
  operations := ["create"]
  scopeFilter _ := .related [.tags] fun _ tag => decide (tag = 5)

/-- An order of each account: the second one is out of reach. -/
def mixedBatch : Batch Prod.fst (⟨[], []⟩ : Db (ℕ × ℕ) (ℕ × ℕ)) := ⟨[((1, 1), []), ((2, 2), [])], by decide⟩

/-- An order with the tag 5. -/
def taggedBatch : Batch Prod.fst (⟨[], []⟩ : Db (ℕ × ℕ) (ℕ × ℕ)) := ⟨[((1, 1), [(1, 5)])], by decide⟩

end Totem.Services
