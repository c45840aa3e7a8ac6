import Totem.Services.AccessPolicy

/-!
# Totem.Services.Scope — what a scope selects, operation by operation

`core.services.mixins` and `core.api.controller`: `read`, the retrieve endpoint and `update` build a queryset from
the access rules and the filters of the caller, and take its rows for the records.

* `scope_selects_iff`: they are, exactly when no record in scope satisfies the rules and the filters through two
  combinations of joined rows.
* `single_of_local`: which is so when neither crosses a to-many relation.
-/

namespace Totem.Services

open Lib

/-! ## Services -/

/-- The table of a model, with the rows its relations lead to. -/
structure Store (Pk R Rel J : Type) where
  pk : R → Pk
  table : List R
  joins : Joins R Rel J
  pk_nodup : (table.map pk).Nodup

variable {Model User Pk R Rel J Err : Type}

theorem Store.table_nodup (store : Store Pk R Rel J) : store.table.Nodup :=
  List.Nodup.of_map _ store.pk_nodup

theorem Store.eq_of_pk (store : Store Pk R Rel J) {r s : R} (hr : r ∈ store.table) (hs : s ∈ store.table)
    (h : store.pk r = store.pk s) : r = s :=
  List.inj_on_of_nodup_map store.pk_nodup hr hs h

variable [DecidableEq Model]

/-- The conditions on the rows of an operation: the access rules, then the filters of the caller. -/
def scope (env : Environment Model User R Rel J) (model : Model) (operation : String)
    (filters : Option (Cond R Rel J)) : List (Cond R Rel J) :=
  applyAccessRules env model operation ++ filters.toList

/-- `read`: the rows of the queryset. -/
def read (store : Store Pk R Rel J) (env : Environment Model User R Rel J) (model : Model)
    (filters : Option (Cond R Rel J)) : List R :=
  select store.joins store.table (scope env model "read" filters)

inductive Retrieved (R : Type)
  | found (r : R)
  /-- `DoesNotExist`, a 404. -/
  | notFound
  /-- `MultipleObjectsReturned`, which nothing catches. -/
  | multipleObjects
  deriving DecidableEq

/-- `queryset.aget()`. -/
def aget : List R → Retrieved R
  | [] => .notFound
  | [r] => .found r
  | _ :: _ :: _ => .multipleObjects

section

variable [DecidableEq Pk]

/-- The lookups of the path: the primary key, and whatever the nested routes add. -/
def pathFilter (store : Store Pk R Rel J) (id : Pk) (nested : Cond R Rel J) : Cond R Rel J :=
  .and (.column fun r => decide (store.pk r = id)) nested

def retrieve (store : Store Pk R Rel J) (env : Environment Model User R Rel J) (model : Model) (id : Pk)
    (nested : Cond R Rel J) : Retrieved R :=
  aget (read store env model (some (pathFilter store id nested)))

/-- The records given to `validate_data` by an update, in turn. -/
def validated (store : Store Pk R Rel J) (env : Environment Model User R Rel J) (model : Model)
    (filters : Option (Cond R Rel J)) : List R :=
  select store.joins store.table (scope env model "update" filters)

/-- `_update_atomic`: the errors of `validate_data`, or the number of records reported and the table with
`assign` written to those that match. -/
def updateAtomic (store : Store Pk R Rel J) (env : Environment Model User R Rel J) (model : Model)
    (filters : Option (Cond R Rel J)) (validateData : R → Option Err) (assign : R → R) :
    Except (List (Pk × Err)) (ℕ × List R) :=
  let instances := validated store env model filters
  let pks := instances.map store.pk
  let errors := instances.filterMap fun r => (validateData r).map fun err => (store.pk r, err)
  if errors ≠ [] then .error errors
  else if pks = [] then .ok (0, store.table)
  else .ok (pks.length, store.table.map fun r => if store.pk r ∈ pks then assign r else r)

/-- **An update that is not refused** has validated the records it writes, and writes no others. -/
theorem updateAtomic_ok {store : Store Pk R Rel J} {env : Environment Model User R Rel J} {model : Model}
    {filters : Option (Cond R Rel J)} {validateData : R → Option Err} {assign : R → R} {n : ℕ} {table : List R}
    (h : updateAtomic store env model filters validateData assign = .ok (n, table)) :
    (∀ r ∈ validated store env model filters, validateData r = none) ∧
      table = store.table.map fun r =>
        if store.pk r ∈ (validated store env model filters).map store.pk then assign r else r := by
  unfold updateAtomic at h
  simp only at h
  split_ifs at h with herrors hempty
  all_goals
    have hvalid : ∀ r ∈ validated store env model filters, validateData r = none := by
      intro r hr
      have hnone := List.filterMap_eq_nil_iff.1 (not_not.1 herrors) r hr
      simpa using hnone
    obtain ⟨-, rfl⟩ := Prod.mk.inj (Except.ok.inj h)
    refine ⟨hvalid, ?_⟩
  · rw [hempty]
    simp
  · rfl

/-! ## A scope is a selection of records -/

/-- No record satisfies the conditions through two combinations of joined rows. -/
def SingleMatch (store : Store Pk R Rel J) (q : List (Cond R Rel J)) : Prop :=
  ∀ r ∈ store.table, Selects store.joins q r → rowCount store.joins q r = 1

/-- The rows of an operation are the records in scope, each of them once. -/
def EachOnce (store : Store Pk R Rel J) (q : List (Cond R Rel J)) (rows : List R) : Prop :=
  rows.Nodup ∧ ∀ r, r ∈ rows ↔ r ∈ store.table ∧ Selects store.joins q r

omit [DecidableEq Pk] in
theorem eachOnce_iff (store : Store Pk R Rel J) (q : List (Cond R Rel J)) :
    EachOnce store q (select store.joins store.table q) ↔ SingleMatch store q := by
  rw [EachOnce, nodup_select_iff store.table_nodup]
  exact ⟨fun h => h.1, fun h => ⟨h, fun r => mem_select⟩⟩

theorem pk_of_selects {store : Store Pk R Rel J} {q : List (Cond R Rel J)} {id : Pk} {nested : Cond R Rel J}
    (hq : pathFilter store id nested ∈ q) {r : R} (h : Selects store.joins q r) : store.pk r = id := by
  obtain ⟨j, hj⟩ := List.exists_mem_of_ne_nil _ (h _ hq)
  have hholds := (List.mem_filter.1 hj).2
  simp only [pathFilter, Cond.holds, Bool.and_eq_true, decide_eq_true_eq] at hholds
  exact hholds.1

theorem aget_replicate (r : R) (n : ℕ) : aget (List.replicate n r) = .found r ↔ n = 1 := by
  match n with
  | 0 => simp [aget]
  | 1 => simp [aget]
  | n + 2 => simp [List.replicate_succ, aget]

/-- The rows of a retrieval are one record over and over. -/
theorem read_path_eq (store : Store Pk R Rel J) (env : Environment Model User R Rel J) (model : Model) {id : Pk}
    {nested : Cond R Rel J} {r : R} (hr : r ∈ store.table)
    (hsel : Selects store.joins (scope env model "read" (some (pathFilter store id nested))) r) :
    read store env model (some (pathFilter store id nested))
      = List.replicate (rowCount store.joins (scope env model "read" (some (pathFilter store id nested))) r) r := by
  classical
  have hmem : pathFilter store id nested ∈ scope env model "read" (some (pathFilter store id nested)) := by
    simp [scope]
  have hall : ∀ s ∈ read store env model (some (pathFilter store id nested)), s = r := by
    intro s hs
    obtain ⟨hs, hsel'⟩ := mem_select.1 hs
    exact store.eq_of_pk hs hr ((pk_of_selects hmem hsel').trans (pk_of_selects hmem hsel).symm)
  have hrep := List.eq_replicate_of_mem hall
  have hcount : (select store.joins store.table (scope env model "read" (some (pathFilter store id nested)))).count r
      = rowCount store.joins (scope env model "read" (some (pathFilter store id nested))) r :=
    count_select store.table_nodup hr
  rw [read] at hrep
  rw [hrep, List.count_replicate_self] at hcount
  rw [read, hrep, hcount]

theorem retrieve_iff (store : Store Pk R Rel J) (env : Environment Model User R Rel J) (model : Model) (id : Pk)
    (nested : Cond R Rel J) :
    (∀ r ∈ store.table, Selects store.joins (scope env model "read" (some (pathFilter store id nested))) r →
      retrieve store env model id nested = .found r) ↔
    SingleMatch store (scope env model "read" (some (pathFilter store id nested))) := by
  refine forall_congr' fun r => forall_congr' fun hr => forall_congr' fun hsel => ?_
  rw [retrieve, read_path_eq store env model hr hsel, aget_replicate]

/-- The records of the table that satisfy the conditions. -/
def inScope (store : Store Pk R Rel J) (q : List (Cond R Rel J)) : List R :=
  store.table.filter fun r => decide (Selects store.joins q r)

omit [DecidableEq Pk] in
theorem length_of_eachOnce {store : Store Pk R Rel J} {q : List (Cond R Rel J)} {rows : List R}
    (h : EachOnce store q rows) : rows.length = (inScope store q).length := by
  refine ((List.perm_ext_iff_of_nodup h.1 (store.table_nodup.filter _)).2 fun r => ?_).length_eq
  rw [h.2 r, List.mem_filter, decide_eq_true_eq]

/-- What an update reports is the number of rows of its queryset. -/
theorem updateAtomic_count {store : Store Pk R Rel J} {env : Environment Model User R Rel J} {model : Model}
    {filters : Option (Cond R Rel J)} {validateData : R → Option Err} {assign : R → R} {n : ℕ} {table : List R}
    (h : updateAtomic store env model filters validateData assign = .ok (n, table)) :
    n = (validated store env model filters).length := by
  unfold updateAtomic at h
  simp only at h
  split_ifs at h with herrors hpks
  · simp only [Except.ok.injEq, Prod.mk.injEq] at h
    rw [← h.1, List.map_eq_nil_iff.1 hpks]
    rfl
  · simp only [Except.ok.injEq, Prod.mk.injEq] at h
    rw [← h.1, List.length_map]

/-- **Read, retrieve and update select records exactly when no record in scope satisfies the rules and the filters
through two combinations of joined rows.** -/
theorem scope_selects_iff (store : Store Pk R Rel J) (env : Environment Model User R Rel J) (model : Model)
    (readFilters : Option (Cond R Rel J)) (id : Pk) (nested : Cond R Rel J)
    (updateFilters : Option (Cond R Rel J)) :
    (EachOnce store (scope env model "read" readFilters) (read store env model readFilters) ∧
      (∀ r ∈ store.table, Selects store.joins (scope env model "read" (some (pathFilter store id nested))) r →
        retrieve store env model id nested = .found r) ∧
      EachOnce store (scope env model "update" updateFilters) (validated store env model updateFilters) ∧
      ∀ (validateData : R → Option Err) (assign : R → R) (n : ℕ) (table : List R),
        updateAtomic store env model updateFilters validateData assign = .ok (n, table) →
        n = (inScope store (scope env model "update" updateFilters)).length) ↔
    SingleMatch store (scope env model "read" readFilters) ∧
      SingleMatch store (scope env model "read" (some (pathFilter store id nested))) ∧
      SingleMatch store (scope env model "update" updateFilters) := by
  rw [retrieve_iff]
  constructor
  · rintro ⟨hread, hretrieve, hupdate, -⟩
    exact ⟨(eachOnce_iff store _).1 hread, hretrieve, (eachOnce_iff store _).1 hupdate⟩
  · rintro ⟨hread, hretrieve, hupdate⟩
    have hvalidated := (eachOnce_iff store _).2 hupdate
    refine ⟨(eachOnce_iff store _).2 hread, hretrieve, hvalidated, fun validateData assign n table h => ?_⟩
    rw [updateAtomic_count h]
    exact length_of_eachOnce hvalidated

omit [DecidableEq Pk] in
/-- A scope that joins nothing selects records. -/
theorem single_of_local (store : Store Pk R Rel J) {q : List (Cond R Rel J)} (h : ∀ c ∈ q, c.rels = []) :
    SingleMatch store q := by
  intro r _ hsel
  have hle : rowCount store.joins q r ≤ 1 := rowCount_le_one_of_local h
  have hpos := rowCount_pos.2 hsel
  omega

end

/-! ## An order with two tags -/

/-- The order 7, tagged 1 and 2. -/
def taggedStore : Store ℕ ℕ Unit ℕ where
  pk := id
  table := [7]
  joins := ⟨fun rels _ => if rels = [] then [0] else [1, 2], by simp⟩
  pk_nodup := by decide

def taggedRule : Rule Unit Unit ℕ Unit ℕ where
  identifier := "order_tagged"
  model := ()
  operations := ["create", "read", "update"]
  scopeFilter _ := .related [()] fun _ tag => decide (tag ∈ [1, 2])

def taggedEnv : Environment Unit Unit ℕ Unit ℕ := ⟨[taggedRule], some (), [some ["order_tagged"]]⟩

/-- An order both tags of which satisfy the rule is read twice, cannot be retrieved, and counts twice when it is
updated. -/
theorem scope_duplicates :
    read taggedStore taggedEnv () none = [7, 7] ∧
    retrieve taggedStore taggedEnv () 7 .all = .multipleObjects ∧
    updateAtomic taggedStore taggedEnv () none (fun _ => (none : Option Unit)) id = .ok (2, [7]) ∧
    ¬ EachOnce taggedStore (scope taggedEnv () "read" none) (read taggedStore taggedEnv () none) := by
  have hread : read taggedStore taggedEnv () none = [7, 7] := by decide
  refine ⟨hread, by decide, by decide, fun h => ?_⟩
  have hnodup := h.1
  rw [hread] at hnodup
  revert hnodup
  decide

end Totem.Services
