import Totem.Services.Relations

/-!
# Totem.Services.Visibility — what a key says of the records out of scope

Two states of the database that agree on the records in scope give the same answers: a record out of scope is an
unknown key.

* `mem_select_congr`, `byPk_congr`: the records a query selects, and their dict, depend on the records in scope.
* `out_of_scope_unknown`: so do `display_name`, `resequence`, the relations of `to_internal_values` and of
  `default_values`, and the selection of an update or a delete.
-/

namespace Totem.Services

open Lib

variable {Model User Pk R Rel J Raw V : Type} [DecidableEq Model]

/-- Two states of a table with the same records in the scope of an operation. -/
structure SameScope (env : Environment Model User R Rel J) (model : Model) (operation : String)
    (store store' : Store Pk R Rel J) : Prop where
  pk : store'.pk = store.pk
  mem : ∀ r, (r ∈ store.table ∧ Selects store.joins (applyAccessRules env model operation) r) ↔
    (r ∈ store'.table ∧ Selects store'.joins (applyAccessRules env model operation) r)

section

variable {env : Environment Model User R Rel J} {model : Model} {operation : String} {store store' : Store Pk R Rel J}

/-- The table without the records out of scope. -/
def Store.restrict (store : Store Pk R Rel J) (env : Environment Model User R Rel J) (model : Model)
    (operation : String) : Store Pk R Rel J where
  pk := store.pk
  table := inScope store (applyAccessRules env model operation)
  joins := store.joins
  pk_nodup := store.pk_nodup.sublist (List.filter_sublist.map _)

theorem sameScope_restrict (store : Store Pk R Rel J) (env : Environment Model User R Rel J) (model : Model)
    (operation : String) : SameScope env model operation store (store.restrict env model operation) where
  pk := rfl
  mem r := by
    simp only [Store.restrict, inScope, List.mem_filter, decide_eq_true_eq]
    tauto

/-- What a query narrowed by local conditions selects depends on the records in scope. -/
theorem mem_select_congr (h : SameScope env model operation store store') {ps : List (R → Bool)} (r : R) :
    r ∈ select store.joins store.table (applyAccessRules env model operation ++ ps.map Cond.column) ↔
      r ∈ select store'.joins store'.table (applyAccessRules env model operation ++ ps.map Cond.column) := by
  have hlocal : ∀ joins : Joins R Rel J, Selects joins (ps.map Cond.column) r ↔ ∀ p ∈ ps, p r = true := by
    intro joins
    induction ps with
    | nil => simp [Selects]
    | cons p ps ih =>
      have hcons : ((p :: ps).map .column : List (Cond R Rel J)) = [.column p] ++ ps.map .column := rfl
      rw [hcons, selects_append, ih, selects_column, List.forall_mem_cons]
  rw [mem_select, mem_select, selects_append, selects_append, hlocal, hlocal, ← and_assoc, ← and_assoc, h.mem r]

variable [DecidableEq Pk]

/-- Two queries that select the same records give the same dict. -/
theorem byPk_congr (hpk : store'.pk = store.pk) {rows rows' : List R} (hrows : ∀ r ∈ rows, r ∈ store.table)
    (hrows' : ∀ r ∈ rows', r ∈ store'.table) (h : ∀ r, r ∈ rows ↔ r ∈ rows') :
    byPk store'.pk rows' = byPk store.pk rows := by
  funext key
  refine Option.ext fun r => ?_
  rw [byPk_eq_some hrows', byPk_eq_some hrows, hpk, h r]

theorem byPk_select_congr (h : SameScope env model operation store store') (ps : List (R → Bool)) :
    byPk store'.pk (select store'.joins store'.table (applyAccessRules env model operation ++ ps.map Cond.column))
      = byPk store.pk (select store.joins store.table (applyAccessRules env model operation ++ ps.map Cond.column)) :=
  byPk_congr h.pk (fun _ hr => (mem_select.1 hr).1) (fun _ hr => (mem_select.1 hr).1) fun r => mem_select_congr h r

/-! ## Operation by operation -/

theorem displayName_congr (h : SameScope env model "read" store store') (toPython : Raw → Option Pk)
    (pks : List Raw) (filters : R → Bool) :
    displayName store' env model toPython pks filters = displayName store env model toPython pks filters := by
  have hrows := byPk_select_congr h [fun r => decide (store.pk r ∈ coercePks toPython pks), filters]
  simp only [displayName, h.pk, List.append_assoc, List.singleton_append]
  simp only [List.map_cons, List.map_nil, h.pk] at hrows
  rw [hrows]

theorem browse_congr (h : SameScope env model "read" store store') (pks : List Pk) :
    byPk store'.pk (browse store' env model pks) = byPk store.pk (browse store env model pks) := by
  have hrows := byPk_select_congr h [fun r => decide (store.pk r ∈ pks)]
  simp only [List.map_cons, List.map_nil] at hrows
  simp only [browse, h.pk] at hrows ⊢
  exact hrows

theorem resolveRelation_congr [DecidableEq Raw] (h : SameScope env model "read" store store')
    (toPython : Raw → Option Pk) (values : List Raw) :
    resolveRelation store' env model toPython values = resolveRelation store env model toPython values := by
  unfold resolveRelation
  simp only [browse_congr h]

theorem resolveRelationRecords_congr (h : SameScope env model "read" store store') (lookups : Bool)
    (pks : List (Option Pk)) :
    resolveRelationRecords store' env model lookups pks = resolveRelationRecords store env model lookups pks := by
  have hbrowse := browse_congr h (pks.filterMap id).dedup
  rw [h.pk] at hbrowse
  unfold resolveRelationRecords
  simp only [displayName_congr h, h.pk, hbrowse]

theorem resequence_congr (h : SameScope env model "update" store store') (toPython : Raw → Option Pk)
    (str : Pk → String) (strRaw : Raw → String) (pks : List Raw) (filters : R → Bool) (offset : ℕ) :
    resequence store' env model toPython str strRaw pks filters offset
      = resequence store env model toPython str strRaw pks filters offset := by
  have hfound : ∀ pk, pk ∈ (select store'.joins store'.table (applyAccessRules env model "update" ++
        [.column filters] ++ [.column fun r => decide (store.pk r ∈ pks.filterMap toPython)])).map store.pk ↔
      pk ∈ (select store.joins store.table (applyAccessRules env model "update" ++ [.column filters] ++
        [.column fun r => decide (store.pk r ∈ pks.filterMap toPython)])).map store.pk := by
    intro pk
    have hmem := @mem_select_congr _ _ _ _ _ _ _ _ _ _ _ _ h
      [filters, fun r => decide (store.pk r ∈ pks.filterMap toPython)]
    simp only [List.map_cons, List.map_nil] at hmem
    simp only [List.append_assoc, List.singleton_append, List.mem_map, hmem]
  unfold resequence
  simp only [h.pk, hfound]

/-- The lookups of a path are local. -/
theorem mem_selection {id : Pk} {nested : R → Bool} {r : R} :
    r ∈ selection store env model operation id nested ↔
      (r ∈ store.table ∧ Selects store.joins (applyAccessRules env model operation) r) ∧
        store.pk r = id ∧ nested r = true := by
  have hpath : Selects store.joins [pathFilter store id (.column nested)] r ↔
      (decide (store.pk r = id) && nested r) = true := by
    have hcolumn : Selects store.joins [.column fun r => decide (store.pk r = id) && nested r] r ↔
        (decide (store.pk r = id) && nested r) = true := selects_column
    rw [← hcolumn]
    simp only [Selects, List.mem_singleton, forall_eq, pathFilter, Cond.hits, Cond.rels, Cond.holds, List.append_nil]
  have hscope : scope env model operation (some (pathFilter store id (.column nested)))
      = applyAccessRules env model operation ++ [pathFilter store id (.column nested)] := rfl
  rw [selection, mem_select, hscope, selects_append, hpath, Bool.and_eq_true, decide_eq_true_eq, and_assoc]

theorem selection_congr (h : SameScope env model operation store store') (id : Pk) (nested : R → Bool) (r : R) :
    r ∈ selection store' env model operation id nested ↔ r ∈ selection store env model operation id nested := by
  rw [mem_selection, mem_selection, h.mem r, h.pk]

end

/-! ## Keys out of scope -/

section

variable [DecidableEq Pk] [DecidableEq Raw]

/-- The related models of a request, in two states of the database. -/
structure SameRelated (env : Environment Model User R Rel J) (rel rel' : Related Model User Pk R Rel J Raw) :
    Prop where
  model : rel'.model = rel.model
  toPython : rel'.toPython = rel.toPython
  scope : SameScope env rel.model "read" rel.store rel'.store

theorem toInternalValues_congr {env : Environment Model User R Rel J}
    {related related' : String → Related Model User Pk R Rel J Raw}
    (h : ∀ fname, SameRelated env (related fname) (related' fname))
    (fieldErrors : String → Input Raw V → List String) (str : Raw → String)
    (data : List (List (String × Input Raw V))) :
    toInternalValues env related' fieldErrors str data = toInternalValues env related fieldErrors str data := by
  unfold toInternalValues
  simp only [(h _).model, (h _).toPython, resolveRelation_congr (h _).scope]

omit [DecidableEq Raw] in
theorem defaultRecords_congr {env : Environment Model User R Rel J}
    {related related' : String → Related Model User Pk R Rel J Raw}
    (h : ∀ fname, SameRelated env (related fname) (related' fname)) (fname : String) (v : Input Raw V) :
    defaultRecords env related' fname v = defaultRecords env related fname v := by
  unfold defaultRecords
  simp only [(h _).model, (h _).toPython, resolveRelationRecords_congr (h _).scope]

/-- **A record out of scope is an unknown key**: states of the database that agree on the records in scope give
the same results and the same errors. -/
theorem out_of_scope_unknown {env : Environment Model User R Rel J} {model : Model} {store store' : Store Pk R Rel J}
    (hread : SameScope env model "read" store store') (hupdate : SameScope env model "update" store store')
    (hdelete : SameScope env model "delete" store store')
    {related related' : String → Related Model User Pk R Rel J Raw}
    (hrelated : ∀ fname, SameRelated env (related fname) (related' fname)) :
    (∀ (toPython : Raw → Option Pk) (pks : List Raw) (filters : R → Bool),
      displayName store' env model toPython pks filters = displayName store env model toPython pks filters) ∧
    (∀ (toPython : Raw → Option Pk) (str : Pk → String) (strRaw : Raw → String) (pks : List Raw)
      (filters : R → Bool) (offset : ℕ),
      resequence store' env model toPython str strRaw pks filters offset
        = resequence store env model toPython str strRaw pks filters offset) ∧
    (∀ (fieldErrors : String → Input Raw V → List String) (str : Raw → String)
      (data : List (List (String × Input Raw V))),
      toInternalValues env related' fieldErrors str data = toInternalValues env related fieldErrors str data) ∧
    (∀ (fname : String) (v : Input Raw V), defaultRecords env related' fname v = defaultRecords env related fname v) ∧
    (∀ (id : Pk) (nested : R → Bool) (r : R),
      (r ∈ selection store' env model "update" id nested ↔ r ∈ selection store env model "update" id nested) ∧
      (r ∈ selection store' env model "delete" id nested ↔ r ∈ selection store env model "delete" id nested)) :=
  ⟨displayName_congr hread, resequence_congr hupdate, toInternalValues_congr hrelated,
    defaultRecords_congr hrelated, fun id nested r =>
      ⟨selection_congr hupdate id nested r, selection_congr hdelete id nested r⟩⟩

end

/-! ## A budget of another user -/

/-- Budgets are a key and their user; the budget 2 is another user's. -/
def budgetStore : Store ℕ (ℕ × ℕ) Unit Unit where
  pk := Prod.fst
  table := [(1, 7), (2, 8), (3, 7)]
  joins := ⟨fun _ _ => [()], fun _ => rfl⟩
  pk_nodup := by decide

/-- The budgets of the acting user. -/
def ownRule : Rule Unit ℕ (ℕ × ℕ) Unit Unit where
  identifier := "budget_manage_own"
  model := ()
  operations := ["create", "read", "update", "delete"]
  scopeFilter user := .column fun budget => decide (some budget.2 = user)

def ownEnv : Environment Unit ℕ (ℕ × ℕ) Unit Unit := ⟨[ownRule], some 7, [some ["budget_manage_own"]]⟩

/-- The budgets of the acting user alone. -/
def ownBudgets : Store ℕ (ℕ × ℕ) Unit Unit := budgetStore.restrict ownEnv () "read"

def budgetRelated (store : Store ℕ (ℕ × ℕ) Unit Unit) (_ : String) : Related Unit ℕ ℕ (ℕ × ℕ) Unit Unit ℕ where
  store := store
  model := ()
  toPython := some

/-- The budget 2 is there in one database only, and is unknown in both. -/
theorem out_of_scope_unknown_sample :
    displayName ownBudgets ownEnv () some [2, 1, 9] (fun _ => true) = [(1, 7)] ∧
      resequence ownBudgets ownEnv () some toString toString [2, 1] (fun _ => true) 0 =
        .error "Invalid value(s): 2" ∧
      toInternalValues (V := Unit) ownEnv (budgetRelated ownBudgets) (fun _ _ => []) toString
        [[("budget", .key (some 2))]] = .error [(0, [("budget", ["Invalid value for field 'budget': 2"])])] ∧
      (defaultRecords (V := Unit) ownEnv (budgetRelated ownBudgets) "budget" (.key (some 2))).isNone ∧
      (∀ r, r ∉ selection ownBudgets ownEnv () "update" 2 fun _ => true) ∧
      (2, 8) ∈ budgetStore.table ∧ (2, 8) ∉ ownBudgets.table := by
  have hread := sameScope_restrict budgetStore ownEnv () "read"
  have hupdate : budgetStore.restrict ownEnv () "update" = ownBudgets := by rfl
  have hdelete : budgetStore.restrict ownEnv () "delete" = ownBudgets := by rfl
  have hrelated : ∀ fname, SameRelated ownEnv (budgetRelated budgetStore fname) (budgetRelated ownBudgets fname) :=
    fun _ => ⟨rfl, rfl, hread⟩
  obtain ⟨hdisplay, hnumber, hvalues, hdefaults, hselection⟩ := out_of_scope_unknown (V := Unit) hread
    (hupdate ▸ sameScope_restrict budgetStore ownEnv () "update")
    (hdelete ▸ sameScope_restrict budgetStore ownEnv () "delete") hrelated
  refine ⟨(hdisplay _ _ _).trans (by decide +kernel), (hnumber _ _ _ _ _ _).trans (by decide +kernel),
    (hvalues _ _ _).trans (by rfl), ?_, fun r hr => ?_, by decide +kernel, by decide +kernel⟩
  · exact (congrArg Option.isNone (hdefaults _ _)).trans (by decide +kernel)
  · have hnone : selection budgetStore ownEnv () "update" 2 (fun _ => true) = [] := by decide +kernel
    have hmem := (hselection 2 (fun _ => true) r).1.mp hr
    rw [hnone] at hmem
    cases hmem

end Totem.Services
