import Mathlib.Data.Finset.Card
import Mathlib.Algebra.Ring.Int.Defs
import Totem.Lib.Grouping
import Totem.Services.Relations

/-!
# Totem.Services.GroupBy — aggregates of the records in scope

`core.services.group_by`: the records in scope, selected by primary key so that no join multiplies them, grouped by
the values of the dimensions asked, aggregated by the measures asked, ordered, paged, and the keys that are
relations replaced by their records.

* `grouped_eq`: the records grouped are those in scope, each once.
* `terms_strict`, `rows_distinct`: every ordering is total on the groups, which differ in some dimension.
* `resolveRow_injective`: resolving the relations merges no groups.
* `group_by_partitions`: the groups partition the scope, and the pages the groups.
-/

namespace Totem.Services

open Lib

/-! ## Declarations -/

/-- A dimension bound to its model: an expression on the columns of a record, and for a foreign key grouped as is
the model its values are keys of. -/
structure Dimension (R V Rec Model User Rel J : Type) where
  name : String
  value : R → Option V
  related : Option (Related Model User V Rec Rel J V)

/-- A measure: an aggregate of the records of a group. -/
structure Measure (R V : Type) where
  name : String
  value : List R → Option V

/-- Numbers as the database has them. -/
structure Numbers (V : Type) where
  ofInt : ℤ → V
  toInt : V → ℤ
  toInt_ofInt : ∀ n, toInt (ofInt n) = n

/-- `COUNT`: `Count("pk")`. -/
def countMeasure {R V : Type} (numbers : Numbers V) : Measure R V where
  name := "count"
  value rs := some (numbers.ofInt rs.length)

/-- `Sum(field)`: NULL when no record of the group has a value. -/
def sumMeasure {R V : Type} (numbers : Numbers V) (name : String) (field : R → Option ℤ) : Measure R V where
  name := name
  value rs := if rs.filterMap field = [] then none else some (numbers.ofInt (rs.filterMap field).sum)

variable {Model User Pk R Rel J V Rec Rel' J' : Type}

/-- What a service declares; the names of the dimensions and of the measures are checked when the class is
created. -/
structure Declarations (R V Rec Model User Rel J : Type) where
  dimensions : List (Dimension R V Rec Model User Rel J)
  measures : List (Measure R V)

/-! ## The request -/

/-- `_ordering_name`. -/
def orderingName (token : String) : String :=
  if token.toList.head? = some '-' then String.ofList (token.toList.drop 1) else token

/-- `token.startswith("-")`. -/
def isDescending (token : String) : Bool := decide (token.toList.head? = some '-')

/-- A list of strings as python prints it. -/
def printNames (names : List String) : String :=
  "[" ++ ", ".intercalate (names.map fun name => "'" ++ name ++ "'") ++ "]"

def sortNames (names : List String) : List String := names.mergeSort fun a b => decide (a ≤ b)

/-- The names that stand more than once. -/
def repeatedNames (names : List String) : List String := names.filter fun name => decide (1 < names.count name)

/-- The checks of one list of names of `_group_by_check`. -/
def checkNames (key : String) (names declared : List String) : List (String × String) :=
  let unknown := names.filter fun name => decide (name ∉ declared)
  let repeated := sortNames (repeatedNames names).dedup
  (if names = [] then [(key, "At least one of " ++ printNames (sortNames declared) ++ " is required.")] else [])
  ++ (if unknown ≠ [] then
    [(key, "Unknown value(s): " ++ ",".intercalate unknown ++ ". Possible values are "
      ++ ",".intercalate (sortNames declared) ++ ".")] else [])
  ++ (if repeated ≠ [] then [(key, "Repeated value(s): " ++ ",".intercalate repeated ++ ".")] else [])

/-- `_group_by_check`: the messages by key. -/
def groupByCheck (decl : Declarations R V Rec Model User Rel' J') (dimensions measures ordering : List String)
    (limit : Option ℕ) (offset : ℕ) : List (String × String) :=
  let ordered := ordering.map orderingName
  let unasked := ordered.filter fun name => decide (name ∉ dimensions ++ measures)
  let repeated := sortNames (repeatedNames ordered).dedup
  checkNames "dimensions" dimensions (decl.dimensions.map Dimension.name)
  ++ checkNames "measures" measures (decl.measures.map Measure.name)
  ++ (if unasked ≠ [] then
    [("ordering", "Ordering on value(s) not grouped by nor measured: " ++ ",".intercalate unasked ++ ".")] else [])
  ++ (if repeated ≠ [] then [("ordering", "Repeated value(s): " ++ ",".intercalate repeated ++ ".")] else [])
  ++ (if offset ≠ 0 ∧ limit = none then [("offset", "An offset requires a limit.")] else [])

/-! ## Groups -/

/-- The values of a group, under the names asked. -/
structure GroupRow (V : Type) where
  dimensions : List (String × Option V)
  measures : List (String × Option V)
  deriving DecidableEq

/-- `row[name]`. -/
def GroupRow.get (row : GroupRow V) (name : String) : Option V :=
  ((row.dimensions ++ row.measures).lookup name).join

/-- NULLs last, ascending or descending. -/
def nullsLast [LT V] (descending : Bool) : Option V → Option V → Prop
  | some v, some w => if descending = true then w < v else v < w
  | some _, none => True
  | none, _ => False

/-- `_group_by_ordering`: the terms asked, then the dimensions not named. -/
def groupByOrdering [LT V] (dimensions ordering : List String) : List (SortTerm (GroupRow V) (Option V)) :=
  (ordering.map fun token => ⟨fun row => row.get (orderingName token), nullsLast (isDescending token)⟩)
  ++ ((dimensions.filter fun name => decide (name ∉ ordering.map orderingName)).map fun name =>
    ⟨fun row => row.get name, nullsLast false⟩)

section

variable [DecidableEq Model] [DecidableEq Pk] [DecidableEq V] (store : Store Pk R Rel J)
  (env : Environment Model User R Rel J) (model : Model) (decl : Declarations R V Rec Model User Rel' J')
  (dimensions measures : List String)

/-- The records grouped: `get_queryset().filter(pk__in=scoped.values("pk"))`. -/
def grouped (filters : Option (Cond R Rel J)) : List R :=
  let scopedPks := (select store.joins store.table (scope env model "read" filters)).map store.pk
  select store.joins store.table [.column fun r => decide (store.pk r ∈ scopedPks)]

/-- The key of a record: the values of the dimensions asked, under their names. -/
def groupKey (r : R) : List (String × Option V) :=
  (dimensions.filterMap fun name => decl.dimensions.find? fun d => d.name = name).map fun d => (d.name, d.value r)

/-- The row of the group of a key. -/
def groupRow (records : List R) (key : List (String × Option V)) : GroupRow V where
  dimensions := key
  measures := (measures.filterMap fun name => decl.measures.find? fun m => m.name = name).map fun m =>
    (m.name, m.value (members (groupKey decl dimensions) records key))

/-- The groups of some records, in no order. -/
def groupRows (records : List R) : List (GroupRow V) :=
  (keysOf (groupKey decl dimensions) records).map (groupRow decl dimensions measures records)

end

/-! ## Relations as keys -/

/-- A value of a row once its relations are resolved. -/
inductive Resolved (V Rec : Type)
  | null
  | value (v : V)
  | record (rec : Rec)
  deriving DecidableEq

section

variable [DecidableEq Model] [DecidableEq V] (env : Environment Model User Rec Rel' J')
  (decl : Declarations R V Rec Model User Rel' J')

/-- `row[name]` by a dict of records. -/
def resolveValue (byPk : V → Option Rec) : Option V → Resolved V Rec
  | none => .null
  | some v =>
      match byPk v with
      | some rec => .record rec
      | none => .value v

/-- `_group_by_resolve_relations`, on the dimension `name` of the rows of a page: its records by key. -/
def relationRecords (relationFields : String → Option (List String)) (rows : List (GroupRow V)) (name : String) :
    V → Option Rec :=
  match (decl.dimensions.find? fun d => d.name = name).bind Dimension.related with
  | none => fun _ => none
  | some related =>
      if relationFields name = some [] then fun _ => none
      else resolveRelationRecords related.store env related.model (relationFields name).isSome
        (rows.map fun row => row.get name)

/-- The rows of a page with their relations resolved. -/
def resolveRows (relationFields : String → Option (List String)) (rows : List (GroupRow V)) :
    List (List (String × Resolved V Rec) × List (String × Option V)) :=
  rows.map fun row => (row.dimensions.map fun key =>
    (key.1, resolveValue (relationRecords env decl relationFields rows key.1) key.2), row.measures)

end

/-- What `group_by` may answer: the database gives the groups in an order of the terms. -/
def Answers [LT V] [DecidableEq Model] [DecidableEq Pk] [DecidableEq V] (store : Store Pk R Rel J)
    (env : Environment Model User R Rel J) (model : Model) (relatedEnv : Environment Model User Rec Rel' J')
    (decl : Declarations R V Rec Model User Rel' J') (dimensions measures : List String)
    (filters : Option (Cond R Rel J)) (ordering : List String) (limit : Option ℕ) (offset : ℕ)
    (relationFields : String → Option (List String))
    (answer : ℕ × List (List (String × Resolved V Rec) × List (String × Option V))) : Prop :=
  groupByCheck decl dimensions measures ordering limit offset = [] ∧
  answer.1 = (keysOf (groupKey decl dimensions) (grouped store env model filters)).length ∧
  ∃ rows, Arranged (groupByOrdering dimensions ordering)
      (groupRows decl dimensions measures (grouped store env model filters)) rows ∧
    answer.2 = resolveRows relatedEnv decl relationFields
      (match limit with
      | none => rows
      | some limit => slice offset limit rows)

/-! ## The records grouped -/

section

variable [DecidableEq Model] [DecidableEq Pk] {store : Store Pk R Rel J} {env : Environment Model User R Rel J}
  {model : Model}

omit [DecidableEq Model] [DecidableEq Pk] in
/-- A local condition filters. -/
theorem select_column (store : Store Pk R Rel J) (p : R → Bool) :
    select store.joins store.table [.column p] = store.table.filter p := by
  have hmult : ∀ r, rowCount store.joins [.column p] r = if p r = true then 1 else 0 := by
    intro r
    simp only [rowCount, List.map_cons, List.map_nil, List.prod_cons, List.prod_nil, mul_one, Cond.hits_column]
  unfold select
  induction store.table with
  | nil => rfl
  | cons r table ih =>
    rw [List.flatMap_cons, ih, hmult]
    by_cases h : p r = true <;> simp [h]

/-- **The records grouped are those in scope, each of them once**, however many rows their joins give. -/
theorem grouped_eq (store : Store Pk R Rel J) (env : Environment Model User R Rel J) (model : Model)
    (filters : Option (Cond R Rel J)) :
    grouped store env model filters = inScope store (scope env model "read" filters) := by
  rw [grouped, select_column, inScope]
  refine List.filter_congr fun r hr => ?_
  rw [decide_eq_decide, List.mem_map]
  constructor
  · rintro ⟨s, hs, hpk⟩
    obtain ⟨hs, hsel⟩ := mem_select.1 hs
    rwa [store.eq_of_pk hr hs hpk.symm]
  · exact fun hsel => ⟨r, mem_select.2 ⟨hr, hsel⟩, rfl⟩

end

/-! ## An admissible request -/

theorem nodup_of_repeatedNames {names : List String} (h : repeatedNames names = []) : names.Nodup := by
  rw [List.nodup_iff_count_le_one]
  intro name
  by_contra hcount
  have hmem : name ∈ names := List.count_pos_iff.1 (by omega)
  have hrepeated : name ∈ repeatedNames names := by
    simp only [repeatedNames, List.mem_filter, decide_eq_true_eq]
    exact ⟨hmem, by omega⟩
  rw [h] at hrepeated
  cases hrepeated

theorem sortNames_eq_nil {names : List String} : sortNames names = [] ↔ names = [] := by
  rw [← List.length_eq_zero_iff, sortNames, List.length_mergeSort, List.length_eq_zero_iff]

/-- The names of a list that passes its checks are declared, each asked once. -/
theorem checkNames_eq_nil {key : String} {names declared : List String} (h : checkNames key names declared = []) :
    (∀ name ∈ names, name ∈ declared) ∧ names.Nodup := by
  simp only [checkNames, List.append_eq_nil_iff] at h
  obtain ⟨⟨-, hunknown⟩, hrepeated⟩ := h
  refine ⟨fun name hname => ?_, nodup_of_repeatedNames ?_⟩
  · by_contra hnot
    have hmem : name ∈ names.filter fun name => decide (name ∉ declared) := by
      simpa using ⟨hname, hnot⟩
    rw [if_pos (List.ne_nil_of_mem hmem)] at hunknown
    cases hunknown
  · by_contra hne
    have hsorted : sortNames (repeatedNames names).dedup ≠ [] := by
      rw [Ne, sortNames_eq_nil, List.dedup_eq_nil]
      exact hne
    rw [if_pos hsorted] at hrepeated
    cases hrepeated

theorem groupByCheck_dimensions {decl : Declarations R V Rec Model User Rel' J'}
    {dimensions measures ordering : List String} {limit : Option ℕ} {offset : ℕ}
    (h : groupByCheck decl dimensions measures ordering limit offset = []) :
    (∀ name ∈ dimensions, name ∈ decl.dimensions.map Dimension.name) ∧ dimensions.Nodup := by
  simp only [groupByCheck, List.append_eq_nil_iff] at h
  exact checkNames_eq_nil h.1.1.1.1

/-- A limit admits every offset. -/
theorem groupByCheck_limit {decl : Declarations R V Rec Model User Rel' J'}
    {dimensions measures ordering : List String} (h : groupByCheck decl dimensions measures ordering none 0 = [])
    (limit offset : ℕ) : groupByCheck decl dimensions measures ordering (some limit) offset = [] := by
  simpa [groupByCheck] using h

/-! ## The keys of the groups -/

/-- Two lists of named values with the same names, each once, agree if every name does. -/
theorem eq_of_lookup {κ : Type} {names : List String} (hnames : names.Nodup) {l l' : List (String × κ)}
    (hl : l.map Prod.fst = names) (hl' : l'.map Prod.fst = names)
    (h : ∀ name ∈ names, l.lookup name = l'.lookup name) : l = l' := by
  induction names generalizing l l' with
  | nil =>
    rw [List.map_eq_nil_iff.1 hl, List.map_eq_nil_iff.1 hl']
  | cons name names ih =>
    obtain ⟨⟨n, v⟩, t, rfl, rfl, ht⟩ := List.map_eq_cons_iff.1 hl
    obtain ⟨⟨n', v'⟩, t', rfl, hn', ht'⟩ := List.map_eq_cons_iff.1 hl'
    simp only at hn' h hnames
    subst hn'
    obtain ⟨hnot, hnames⟩ := List.nodup_cons.1 hnames
    have hv : v = v' := by simpa using h n' (List.mem_cons_self ..)
    have htail : t = t' := ih hnames ht ht' fun name hname => by
      have hne : (name == n') = false := by
        rw [beq_eq_false_iff_ne]
        rintro rfl
        exact hnot hname
      simpa [List.lookup_cons, hne] using h name (List.mem_cons_of_mem _ hname)
    rw [hv, htail]

theorem lookup_of_mem {κ : Type} {l : List (String × κ)} (hl : (l.map Prod.fst).Nodup) {name : String} {v : κ}
    (h : (name, v) ∈ l) : l.lookup name = some v := by
  induction l with
  | nil => cases h
  | cons a l ih =>
    obtain ⟨n, w⟩ := a
    obtain ⟨hnot, hl⟩ := List.nodup_cons.1 hl
    rcases List.mem_cons.1 h with heq | hmem
    · simp [Prod.mk.inj heq]
    · have hne : (name == n) = false := by
        rw [beq_eq_false_iff_ne]
        rintro rfl
        exact hnot (List.mem_map.2 ⟨_, hmem, rfl⟩)
      simp [List.lookup_cons, hne, ih hl hmem]

/-- The key of a record has the names asked. -/
theorem groupKey_names {decl : Declarations R V Rec Model User Rel' J'} {dimensions : List String}
    (h : ∀ name ∈ dimensions, name ∈ decl.dimensions.map Dimension.name) (r : R) :
    (groupKey decl dimensions r).map Prod.fst = dimensions := by
  unfold groupKey
  rw [List.map_map]
  induction dimensions with
  | nil => rfl
  | cons name dimensions ih =>
    obtain ⟨d, hd, hname⟩ := List.mem_map.1 (h name (List.mem_cons_self ..))
    have hfind : ∃ d, decl.dimensions.find? (fun d => decide (d.name = name)) = some d := by
      rw [← Option.isSome_iff_exists, List.find?_isSome]
      exact ⟨d, hd, by simpa using hname⟩
    obtain ⟨d', hd'⟩ := hfind
    have hname' : d'.name = name := by simpa using List.find?_some hd'
    have htail := ih fun n hn => h n (List.mem_cons_of_mem _ hn)
    simp only [List.filterMap_cons, hd', List.map_cons, htail, Function.comp_apply, hname']

section

variable [DecidableEq V] {decl : Declarations R V Rec Model User Rel' J'} {dimensions measures ordering : List String}

theorem groupRows_names (h : ∀ name ∈ dimensions, name ∈ decl.dimensions.map Dimension.name) {records : List R}
    {row : GroupRow V} (hrow : row ∈ groupRows decl dimensions measures records) :
    row.dimensions.map Prod.fst = dimensions := by
  obtain ⟨k, hk, rfl⟩ := List.mem_map.1 hrow
  obtain ⟨r, -, rfl⟩ := mem_keysOf.1 hk
  exact groupKey_names h r

/-- A group is told apart by its key. -/
theorem groupRows_key {records : List R} {row row' : GroupRow V}
    (hrow : row ∈ groupRows decl dimensions measures records)
    (hrow' : row' ∈ groupRows decl dimensions measures records) (h : row.dimensions = row'.dimensions) :
    row = row' := by
  obtain ⟨k, -, rfl⟩ := List.mem_map.1 hrow
  obtain ⟨k', -, rfl⟩ := List.mem_map.1 hrow'
  have hk : k = k' := h
  rw [hk]

theorem groupRows_nodup (decl : Declarations R V Rec Model User Rel' J') (dimensions measures : List String)
    (records : List R) : (groupRows decl dimensions measures records).Nodup := by
  refine (keysOf_nodup _ _).map fun k k' h => ?_
  exact congrArg GroupRow.dimensions h

omit [DecidableEq V] in
theorem GroupRow.get_dimension {row : GroupRow V} (hnames : row.dimensions.map Prod.fst = dimensions)
    (hnodup : dimensions.Nodup) {name : String} {v : Option V} (h : (name, v) ∈ row.dimensions) :
    row.get name = v := by
  rw [GroupRow.get, List.lookup_append, lookup_of_mem (hnames ▸ hnodup) h]
  rfl

theorem exists_mem_of_name {κ : Type} {l : List (String × κ)} {name : String} (h : name ∈ l.map Prod.fst) :
    ∃ v, (name, v) ∈ l := by
  obtain ⟨⟨n, v⟩, hmem, rfl⟩ := List.mem_map.1 h
  exact ⟨v, hmem⟩

/-! ## The ordering -/

variable [LinearOrder V]

omit [DecidableEq V] in
theorem nullsLast_strict (descending : Bool) : IsStrictTotalOrder (Option V) (nullsLast descending) where
  trichotomous a b := by
    cases a <;> cases b <;> cases descending <;> simp only [nullsLast] <;> grind
  irrefl a := by
    cases a <;> cases descending <;> simp [nullsLast]
  trans a b c := by
    cases a <;> cases b <;> cases c <;> cases descending <;> simp only [nullsLast] <;> grind

omit [DecidableEq V] in
theorem terms_strict (dimensions ordering : List String) :
    ∀ t ∈ groupByOrdering (V := V) dimensions ordering, IsStrictTotalOrder (Option V) t.lt := by
  intro t ht
  rcases List.mem_append.1 ht with ht | ht <;> obtain ⟨_, -, rfl⟩ := List.mem_map.1 ht
  · exact nullsLast_strict _
  · exact nullsLast_strict _

omit [DecidableEq V] in
/-- Every dimension is among the terms. -/
theorem exists_term {name : String} (h : name ∈ dimensions) :
    ∃ t ∈ groupByOrdering (V := V) dimensions ordering, ∀ row, t.key row = row.get name := by
  by_cases hasked : name ∈ ordering.map orderingName
  · obtain ⟨token, htoken, rfl⟩ := List.mem_map.1 hasked
    exact ⟨_, List.mem_append_left _ (List.mem_map_of_mem htoken), fun row => rfl⟩
  · have hrest : name ∈ dimensions.filter fun name => decide (name ∉ ordering.map orderingName) := by
      simpa using ⟨h, fun token htoken heq => hasked (List.mem_map.2 ⟨token, htoken, heq⟩)⟩
    exact ⟨_, List.mem_append_right _ (List.mem_map_of_mem hrest), fun row => rfl⟩

/-- **The ordering tells the groups apart.** -/
theorem rows_distinct (h : ∀ name ∈ dimensions, name ∈ decl.dimensions.map Dimension.name)
    (hnodup : dimensions.Nodup) {records : List R} {row row' : GroupRow V}
    (hrow : row ∈ groupRows decl dimensions measures records)
    (hrow' : row' ∈ groupRows decl dimensions measures records)
    (htie : ∀ t ∈ groupByOrdering (V := V) dimensions ordering, t.key row = t.key row') : row = row' := by
  have hnames := groupRows_names h hrow
  have hnames' := groupRows_names h hrow'
  refine groupRows_key hrow hrow' (eq_of_lookup hnodup hnames hnames' fun name hname => ?_)
  obtain ⟨v, hv⟩ := exists_mem_of_name (hnames ▸ hname)
  obtain ⟨v', hv'⟩ := exists_mem_of_name (hnames' ▸ hname)
  obtain ⟨t, ht, hkey⟩ : ∃ t ∈ groupByOrdering (V := V) dimensions ordering, ∀ row, t.key row = row.get name :=
    exists_term hname
  have hget := htie t ht
  rw [hkey, hkey, GroupRow.get_dimension hnames hnodup hv, GroupRow.get_dimension hnames' hnodup hv'] at hget
  rw [lookup_of_mem (hnames ▸ hnodup) hv, lookup_of_mem (hnames' ▸ hnodup) hv', hget]

end

/-! ## The relations resolved -/

section

variable [DecidableEq Model] [DecidableEq V]

/-- The record a value of a dimension is replaced by, whatever else stands on the page. -/
def relationRecord (env : Environment Model User Rec Rel' J') (decl : Declarations R V Rec Model User Rel' J')
    (relationFields : String → Option (List String)) (name : String) : V → Option Rec :=
  match (decl.dimensions.find? fun d => d.name = name).bind Dimension.related with
  | none => fun _ => none
  | some related =>
      if relationFields name = some [] then fun _ => none
      else byPk related.store.pk (select related.store.joins related.store.table
        (applyAccessRules env related.model "read"))

def resolveRow (env : Environment Model User Rec Rel' J') (decl : Declarations R V Rec Model User Rel' J')
    (relationFields : String → Option (List String)) (row : GroupRow V) :
    List (String × Resolved V Rec) × List (String × Option V) :=
  (row.dimensions.map fun key => (key.1, resolveValue (relationRecord env decl relationFields key.1) key.2),
    row.measures)

end

section

variable [DecidableEq Model] [DecidableEq Pk] {store : Store Pk R Rel J} {env : Environment Model User R Rel J}
  {model : Model}

/-- A key is resolved to the readable record it is of, if there is one. -/
theorem resolveRelationRecords_of_mem {lookups : Bool} {pks : List (Option Pk)} {key : Pk} (h : some key ∈ pks) :
    resolveRelationRecords store env model lookups pks key
      = byPk store.pk (select store.joins store.table (applyAccessRules env model "read")) key := by
  have hwanted : key ∈ (pks.filterMap id).dedup := by simpa using h
  have hselect : ∀ r, r ∈ select store.joins store.table (applyAccessRules env model "read") ↔
      r ∈ store.table ∧ Selects store.joins (applyAccessRules env model "read") r := fun r => mem_select
  unfold resolveRelationRecords
  rw [if_neg (List.ne_nil_of_mem hwanted)]
  refine Option.ext fun r => ?_
  rw [byPk_eq_some fun r hr => ((hselect r).1 hr).1, hselect]
  cases lookups with
  | false =>
    rw [if_neg (by simp), byPk_eq_some fun r hr => (mem_browse.1 hr).1.1, mem_browse]
    refine and_congr_left fun hpk => and_iff_left ?_
    rwa [hpk]
  | true =>
    rw [if_pos rfl, byPk_eq_some fun r hr => (mem_displayName.1 hr).1.1, mem_displayName]
    refine and_congr_left fun hpk => and_iff_left ⟨⟨key, hwanted, ?_⟩, rfl⟩
    rw [hpk]

end

section

variable [DecidableEq Model] [DecidableEq V] {env : Environment Model User Rec Rel' J'}
  {decl : Declarations R V Rec Model User Rel' J'} {relationFields : String → Option (List String)}

/-- The relations of a row are resolved the same on every page it stands on. -/
theorem resolveRows_eq {dimensions : List String} (hnodup : dimensions.Nodup) {rows : List (GroupRow V)}
    (hrows : ∀ row ∈ rows, row.dimensions.map Prod.fst = dimensions) :
    resolveRows env decl relationFields rows = rows.map (resolveRow env decl relationFields) := by
  refine List.map_congr_left fun row hrow => ?_
  rw [resolveRow]
  refine congrArg (·, row.measures) (List.map_congr_left fun key hkey => ?_)
  obtain ⟨name, value⟩ := key
  refine congrArg (name, ·) ?_
  cases value with
  | none => rfl
  | some v =>
    have hmem : some v ∈ rows.map fun row => row.get name :=
      List.mem_map.2 ⟨row, hrow, GroupRow.get_dimension (hrows row hrow) hnodup hkey⟩
    have hrecord : relationRecords env decl relationFields rows name v
        = relationRecord env decl relationFields name v := by
      unfold relationRecords relationRecord
      cases (decl.dimensions.find? fun d => decide (d.name = name)).bind Dimension.related with
      | none => rfl
      | some related =>
        simp only
        split_ifs
        · rfl
        · exact resolveRelationRecords_of_mem hmem
    simp only [resolveValue, hrecord]

/-- A record stands for one key. -/
theorem relationRecord_pk {name : String} {v w : V} {rec : Rec}
    (hv : relationRecord env decl relationFields name v = some rec)
    (hw : relationRecord env decl relationFields name w = some rec) : v = w := by
  unfold relationRecord at hv hw
  cases hrelated : (decl.dimensions.find? fun d => decide (d.name = name)).bind Dimension.related with
  | none => simp [hrelated] at hv
  | some related =>
    simp only [hrelated] at hv hw
    split_ifs at hv hw
    have hselect : ∀ r ∈ select related.store.joins related.store.table
        (applyAccessRules env related.model "read"), r ∈ related.store.table := fun r hr => (mem_select.1 hr).1
    rw [← ((byPk_eq_some hselect).1 hv).2, ← ((byPk_eq_some hselect).1 hw).2]

theorem resolveValue_injective {name : String} {a b : Option V}
    (h : resolveValue (relationRecord env decl relationFields name) a
      = resolveValue (relationRecord env decl relationFields name) b) : a = b := by
  cases a with
  | none =>
    cases b with
    | none => rfl
    | some w => cases hw : relationRecord env decl relationFields name w <;> simp [resolveValue, hw] at h
  | some v =>
    cases b with
    | none => cases hv : relationRecord env decl relationFields name v <;> simp [resolveValue, hv] at h
    | some w =>
      cases hv : relationRecord env decl relationFields name v with
      | none =>
        cases hw : relationRecord env decl relationFields name w with
        | none => simpa [resolveValue, hv, hw] using h
        | some rec => simp [resolveValue, hv, hw] at h
      | some rec =>
        cases hw : relationRecord env decl relationFields name w with
        | none => simp [resolveValue, hv, hw] at h
        | some rec' =>
          have hrec : rec = rec' := by simpa [resolveValue, hv, hw] using h
          rw [relationRecord_pk hv (hrec ▸ hw)]

/-- **Resolving the relations merges no groups.** -/
theorem resolveRow_injective {dimensions measures : List String} {records : List R} {row row' : GroupRow V}
    (hrow : row ∈ groupRows decl dimensions measures records)
    (hrow' : row' ∈ groupRows decl dimensions measures records)
    (h : (resolveRow env decl relationFields row).1 = (resolveRow env decl relationFields row').1) : row = row' := by
  refine groupRows_key hrow hrow' ?_
  have hinj : ∀ a b : String × Option V,
      (a.1, resolveValue (relationRecord env decl relationFields a.1) a.2)
        = (b.1, resolveValue (relationRecord env decl relationFields b.1) b.2) → a = b := by
    rintro ⟨n, a⟩ ⟨n', b⟩ hab
    obtain ⟨hn, hvalue⟩ := Prod.mk.inj hab
    simp only at hn
    subst hn
    exact congrArg (n, ·) (resolveValue_injective hvalue)
  exact (List.map_injective_iff.2 fun a b => hinj a b) h

end

/-! ## What the measures add up to -/

theorem sum_filterMap {M : Type} [AddCommMonoid M] (field : R → Option M) (rs : List R) :
    (rs.filterMap field).sum = (rs.map fun r => (field r).getD 0).sum := by
  induction rs with
  | nil => rfl
  | cons r rs ih => cases h : field r <;> simp [h, ih]

/-- The value of a measure as a number, none counting for nothing. -/
def GroupRow.amount (numbers : Numbers V) (row : GroupRow V) (name : String) : ℤ :=
  ((row.measures.lookup name).join.map numbers.toInt).getD 0

section

variable [DecidableEq V] {decl : Declarations R V Rec Model User Rel' J'} {dimensions measures : List String}

theorem lookup_measure {name : String} {m : Measure R V} (hname : name ∈ measures)
    (hm : (decl.measures.find? fun m => decide (m.name = name)) = some m) (records : List R)
    (key : List (String × Option V)) :
    (groupRow decl dimensions measures records key).measures.lookup name
      = some (m.value (members (groupKey decl dimensions) records key)) := by
  unfold groupRow
  simp only
  induction measures with
  | nil => cases hname
  | cons n measures ih =>
    by_cases hn : n = name
    · subst hn
      have hm' : m.name = n := by simpa using List.find?_some hm
      simp only [List.filterMap_cons, hm, List.map_cons, hm', List.lookup_cons, beq_self_eq_true]
    · have hmem := (List.mem_cons.1 hname).resolve_left fun h => hn h.symm
      cases hfind : decl.measures.find? fun m => decide (m.name = n) with
      | none => simpa only [List.filterMap_cons, hfind] using ih hmem
      | some m' =>
        have hm' : m'.name = n := by simpa using List.find?_some hfind
        have hne : (name == m'.name) = false := by
          rw [beq_eq_false_iff_ne, hm']
          exact fun h => hn h.symm
        simpa only [List.filterMap_cons, hfind, List.map_cons, List.lookup_cons, hne] using ih hmem

/-- A measure that is a sum over the records of each group is one over all records. -/
theorem sum_amount {numbers : Numbers V} {name : String} {records : List R} {f : R → ℤ}
    (h : ∀ key, (groupRow decl dimensions measures records key).amount numbers name
      = ((members (groupKey decl dimensions) records key).map f).sum) :
    ((groupRows decl dimensions measures records).map fun row => row.amount numbers name).sum
      = (records.map f).sum := by
  rw [← sum_groups (groupKey decl dimensions) records f, groupRows, List.map_map]
  exact congrArg List.sum (List.map_congr_left fun key _ => h key)

/-- **The counts of the groups add up to the number of records.** -/
theorem sum_count {numbers : Numbers V} {name : String} (hname : name ∈ measures)
    (hm : (decl.measures.find? fun m => decide (m.name = name)) = some (countMeasure numbers)) (records : List R) :
    ((groupRows decl dimensions measures records).map fun row => row.amount numbers name).sum = records.length := by
  rw [sum_amount (f := fun _ => 1)]
  · simp
  · intro key
    rw [GroupRow.amount, lookup_measure hname hm]
    simp [countMeasure, numbers.toInt_ofInt]

/-- **The sums of the groups add each record once.** -/
theorem sum_sum {numbers : Numbers V} {name : String} {field : R → Option ℤ} (hname : name ∈ measures)
    (hm : (decl.measures.find? fun m => decide (m.name = name)) = some (sumMeasure numbers name field))
    (records : List R) :
    ((groupRows decl dimensions measures records).map fun row => row.amount numbers name).sum
      = (records.map fun r => (field r).getD 0).sum := by
  refine sum_amount fun key => ?_
  rw [GroupRow.amount, lookup_measure hname hm, ← sum_filterMap]
  simp only [sumMeasure]
  split_ifs with h
  · rw [h]
    rfl
  · simp [numbers.toInt_ofInt]

end

/-! ## The groups partition the scope -/

section

variable [DecidableEq Model] [DecidableEq Pk] [LinearOrder V]

/-- What the groups of a request are to its scope, whatever the database answers to each page. -/
structure Partitions (store : Store Pk R Rel J) (env : Environment Model User R Rel J) (model : Model)
    (relatedEnv : Environment Model User Rec Rel' J') (decl : Declarations R V Rec Model User Rel' J')
    (dimensions measures : List String) (filters : Option (Cond R Rel J)) (ordering : List String)
    (relationFields : String → Option (List String)) : Prop where
  /-- Every record in scope is in one group. -/
  once : ∀ r ∈ inScope store (scope env model "read" filters),
    ∃! row, row ∈ groupRows decl dimensions measures (grouped store env model filters) ∧
      r ∈ members (groupKey decl dimensions) (grouped store env model filters) row.dimensions
  counts : ∀ (numbers : Numbers V) (name : String), name ∈ measures →
    (decl.measures.find? fun m => decide (m.name = name)) = some (countMeasure numbers) →
    ((groupRows decl dimensions measures (grouped store env model filters)).map fun row =>
      row.amount numbers name).sum = (inScope store (scope env model "read" filters)).length
  sums : ∀ (numbers : Numbers V) (name : String) (field : R → Option ℤ), name ∈ measures →
    (decl.measures.find? fun m => decide (m.name = name)) = some (sumMeasure numbers name field) →
    ((groupRows decl dimensions measures (grouped store env model filters)).map fun row =>
      row.amount numbers name).sum
        = ((inScope store (scope env model "read" filters)).map fun r => (field r).getD 0).sum
  /-- The total is the number of distinct keys, NULL being one value. -/
  total : ∀ limit offset answer, Answers store env model relatedEnv decl dimensions measures filters ordering limit
    offset relationFields answer →
    answer.1 = ((inScope store (scope env model "read" filters)).map (groupKey decl dimensions)).toFinset.card
  /-- The ordering is total on the groups. -/
  linear : ∀ a ∈ groupRows decl dimensions measures (grouped store env model filters),
    ∀ b ∈ groupRows decl dimensions measures (grouped store env model filters),
      (lexLe (groupByOrdering dimensions ordering) a b ∨ lexLe (groupByOrdering dimensions ordering) b a) ∧
      (lexLe (groupByOrdering dimensions ordering) a b → lexLe (groupByOrdering dimensions ordering) b a → a = b) ∧
      ∀ c, lexLe (groupByOrdering dimensions ordering) a b → lexLe (groupByOrdering dimensions ordering) b c →
        lexLe (groupByOrdering dimensions ordering) a c
  /-- The pages are those of one list, which has each group once, also once its relations are resolved. -/
  pages : ∃ rows : List (List (String × Resolved V Rec) × List (String × Option V)),
    (rows.map Prod.fst).Nodup ∧
    rows.Perm ((groupRows decl dimensions measures (grouped store env model filters)).map
      (resolveRow relatedEnv decl relationFields)) ∧
    ∀ (size pages : ℕ) (answers : ℕ → ℕ × List (List (String × Resolved V Rec) × List (String × Option V))),
      (∀ k < pages, Answers store env model relatedEnv decl dimensions measures filters ordering (some size) (k * size)
        relationFields (answers k)) →
      ((List.range pages).map fun k => (answers k).2).flatten = rows.take (pages * size)
  /-- Every page is answered. -/
  answered : ∀ limit offset, ∃ answer, Answers store env model relatedEnv decl dimensions measures filters ordering
    (some limit) offset relationFields answer

/-- **The groups of an admissible request partition the records in scope, and its pages the groups.** -/
theorem group_by_partitions (store : Store Pk R Rel J) (env : Environment Model User R Rel J) (model : Model)
    (relatedEnv : Environment Model User Rec Rel' J') {decl : Declarations R V Rec Model User Rel' J'}
    {dimensions measures ordering : List String}
    (hadmissible : groupByCheck decl dimensions measures ordering none 0 = []) (filters : Option (Cond R Rel J))
    (relationFields : String → Option (List String)) :
    Partitions store env model relatedEnv decl dimensions measures filters ordering relationFields := by
  obtain ⟨hdeclared, hnodup⟩ := groupByCheck_dimensions hadmissible
  have hstrict := terms_strict (V := V) dimensions ordering
  have hgrouped := grouped_eq store env model filters
  have hdistinct : ∀ a ∈ groupRows decl dimensions measures (grouped store env model filters),
      ∀ b ∈ groupRows decl dimensions measures (grouped store env model filters),
        (∀ t ∈ groupByOrdering dimensions ordering, t.key a = t.key b) → a = b :=
    fun a ha b hb => rows_distinct hdeclared hnodup ha hb
  obtain ⟨sorted, hsorted⟩ := exists_arrangement hstrict
    (groupRows decl dimensions measures (grouped store env model filters))
  have hnames : ∀ row ∈ sorted, row.dimensions.map Prod.fst = dimensions := fun row hrow =>
    groupRows_names hdeclared (hsorted.1.mem_iff.1 hrow)
  have hslice : ∀ offset limit, ∀ row ∈ slice offset limit sorted, row ∈ sorted := fun offset limit row hrow =>
    List.mem_of_mem_drop (List.mem_of_mem_take hrow)
  have hresolve : ∀ offset limit, resolveRows relatedEnv decl relationFields (slice offset limit sorted)
      = slice offset limit (sorted.map (resolveRow relatedEnv decl relationFields)) := by
    intro offset limit
    rw [resolveRows_eq hnodup fun row hrow => hnames row (hslice offset limit row hrow)]
    simp [slice]
  refine ⟨fun r hr => ?_, fun numbers name hname hm => ?_, fun numbers name field hname hm => ?_, ?_, ?_, ?_, ?_⟩
  · rw [← hgrouped] at hr
    obtain ⟨key, ⟨hkey, hmember⟩, hunique⟩ :
        ∃! key, key ∈ keysOf (groupKey decl dimensions) (grouped store env model filters) ∧
          r ∈ members (groupKey decl dimensions) (grouped store env model filters) key := exists_unique_group hr
    refine ⟨groupRow decl dimensions measures (grouped store env model filters) key,
      ⟨List.mem_map_of_mem hkey, hmember⟩, ?_⟩
    rintro row ⟨hrow, hmember'⟩
    obtain ⟨key', hkey', rfl⟩ := List.mem_map.1 hrow
    have heq : key' = key := hunique key' ⟨hkey', hmember'⟩
    rw [heq]
  · rw [sum_count hname hm, hgrouped]
  · rw [sum_sum hname hm, hgrouped]
  · rintro limit offset answer ⟨-, htotal, -⟩
    rw [htotal, ← hgrouped, keysOf, List.card_toFinset]
  · intro a ha b hb
    exact ⟨lexLe_total hstrict a b, fun hab hba => hdistinct a ha b hb (lexLe_antisymm hstrict hab hba),
      fun c => lexLe_trans hstrict⟩
  · refine ⟨sorted.map (resolveRow relatedEnv decl relationFields), ?_, hsorted.1.map _, ?_⟩
    · rw [List.map_map]
      refine List.Nodup.map_on (fun a ha b hb h => ?_) (hsorted.1.nodup_iff.2 (groupRows_nodup ..))
      exact resolveRow_injective (hsorted.1.mem_iff.1 ha) (hsorted.1.mem_iff.1 hb) h
    · intro size pages answers hanswers
      have hpage : ∀ k < pages, (answers k).2
          = slice (k * size) size (sorted.map (resolveRow relatedEnv decl relationFields)) := by
        intro k hk
        obtain ⟨-, -, rows, hrows, hanswer⟩ := hanswers k hk
        rw [hanswer, arrangement_unique hstrict hdistinct hrows hsorted]
        exact hresolve _ _
      rw [← flatten_pages, List.map_congr_left fun k hk => hpage k (List.mem_range.1 hk)]
  · intro limit offset
    exact ⟨(_, _), groupByCheck_limit hadmissible limit offset, rfl, sorted, hsorted, rfl⟩

end

/-! ## Orders by category -/

/-- Orders, of two tags each: a key, a category or none, and an amount. -/
def orderStore : Store ℕ (ℕ × Option ℤ × ℤ) Unit ℕ where
  pk := Prod.fst
  table := [(1, some 4, 10), (2, none, 5), (3, some 4, 7), (4, some 6, 1)]
  joins := ⟨fun rels _ => if rels = [] then [0] else [1, 2], by simp⟩
  pk_nodup := by decide

/-- A rule on the tags: it joins two rows for each order. -/
def orderRule : Rule Bool Unit (ℕ × Option ℤ × ℤ) Unit ℕ where
  identifier := "order_tagged"
  model := false
  operations := ["read"]
  scopeFilter _ := .related [()] fun _ tag => decide (tag ∈ [1, 2])

def orderEnv : Environment Bool Unit (ℕ × Option ℤ × ℤ) Unit ℕ := ⟨[orderRule], some (), [some ["order_tagged"]]⟩

/-- The categories 4 and 6, the second of which is not readable. -/
def categoryStore : Store ℤ ℤ Unit ℕ where
  pk := id
  table := [4, 6]
  joins := ⟨fun _ _ => [0], fun _ => rfl⟩
  pk_nodup := by decide

def categoryEnv : Environment Bool Unit ℤ Unit ℕ where
  registry := [⟨"category_4", true, ["read"], fun _ => .column fun category => decide (category = 4)⟩]
  user := some ()
  roles := [some ["category_4"]]

def orderDeclarations : Declarations (ℕ × Option ℤ × ℤ) ℤ ℤ Bool Unit Unit ℕ where
  dimensions := [⟨"category", fun r => r.2.1, some ⟨categoryStore, true, some⟩⟩]
  measures := [countMeasure ⟨id, id, fun _ => rfl⟩, sumMeasure ⟨id, id, fun _ => rfl⟩ "amount" fun r => some r.2.2]

theorem group_by_partitions_sample :
    Partitions orderStore orderEnv false categoryEnv orderDeclarations ["category"] ["count", "amount"] none
        ["-amount"] (fun _ => none) ∧
      groupRows orderDeclarations ["category"] ["count", "amount"] (grouped orderStore orderEnv false none)
        = [⟨[("category", none)], [("count", some 1), ("amount", some 5)]⟩,
          ⟨[("category", some 4)], [("count", some 2), ("amount", some 17)]⟩,
          ⟨[("category", some 6)], [("count", some 1), ("amount", some 1)]⟩] :=
  ⟨group_by_partitions orderStore orderEnv false categoryEnv (by decide +kernel) none fun _ => none,
    by decide +kernel⟩

end Totem.Services
