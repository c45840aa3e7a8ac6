import Totem.Services.GroupBy
import Mathlib.Algebra.Field.Rat
import Mathlib.Algebra.BigOperators.Ring.List

/-!
# Totem.Services.ShareMeasure — shares of a total

`share_measure` of `core/services/group_by.py` and `SumOverGroups` of `core/orm/functions.py`: the percentage that the
sum of a group is of the sum over the groups of its partition, those with equal values of the dimensions that are not
excluded.  The numbers are rationals.

* `mem_partitionNames`: the partition is by the dimensions asked, whatever measures come before.
* `sumOverGroups_eq`: the sum over the groups is the one over the records of the partition.
* `shares_sum`: the shares of a partition.
-/

namespace Totem.Services

open Lib

/-! ## SQL on numbers that may be NULL -/

/-- `SUM`: NULL when there is no value. -/
def sqlSum (values : List (Option ℚ)) : Option ℚ :=
  if values.filterMap id = [] then none else some (values.filterMap id).sum

/-- `NULLIF`. -/
def nullIf (value : Option ℚ) (other : ℚ) : Option ℚ := if value = some other then none else value

/-- `value * 100 / total`, NULL when one of them is. -/
def percentage (value total : Option ℚ) : Option ℚ := value.bind fun v => total.map fun t => v * 100 / t

/-- Rationals as the database has them. -/
structure Rationals (V : Type) where
  ofRat : ℚ → V
  toRat : V → ℚ
  toRat_ofRat : ∀ q, toRat (ofRat q) = q

/-! ## The query that a measure is resolved in -/

/-- An annotation that is selected, and what it contains. -/
structure SelectedExpression where
  name : String
  containsAggregate : Bool
  containsOverClause : Bool

/-- What a query selects: `values_select` and `annotation_select`. -/
structure Query where
  valuesSelect : List String
  annotationSelect : List SelectedExpression

/-- `queryset.annotate`. -/
def Query.annotate (query : Query) (expression : SelectedExpression) : Query :=
  { query with annotationSelect := query.annotationSelect ++ [expression] }

/-- The names that `SumOverGroups.resolve_expression` partitions by. -/
def partitionNames (query : Query) (exclude : List String) : List String :=
  (query.valuesSelect ++ (query.annotationSelect.filter fun expression =>
    !expression.containsAggregate && !expression.containsOverClause).map SelectedExpression.name).filter fun name =>
      decide (name ∉ exclude)

/-! ## Measures that look at the other groups -/

/-- What a service declares as a measure: an aggregate of the records of each group, or `share_measure(field, exclude,
name)`. -/
inductive MeasureDeclaration (R V : Type)
  | aggregate (measure : Measure R V)
  | share (name : String) (field : R → Option ℚ) (exclude : List String)

def MeasureDeclaration.name {R V : Type} : MeasureDeclaration R V → String
  | .aggregate measure => measure.name
  | .share name _ _ => name

/-- The measure as an annotation: both contain an aggregate, a share also a window. -/
def MeasureDeclaration.expression {R V : Type} : MeasureDeclaration R V → SelectedExpression
  | .aggregate measure => ⟨measure.name, true, false⟩
  | .share name _ _ => ⟨name, true, true⟩

variable {Model User Pk R Rel J V Rec Rel' J' : Type}

/-- What a service declares; `computed` are the dimensions that have an expression. -/
structure ServiceDeclarations (R V Rec Model User Rel J : Type) where
  dimensions : List (Dimension R V Rec Model User Rel J)
  computed : String → Bool
  measures : List (MeasureDeclaration R V)

section

variable [DecidableEq V]

/-- Two groups with equal values of some dimensions. -/
def samePartition (names : List String) (key key' : List (String × Option V)) : Bool :=
  decide (∀ name ∈ names, key.lookup name = key'.lookup name)

/-- `SUM(SUM(field)) OVER (PARTITION BY names)`, on the group of a key: it runs over the grouped rows. -/
def sumOverGroups (groupKey : R → List (String × Option V)) (records : List R) (field : R → Option ℚ)
    (names : List String) (key : List (String × Option V)) : Option ℚ :=
  sqlSum (((keysOf groupKey records).filter (samePartition names key)).map fun key' =>
    sqlSum ((members groupKey records key').map field))

/-- `BoundDeclaration.build`, resolved in a query.  The records of a group have one key. -/
def MeasureDeclaration.build (numbers : Rationals V) (groupKey : R → List (String × Option V)) (records : List R)
    (query : Query) : MeasureDeclaration R V → Measure R V
  | .aggregate measure => measure
  | .share name field exclude =>
    ⟨name, fun rs =>
      let total := rs.head?.bind fun r =>
        sumOverGroups groupKey records field (partitionNames query exclude) (groupKey r)
      (percentage (sqlSum (rs.map field)) (nullIf total 0)).map numbers.ofRat⟩

variable (decl : ServiceDeclarations R V Rec Model User Rel' J') (numbers : Rationals V) (records : List R)
  (dimensions measures : List String)

/-- The query of the dimensions: columns and annotations. -/
def groupQuery : Query where
  valuesSelect := dimensions.filter fun name => !decl.computed name
  annotationSelect := (dimensions.filter decl.computed).map fun name => ⟨name, false, false⟩

/-- One measure more. -/
def annotateMeasure (query : Query) (name : String) : Query :=
  match decl.measures.find? fun m => decide (m.name = name) with
  | some m => query.annotate m.expression
  | none => query

/-- The query that the measure `name` is resolved in: the measures asked before it are annotated. -/
def queryAt (name : String) : Query :=
  (measures.takeWhile fun n => decide (n ≠ name)).foldl (annotateMeasure decl) (groupQuery decl dimensions)

/-- The key of a record. -/
def recordKey (r : R) : List (String × Option V) := groupKey ⟨decl.dimensions, []⟩ dimensions r

/-- The declarations with their measures resolved, on the records of a request. -/
def resolveMeasures : Declarations R V Rec Model User Rel' J' where
  dimensions := decl.dimensions
  measures := decl.measures.map fun m =>
    m.build numbers (recordKey decl dimensions) records (queryAt decl dimensions measures m.name)

/-- The rows of the groups, with the measures asked. -/
def shareRows : List (GroupRow V) :=
  groupRows (resolveMeasures decl numbers records dimensions measures) dimensions measures records

/-- The dimensions that are not excluded. -/
def keptDimensions (exclude : List String) : List String := dimensions.filter fun name => decide (name ∉ exclude)

/-- The total of a partition: over the records with equal values of the dimensions that are not excluded. -/
def partitionTotal (field : R → Option ℚ) (exclude : List String) (key : List (String × Option V)) : ℚ :=
  ((records.filter fun r =>
    samePartition (keptDimensions dimensions exclude) key (recordKey decl dimensions r)).map fun r =>
      (field r).getD 0).sum

end

/-! ## The partition -/

theorem partitionNames_annotate {query : Query} {expression : SelectedExpression} {exclude : List String}
    (h : expression.containsAggregate = true) :
    partitionNames (query.annotate expression) exclude = partitionNames query exclude := by
  have hskipped : (query.annotationSelect ++ [expression]).filter (fun a =>
      !a.containsAggregate && !a.containsOverClause) =
        query.annotationSelect.filter fun a => !a.containsAggregate && !a.containsOverClause := by
    rw [List.filter_append, List.filter_cons_of_neg (by simp [h]), List.filter_nil, List.append_nil]
  rw [partitionNames, Query.annotate, hskipped, partitionNames]

section

variable [DecidableEq V] {decl : ServiceDeclarations R V Rec Model User Rel' J'} {numbers : Rationals V}
  {records : List R} {dimensions measures exclude : List String} {name : String} {field : R → Option ℚ}
  {key : List (String × Option V)}

omit [DecidableEq V] in
/-- A measure is an aggregate: it changes no partition. -/
theorem partitionNames_annotateMeasure (query : Query) (name : String) :
    partitionNames (annotateMeasure decl query name) exclude = partitionNames query exclude := by
  unfold annotateMeasure
  cases decl.measures.find? fun m => decide (m.name = name) with
  | none => rfl
  | some m => exact partitionNames_annotate (by cases m <;> rfl)

omit [DecidableEq V] in
theorem partitionNames_foldl (names : List String) (query : Query) :
    partitionNames (names.foldl (annotateMeasure decl) query) exclude = partitionNames query exclude := by
  induction names generalizing query with
  | nil => rfl
  | cons name names ih => rw [List.foldl_cons, ih, partitionNames_annotateMeasure]

omit [DecidableEq V] in
/-- **The partition is by the dimensions asked that are not excluded**, whatever measures come before. -/
theorem mem_partitionNames {n : String} :
    n ∈ partitionNames (queryAt decl dimensions measures name) exclude ↔ n ∈ keptDimensions dimensions exclude := by
  have hkept : (((dimensions.filter decl.computed).map fun n => (⟨n, false, false⟩ : SelectedExpression)).filter
      fun a => !a.containsAggregate && !a.containsOverClause).map SelectedExpression.name =
        dimensions.filter decl.computed := by
    rw [List.filter_eq_self.2, List.map_map]
    · exact List.map_id _
    · intro a ha
      obtain ⟨n, -, rfl⟩ := List.mem_map.1 ha
      rfl
  rw [queryAt, partitionNames_foldl, partitionNames, groupQuery, hkept, keptDimensions, List.mem_filter,
    List.mem_filter, List.mem_append, List.mem_filter, List.mem_filter, ← and_or_left]
  cases decl.computed n <;> simp

theorem samePartition_congr {names names' : List String} (h : ∀ n, n ∈ names ↔ n ∈ names')
    (key key' : List (String × Option V)) : samePartition names key key' = samePartition names' key key' := by
  unfold samePartition
  simp only [h]

/-! ## Sums -/

theorem getD_sqlSum (values : List (Option ℚ)) : (sqlSum values).getD 0 = (values.map fun v => v.getD 0).sum := by
  have hsum : (values.filterMap id).sum = (values.map fun v => v.getD 0).sum := sum_filterMap id values
  unfold sqlSum
  split_ifs with h
  · rw [← hsum, h]
    rfl
  · exact hsum

/-- **The sum over the groups of a partition is the one over its records.** -/
theorem sumOverGroups_eq :
    (sumOverGroups (recordKey decl dimensions) records field (keptDimensions dimensions exclude) key).getD 0 =
      partitionTotal decl records dimensions field exclude key := by
  have hgroup : ∀ key', (sqlSum ((members (recordKey decl dimensions) records key').map field)).getD 0 =
      ((members (recordKey decl dimensions) records key').map fun r => (field r).getD 0).sum := by
    intro key'
    rw [getD_sqlSum, List.map_map]
    rfl
  rw [sumOverGroups, getD_sqlSum, List.map_map]
  simp only [Function.comp_def, hgroup]
  rw [sum_groups_filter, partitionTotal]

theorem percentage_nullIf {value total : Option ℚ} (h : total.getD 0 ≠ 0) :
    (percentage value (nullIf total 0)).getD 0 = value.getD 0 * 100 / total.getD 0 := by
  cases total with
  | none => exact absurd rfl h
  | some t =>
    have ht : some t ≠ some 0 := fun heq => h (Option.some.inj heq)
    rw [nullIf, if_neg ht]
    cases value with
    | none => simp [percentage]
    | some v => rfl

theorem percentage_of_zero {value total : Option ℚ} (h : total.getD 0 = 0) :
    percentage value (nullIf total 0) = none := by
  have hnull : nullIf total 0 = none := by
    cases total with
    | none => rfl
    | some t =>
      have ht : t = 0 := h
      rw [nullIf, ht, if_pos rfl]
  rw [hnull, percentage]
  cases value <;> rfl

/-! ## The value of a share -/

/-- The share of the group of a key. -/
def shareOf (decl : ServiceDeclarations R V Rec Model User Rel' J') (records : List R) (dimensions : List String)
    (field : R → Option ℚ) (exclude : List String) (key : List (String × Option V)) : Option ℚ :=
  percentage (sqlSum ((members (recordKey decl dimensions) records key).map field))
    (nullIf (sumOverGroups (recordKey decl dimensions) records field (keptDimensions dimensions exclude) key) 0)

theorem MeasureDeclaration.build_name (m : MeasureDeclaration R V) (gk : R → List (String × Option V)) (query : Query) :
    (m.build numbers gk records query).name = m.name := by
  cases m <;> rfl

/-- **What a share is on a row** does not depend on the other measures. -/
theorem lookup_share (hname : name ∈ measures)
    (hshare : (decl.measures.find? fun m => decide (m.name = name)) = some (.share name field exclude))
    (hkey : key ∈ keysOf (recordKey decl dimensions) records) :
    (groupRow (resolveMeasures decl numbers records dimensions measures) dimensions measures records
        key).measures.lookup name = some ((shareOf decl records dimensions field exclude key).map numbers.ofRat) := by
  have hfind : ((resolveMeasures decl numbers records dimensions measures).measures.find? fun m =>
      decide (m.name = name)) = some ((MeasureDeclaration.share name field exclude).build numbers
        (recordKey decl dimensions) records (queryAt decl dimensions measures name)) := by
    rw [resolveMeasures, List.find?_map]
    have hcongr : (fun m : Measure R V => decide (m.name = name)) ∘ (fun m : MeasureDeclaration R V =>
        m.build numbers (recordKey decl dimensions) records (queryAt decl dimensions measures m.name)) =
        fun m => decide (m.name = name) := funext fun m => by rw [Function.comp_apply, m.build_name]
    rw [hcongr, hshare]
    rfl
  obtain ⟨r, hr, hrkey⟩ := mem_keysOf.1 hkey
  have hhead : ∃ r', (members (recordKey decl dimensions) records key).head? = some r' ∧
      recordKey decl dimensions r' = key := by
    have hmember : r ∈ members (recordKey decl dimensions) records key := mem_members.2 ⟨hr, hrkey⟩
    obtain ⟨r', rest, hcons⟩ := List.exists_cons_of_ne_nil (List.ne_nil_of_mem hmember)
    refine ⟨r', by rw [hcons]; rfl, (mem_members.1 (?_ : r' ∈ members (recordKey decl dimensions) records key)).2⟩
    rw [hcons]
    exact List.mem_cons_self
  obtain ⟨r', hr', hkey'⟩ := hhead
  rw [lookup_measure hname hfind]
  have hsame : groupKey (resolveMeasures decl numbers records dimensions measures) dimensions =
      recordKey decl dimensions := rfl
  rw [hsame, MeasureDeclaration.build]
  dsimp only
  rw [hr', Option.bind_some, hkey', shareOf]
  have hnames : samePartition (V := V) (partitionNames (queryAt decl dimensions measures name) exclude) key =
      samePartition (keptDimensions dimensions exclude) key :=
    funext fun key' => samePartition_congr (fun n => mem_partitionNames) key key'
  rw [sumOverGroups, hnames, sumOverGroups]

/-- The value of a measure of a row, NULL counting for nothing. -/
def GroupRow.rat (numbers : Rationals V) (row : GroupRow V) (name : String) : ℚ :=
  ((row.measures.lookup name).join.map numbers.toRat).getD 0

theorem rat_share (hname : name ∈ measures)
    (hshare : (decl.measures.find? fun m => decide (m.name = name)) = some (.share name field exclude))
    (hkey : key ∈ keysOf (recordKey decl dimensions) records) :
    (groupRow (resolveMeasures decl numbers records dimensions measures) dimensions measures records key).rat numbers
      name = (shareOf decl records dimensions field exclude key).getD 0 := by
  rw [GroupRow.rat, lookup_share hname hshare hkey]
  cases shareOf decl records dimensions field exclude key with
  | none => rfl
  | some q => exact numbers.toRat_ofRat q

/-- Groups of one partition have one total. -/
theorem samePartition_right {names : List String} {key key' : List (String × Option V)}
    (h : samePartition names key key' = true) : samePartition names key' = samePartition names key := by
  rw [samePartition, decide_eq_true_iff] at h
  funext key''
  unfold samePartition
  rw [decide_eq_decide]
  exact forall₂_congr fun n hn => by rw [h n hn]

theorem shareOf_of_samePartition {key' : List (String × Option V)}
    (h : samePartition (keptDimensions dimensions exclude) key key' = true) :
    shareOf decl records dimensions field exclude key' =
      percentage (sqlSum ((members (recordKey decl dimensions) records key').map field))
        (nullIf (sumOverGroups (recordKey decl dimensions) records field (keptDimensions dimensions exclude) key)
          0) := by
  rw [shareOf, sumOverGroups, samePartition_right h, sumOverGroups]

/-- **The shares of a partition sum to one hundred.** -/
theorem sum_shareOf (htotal : partitionTotal decl records dimensions field exclude key ≠ 0) :
    (((keysOf (recordKey decl dimensions) records).filter
      (samePartition (keptDimensions dimensions exclude) key)).map fun key' =>
        (shareOf decl records dimensions field exclude key').getD 0).sum = 100 := by
  rw [← sumOverGroups_eq] at htotal
  set total := sumOverGroups (recordKey decl dimensions) records field (keptDimensions dimensions exclude) key
    with hdef
  have hshare : ∀ key' ∈ (keysOf (recordKey decl dimensions) records).filter
      (samePartition (keptDimensions dimensions exclude) key),
      (shareOf decl records dimensions field exclude key').getD 0 =
        (sqlSum ((members (recordKey decl dimensions) records key').map field)).getD 0 * (100 / total.getD 0) := by
    intro key' hkey'
    rw [shareOf_of_samePartition (List.mem_filter.1 hkey').2, percentage_nullIf htotal, mul_div_assoc]
  have hsum : (((keysOf (recordKey decl dimensions) records).filter
      (samePartition (keptDimensions dimensions exclude) key)).map fun key' =>
        (sqlSum ((members (recordKey decl dimensions) records key').map field)).getD 0).sum = total.getD 0 := by
    rw [hdef, sumOverGroups, getD_sqlSum, List.map_map]
    rfl
  rw [List.map_congr_left hshare, List.sum_map_mul_right, hsum, mul_div_cancel₀ _ htotal]

end

/-! ## The shares of a request -/

section

variable [DecidableEq Model] [DecidableEq Pk] [LinearOrder V]

/-- What the shares of a request are, whatever is asked with them and whichever page. -/
structure SharesOf (store : Store Pk R Rel J) (env : Environment Model User R Rel J) (model : Model)
    (relatedEnv : Environment Model User Rec Rel' J') (decl : ServiceDeclarations R V Rec Model User Rel' J')
    (numbers : Rationals V) (dimensions measures : List String) (filters : Option (Cond R Rel J))
    (ordering : List String) (relationFields : String → Option (List String)) (name : String) (field : R → Option ℚ)
    (exclude : List String) : Prop where
  /-- The shares of the groups of a partition whose total is not zero. -/
  hundred : ∀ row ∈ shareRows decl numbers (grouped store env model filters) dimensions measures,
    partitionTotal decl (grouped store env model filters) dimensions field exclude row.dimensions ≠ 0 →
    (((shareRows decl numbers (grouped store env model filters) dimensions measures).filter fun row' =>
      samePartition (keptDimensions dimensions exclude) row.dimensions row'.dimensions).map fun row' =>
        row'.rat numbers name).sum = 100
  null : ∀ row ∈ shareRows decl numbers (grouped store env model filters) dimensions measures,
    partitionTotal decl (grouped store env model filters) dimensions field exclude row.dimensions = 0 →
    ∀ row' ∈ shareRows decl numbers (grouped store env model filters) dimensions measures,
      samePartition (keptDimensions dimensions exclude) row.dimensions row'.dimensions = true →
      row'.measures.lookup name = some none
  /-- A page has rows of these groups, with the shares they have among all. -/
  pages : ∀ limit offset answer, Answers store env model relatedEnv
    (resolveMeasures decl numbers (grouped store env model filters) dimensions measures) dimensions measures filters
    ordering limit offset relationFields answer →
    ∃ page : List (GroupRow V),
      page.Subperm (shareRows decl numbers (grouped store env model filters) dimensions measures) ∧
      answer.2 = resolveRows relatedEnv
        (resolveMeasures decl numbers (grouped store env model filters) dimensions measures) relationFields page ∧
      answer.2.map Prod.snd = page.map GroupRow.measures
  /-- The same groups have the same shares with other measures, in any order. -/
  others : ∀ measures', name ∈ measures' →
    ∀ row ∈ shareRows decl numbers (grouped store env model filters) dimensions measures,
      ∃ row' ∈ shareRows decl numbers (grouped store env model filters) dimensions measures',
        row'.dimensions = row.dimensions ∧ row'.measures.lookup name = row.measures.lookup name

/-- **Shares of a partition sum to one hundred.** -/
theorem shares_sum (store : Store Pk R Rel J) (env : Environment Model User R Rel J) (model : Model)
    (relatedEnv : Environment Model User Rec Rel' J') {decl : ServiceDeclarations R V Rec Model User Rel' J'}
    (numbers : Rationals V) (dimensions : List String) {measures : List String} (filters : Option (Cond R Rel J))
    (ordering : List String) (relationFields : String → Option (List String)) {name : String} {field : R → Option ℚ}
    {exclude : List String} (hname : name ∈ measures)
    (hshare : (decl.measures.find? fun m => decide (m.name = name)) = some (.share name field exclude)) :
    SharesOf store env model relatedEnv decl numbers dimensions measures filters ordering relationFields name field
      exclude := by
  refine ⟨fun row hrow htotal => ?_, fun row hrow htotal row' hrow' hsame => ?_, fun limit offset answer hanswer => ?_,
    fun measures' hname' row hrow => ?_⟩
  · obtain ⟨key, hkey, rfl⟩ := List.mem_map.1 hrow
    rw [← sum_shareOf htotal, shareRows, groupRows, List.filter_map, List.map_map]
    refine congrArg List.sum (List.map_congr_left fun key' hkey' => ?_)
    exact rat_share hname hshare (List.mem_filter.1 hkey').1
  · obtain ⟨key, hkey, rfl⟩ := List.mem_map.1 hrow
    obtain ⟨key', hkey', rfl⟩ := List.mem_map.1 hrow'
    have hpartition : samePartition (keptDimensions dimensions exclude) key key' = true := hsame
    have hzero : (sumOverGroups (recordKey decl dimensions) (grouped store env model filters) field
        (keptDimensions dimensions exclude) key).getD 0 = 0 := sumOverGroups_eq.trans htotal
    rw [lookup_share hname hshare hkey', shareOf_of_samePartition hpartition, percentage_of_zero hzero]
    rfl
  · obtain ⟨-, -, rows, hrows, hanswer⟩ := hanswer
    refine ⟨_, ?_, hanswer, ?_⟩
    · cases limit with
      | none => exact hrows.1.subperm
      | some limit =>
        exact ((List.take_sublist _ _).trans (List.drop_sublist _ _)).subperm.trans hrows.1.subperm
    · rw [hanswer, resolveRows, List.map_map]
      rfl
  · obtain ⟨key, hkey, rfl⟩ := List.mem_map.1 hrow
    refine ⟨_, List.mem_map_of_mem hkey, rfl, ?_⟩
    rw [lookup_share hname hshare hkey, lookup_share hname' hshare hkey]

end

/-! ## The shares of the categories -/

def orderServiceDeclarations : ServiceDeclarations (ℕ × Option ℤ × ℤ) ℚ ℤ Bool Unit Unit ℕ where
  dimensions := [⟨"category", fun r => r.2.1.map fun category => (category : ℚ), none⟩]
  computed _ := false
  measures := [.aggregate (countMeasure ⟨fun n => n, Rat.num, Rat.num_intCast⟩),
    .share "amount_share" (fun r => some (r.2.2 : ℚ)) ["category"]]

theorem shares_sum_sample :
    SharesOf orderStore orderEnv false categoryEnv orderServiceDeclarations ⟨id, id, fun _ => rfl⟩ ["category"]
        ["count", "amount_share"] none ["-amount_share"] (fun _ => none) "amount_share" (fun r => some (r.2.2 : ℚ))
        ["category"] ∧
      shareRows orderServiceDeclarations ⟨id, id, fun _ => rfl⟩ (grouped orderStore orderEnv false none) ["category"]
        ["count", "amount_share"] =
          [⟨[("category", none)], [("count", some 1), ("amount_share", some (500 / 23))]⟩,
            ⟨[("category", some 4)], [("count", some 2), ("amount_share", some (1700 / 23))]⟩,
            ⟨[("category", some 6)], [("count", some 1), ("amount_share", some (100 / 23))]⟩] :=
  ⟨shares_sum orderStore orderEnv false categoryEnv ⟨id, id, fun _ => rfl⟩ ["category"] none ["-amount_share"]
    (fun _ => none) (List.mem_cons_of_mem _ List.mem_cons_self) rfl, by decide +kernel⟩

end Totem.Services
