import Totem.Services.Scope

/-!
# Totem.Services.Relations — records named by their primary keys

`core.services.base` and `core.services.mixins`: `browse` and `display_name`, the resolution of relations by
`to_internal_values` and by `default_values`, and `resequence`.  Each coerces the keys it is given, queries the
records in scope among them, and puts them in a dict by key.

* `byPk_eq_some`: the dict of the rows of a query holds the records the query selects, under their keys.
-/

namespace Totem.Services

open Lib

variable {Model User Pk R Rel J Raw V : Type} [DecidableEq Model] [DecidableEq Pk]

/-! ## By primary key -/

/-- `{instance.pk: instance for instance in rows}`: the last row of a key stays. -/
def byPk (pk : R → Pk) (rows : List R) (key : Pk) : Option R :=
  (rows.filter fun r => decide (pk r = key)).getLast?

/-- The keys that can be converted, each at its first occurrence. -/
def coercePks (toPython : Raw → Option Pk) (pks : List Raw) : List Pk :=
  pks.foldl (fun coerced value =>
    match toPython value with
    | none => coerced
    | some pk => if pk ∈ coerced then coerced else coerced ++ [pk]) []

section

variable (store : Store Pk R Rel J) (env : Environment Model User R Rel J) (model : Model)

/-- The rows of the queryset `browse` returns. -/
def browse (pks : List Pk) : List R :=
  select store.joins store.table
    (applyAccessRules env model "read" ++ [.column fun r => decide (store.pk r ∈ pks)])

/-- `display_name`; `filters` are the lookups of a nested route's path. -/
def displayName (toPython : Raw → Option Pk) (pks : List Raw) (filters : R → Bool) : List R :=
  let coerced := coercePks toPython pks
  if coerced = [] then []
  else
    let rows := select store.joins store.table (applyAccessRules env model "read"
      ++ [.column fun r => decide (store.pk r ∈ coerced)] ++ [.column filters])
    coerced.filterMap (byPk store.pk rows)

/-- `resolve_relation_records`: with lookups of the record the keys are those `display_name` finds, without them
those `browse` does. -/
def resolveRelationRecords (lookups : Bool) (pks : List (Option Pk)) : Pk → Option R :=
  let wanted := (pks.filterMap id).dedup
  if wanted = [] then fun _ => none
  else if lookups then byPk store.pk (displayName store env model some wanted fun _ => true)
  else byPk store.pk (browse store env model wanted)

/-- `_resolve_relation`: each value to its record. -/
def resolveRelation [DecidableEq Raw] (toPython : Raw → Option Pk) (values : List Raw) : Raw → Option R :=
  let instances := browse store env model (values.filterMap toPython)
  fun value => if value ∈ values then (toPython value).bind (byPk store.pk instances) else none

/-! ## Numbering records -/

/-- What a numbering of records answers: the messages on `ids`, or how many were numbered and the number of
each key. -/
abbrev Numbered (Pk : Type) := Except String (ℕ × List (Pk × ℕ))

/-- `resequence` and `_resequence`; `str` prints a key, `strRaw` a value of the request. -/
def resequence (toPython : Raw → Option Pk) (str : Pk → String) (strRaw : Raw → String) (pks : List Raw)
    (filters : R → Bool) (offset : ℕ) : Numbered Pk :=
  if pks.isEmpty then .ok (0, [])
  else
    let coerced := pks.filterMap toPython
    let invalid := pks.filter fun value => (toPython value).isNone
    let duplicates := (coerced.filter fun pk => decide (1 < coerced.count pk)).dedup
    if duplicates ≠ [] then
      .error ("Repeated value(s): " ++ ",".intercalate ((duplicates.map str).mergeSort fun a b => decide (a ≤ b)))
    else
      let found := (select store.joins store.table (applyAccessRules env model "update" ++ [.column filters]
        ++ [.column fun r => decide (store.pk r ∈ coerced)])).map store.pk
      let missing := invalid.map strRaw ++ (coerced.filter fun pk => decide (pk ∉ found)).map str
      if missing ≠ [] then .error ("Invalid value(s): " ++ ",".intercalate missing)
      else .ok (coerced.length, coerced.mapIdx fun index pk => (pk, offset + index + 1))

/-- The records an update or a delete by primary key acts on. -/
def selection (operation : String) (id : Pk) (nested : R → Bool) : List R :=
  select store.joins store.table (scope env model operation (some (pathFilter store id (.column nested))))

end

/-! ## Values of a request -/

/-- What the service of the related model of a relation needs. -/
structure Related (Model User Pk R Rel J Raw : Type) where
  store : Store Pk R Rel J
  model : Model
  toPython : Raw → Option Pk

/-- A value of the data of a request. -/
inductive Input (Raw V : Type)
  | plain (v : V)
  | key (value : Option Raw)
  | keys (values : Option (List Raw))

/-- A value as the ORM takes it. -/
inductive Internal (R V : Type)
  | plain (v : V)
  | null
  | record (r : R)
  | records (rs : List R)
  deriving DecidableEq

/-- The values of a relation given by one field of an item. -/
def Input.values : Input Raw V → List Raw
  | .plain _ => []
  | .key value => value.toList
  | .keys values => values.getD []

/-- The values given to a relation by all items together. -/
def groupValues (data : List (List (String × Input Raw V))) (fname : String) : List Raw :=
  data.flatMap fun item => ((item.lookup fname).map Input.values).getD []

/-- One field in internal form, or the message of its `RelationNotFound`. -/
def convertField (str : Raw → String) (resolve : Raw → Option R) (fname : String) :
    Input Raw V → Except String (Internal R V)
  | .plain v => .ok (.plain v)
  | .key none => .ok .null
  | .key (some value) =>
      match resolve value with
      | none => .error ("Invalid value for field '" ++ fname ++ "': " ++ str value)
      | some r => .ok (.record r)
  | .keys values =>
      let invalid := (values.getD []).filter fun value => (resolve value).isNone
      if invalid ≠ [] then
        .error ("Invalid value(s) for field '" ++ fname ++ "': " ++ ",".intercalate (invalid.map str))
      else .ok (.records ((values.getD []).filterMap resolve))

section

variable [DecidableEq Raw] (env : Environment Model User R Rel J)
  (related : String → Related Model User Pk R Rel J Raw)

/-- `to_internal_values`: `fieldErrors` are the messages of the checks of one value, which read no record; the
errors are by index and field. -/
def toInternalValues (fieldErrors : String → Input Raw V → List String) (str : Raw → String)
    (data : List (List (String × Input Raw V))) :
    Except (List (ℕ × List (String × List String))) (List (List (String × Internal R V))) :=
  let checks := data.mapIdx fun index item =>
    (index, (item.map fun field => (field.1, fieldErrors field.1 field.2)).filter fun e => decide (e.2 ≠ []))
  let invalid := checks.filter fun e => decide (e.2 ≠ [])
  if invalid ≠ [] then .error invalid
  else
    let resolve := fun fname => resolveRelation (related fname).store env (related fname).model
      (related fname).toPython (groupValues data fname)
    let converted := data.map fun item => item.map fun field => (field.1, convertField str (resolve field.1) field.1 field.2)
    -- the last field of an item that fails is the one reported
    let errors := (converted.mapIdx fun index item =>
      (index, (item.filterMap fun field =>
        match field.2 with
        | .ok _ => none
        | .error message => some (field.1, [message])).getLast?.toList)).filter fun e => decide (e.2 ≠ [])
    if errors ≠ [] then .error errors
    else .ok (converted.map fun item => item.filterMap fun field =>
      match field.2 with
      | .ok v => some (field.1, v)
      | .error _ => none)

omit [DecidableEq Model] [DecidableEq Pk] [DecidableEq Raw] in
/-- The values that are no relations are converted to themselves. -/
theorem lookup_converted (str : Raw → String) (resolve : String → Raw → Option R) (item : List (String × Input Raw V))
    (name : String) :
    let values := (item.map fun field => (field.1, convertField str (resolve field.1) field.1 field.2)).filterMap
      fun field =>
        match field.2 with
        | .ok v => some (field.1, v)
        | .error _ => none
    (item.lookup name = none → values.lookup name = none) ∧
      ∀ v, item.lookup name = some (.plain v) → values.lookup name = some (.plain v) := by
  induction item with
  | nil => simp
  | cons field item ih =>
    obtain ⟨n, value⟩ := field
    have hskip : ∀ (tail : List (String × Internal R V)) (v : Internal R V), ¬ name = n →
        ((n, v) :: tail).lookup name = tail.lookup name := by
      intro tail v hne
      have hbeq : (name == n) = false := beq_eq_false_iff_ne.2 hne
      simp [List.lookup_cons, hbeq]
    by_cases hn : name = n
    · subst hn
      constructor
      · intro hnone
        simp at hnone
      · intro v hv
        obtain rfl : value = .plain v := by simpa using hv
        simp [convertField]
    · have hbeq : (name == n) = false := beq_eq_false_iff_ne.2 hn
      rw [List.lookup_cons, hbeq]
      simp only [List.map_cons, List.filterMap_cons]
      cases hconvert : convertField str (resolve n) n value with
      | ok v => simpa only [hskip _ _ hn] using ih
      | error message => exact ih

variable {env related} in
/-- **One item in internal form**: the checks of its values have passed, and the values that are no relations are
as given. -/
theorem toInternalValues_single {fieldErrors : String → Input Raw V → List String} {str : Raw → String}
    {item : List (String × Input Raw V)} {data : List (List (String × Internal R V))}
    (h : toInternalValues env related fieldErrors str [item] = .ok data) :
    (∀ field ∈ item, fieldErrors field.1 field.2 = []) ∧
      ∃ values, data = [values] ∧ ∀ name,
        (item.lookup name = none → values.lookup name = none) ∧
        ∀ v, item.lookup name = some (.plain v) → values.lookup name = some (.plain v) := by
  unfold toInternalValues at h
  simp only [List.mapIdx_cons, List.mapIdx_nil, List.map_cons, List.map_nil] at h
  split_ifs at h with hchecks herrors
  obtain rfl := Except.ok.inj h
  constructor
  · intro field hfield
    by_contra hne
    apply hchecks
    have hmem : (field.1, fieldErrors field.1 field.2) ∈
        (item.map fun field => (field.1, fieldErrors field.1 field.2)).filter fun e => decide (e.2 ≠ []) :=
      List.mem_filter.2 ⟨List.mem_map_of_mem hfield, by simpa using hne⟩
    rw [List.filter_cons_of_pos (by simpa using List.ne_nil_of_mem hmem)]
    exact List.cons_ne_nil _ _
  · exact ⟨_, rfl, lookup_converted str (fun fname => resolveRelation (related fname).store env (related fname).model
      (related fname).toPython (groupValues [item] fname)) item⟩

/-- A default asked with lookups on its relation, in `default_values`: `none` where it is dropped. -/
def defaultRecords (fname : String) : Input Raw V → Option (Internal R V)
  | .plain v => some (.plain v)
  | .key none => some .null
  | .keys none => some .null
  | .key (some value) =>
      let pks := ((related fname).toPython value).toList
      let byPk := resolveRelationRecords (related fname).store env (related fname).model true (pks.map some)
      ((pks.filterMap byPk).head?).map Internal.record
  | .keys (some values) =>
      let pks := values.filterMap (related fname).toPython
      let byPk := resolveRelationRecords (related fname).store env (related fname).model true (pks.map some)
      some (.records (pks.filterMap byPk))

end

/-! ## What the queries select -/

section

variable {store : Store Pk R Rel J} {q : List (Cond R Rel J)}

omit [DecidableEq Model] [DecidableEq Pk] in
theorem selects_column {joins : Joins R Rel J} {p : R → Bool} {r : R} :
    Selects joins [.column p] r ↔ p r = true := by
  rw [← rowCount_pos]
  simp only [rowCount, List.map_cons, List.map_nil, List.prod_cons, List.prod_nil, mul_one, Cond.hits_column]
  split_ifs with h <;> simp [h]

omit [DecidableEq Model] in
/-- **The dict of some records of a table holds them under their keys.** -/
theorem byPk_eq_some {rows : List R} (hrows : ∀ r ∈ rows, r ∈ store.table) {key : Pk} {r : R} :
    byPk store.pk rows key = some r ↔ r ∈ rows ∧ store.pk r = key := by
  have hmem : ∀ s, s ∈ rows.filter (fun r => decide (store.pk r = key)) ↔ s ∈ rows ∧ store.pk s = key := by
    simp
  unfold byPk
  constructor
  · intro h
    exact (hmem r).1 (List.mem_of_getLast? h)
  · rintro ⟨hr, hkey⟩
    cases hlast : (rows.filter fun r => decide (store.pk r = key)).getLast? with
    | none =>
      rw [List.getLast?_eq_none_iff] at hlast
      have hr' := (hmem r).2 ⟨hr, hkey⟩
      rw [hlast] at hr'
      cases hr'
    | some s =>
      obtain ⟨hs, hskey⟩ := (hmem s).1 (List.mem_of_getLast? hlast)
      rw [store.eq_of_pk (hrows s hs) (hrows r hr) (hskey.trans hkey.symm)]

omit [DecidableEq Model] in
theorem mem_coercePks {toPython : Raw → Option Pk} {pks : List Raw} {pk : Pk} :
    pk ∈ coercePks toPython pks ↔ ∃ value ∈ pks, toPython value = some pk := by
  have hfold : ∀ coerced : List Pk, pk ∈ pks.foldl (fun coerced value =>
      match toPython value with
      | none => coerced
      | some pk => if pk ∈ coerced then coerced else coerced ++ [pk]) coerced ↔
      pk ∈ coerced ∨ ∃ value ∈ pks, toPython value = some pk := by
    induction pks with
    | nil => simp
    | cons value pks ih =>
      intro coerced
      rw [List.foldl_cons, ih]
      cases hvalue : toPython value with
      | none => simp [hvalue]
      | some pk' =>
        simp only [List.mem_cons, exists_eq_or_imp, hvalue, Option.some.injEq]
        split_ifs with hmem
        · constructor
          · rintro (h | h)
            · exact Or.inl h
            · exact Or.inr (Or.inr h)
          · rintro (h | rfl | h)
            · exact Or.inl h
            · exact Or.inl hmem
            · exact Or.inr h
        · rw [List.mem_append, List.mem_singleton, or_assoc, eq_comm (a := pk)]
  exact (hfold []).trans (by simp)

theorem mem_browse {env : Environment Model User R Rel J} {model : Model} {pks : List Pk} {r : R} :
    r ∈ browse store env model pks ↔
      (r ∈ store.table ∧ Selects store.joins (applyAccessRules env model "read") r) ∧ store.pk r ∈ pks := by
  rw [browse, mem_select, selects_append, selects_column, decide_eq_true_eq, and_assoc]

theorem mem_displayName {env : Environment Model User R Rel J} {model : Model} {toPython : Raw → Option Pk}
    {pks : List Raw} {filters : R → Bool} {r : R} :
    r ∈ displayName store env model toPython pks filters ↔
      (r ∈ store.table ∧ Selects store.joins (applyAccessRules env model "read") r) ∧
        (∃ value ∈ pks, toPython value = some (store.pk r)) ∧ filters r = true := by
  rw [← mem_coercePks]
  unfold displayName
  simp only
  split_ifs with hempty
  · simp [hempty]
  · rw [List.mem_filterMap]
    have hrows : ∀ s, s ∈ select store.joins store.table (applyAccessRules env model "read" ++
        [.column fun r => decide (store.pk r ∈ coercePks toPython pks)] ++ [.column filters]) ↔
        s ∈ store.table ∧ Selects store.joins (applyAccessRules env model "read") s ∧
          store.pk s ∈ coercePks toPython pks ∧ filters s = true := by
      intro s
      rw [mem_select, selects_append, selects_append, selects_column, selects_column, decide_eq_true_eq, and_assoc]
    constructor
    · rintro ⟨pk, -, hpk⟩
      obtain ⟨hr, -⟩ := (byPk_eq_some fun s hs => ((hrows s).1 hs).1).1 hpk
      obtain ⟨htable, hsel, hmem, hfilters⟩ := (hrows r).1 hr
      exact ⟨⟨htable, hsel⟩, hmem, hfilters⟩
    · rintro ⟨⟨htable, hsel⟩, hmem, hfilters⟩
      exact ⟨store.pk r, hmem, (byPk_eq_some fun s hs => ((hrows s).1 hs).1).2
        ⟨(hrows r).2 ⟨htable, hsel, hmem, hfilters⟩, rfl⟩⟩

end

end Totem.Services
