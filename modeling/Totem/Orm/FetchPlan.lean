import Totem.Lib.Dict
import Totem.Lib.Fallible
import Totem.Lib.PathTree

/-!
# Totem.Orm.FetchPlan — loading the fields of some lookups

`queryset_fetch_fields` of `core.orm.queryset`: the lookups, sorted, make a dict of dicts; it is walked along the fields
of the models into the columns to load and the relations to prefetch.

* `modelPrepareFetchFields_eq_ok`: the plans that are made, and what they load.
* `fetches_iff`: the lookups whose rows carry all that is asked of them.
-/

namespace Totem.Orm

open Lib

/-! ## Lookups -/

/-- `split(LOOKUP_SEP)`, on characters. -/
def splitChars : List Char → List (List Char)
  | '_' :: '_' :: rest => [] :: splitChars rest
  | c :: rest =>
    match splitChars rest with
    | [] => [[c]]
    | part :: parts => (c :: part) :: parts
  | [] => [[]]

def splitLookup (lookup : String) : List String := (splitChars lookup.toList).map String.ofList

/-! ## Models -/

/-- The flags of a relation, `many_to_one` and so on. -/
inductive Cardinality
  | manyToOne
  | oneToOne
  | oneToMany
  | manyToMany
deriving DecidableEq, Repr

def Cardinality.toMany : Cardinality → Bool
  | manyToOne | oneToOne => false
  | oneToMany | manyToMany => true

/-- A prefetch caches the way back on the related rows, when these have one row there. -/
def Cardinality.linksBack : Cardinality → Bool
  | oneToOne | oneToMany => true
  | manyToOne | manyToMany => false

structure Relation (M : Type) where
  cardinality : Cardinality
  relatedModel : M
  /-- The attribute of a relation without a column: `related_name`, or the name of the model and `_set`. -/
  accessor : Option String
  /-- The name of the relation from the other side. -/
  remote : String
  /-- The column of the related rows that tells which rows they are of. -/
  joined : Option String
deriving DecidableEq

inductive Field (M : Type)
  | column (name : String)
  /-- `concrete`: it has a column, named `<name>_id`. -/
  | relation (name : String) (concrete : Bool) (relation : Relation M)
deriving DecidableEq

namespace Field

variable {M : Type}

def name : Field M → String
  | column name => name
  | relation name _ _ => name

def attname : Field M → Option String
  | column name => some name
  | relation name true _ => some (name ++ "_id")
  | relation _ false _ => none

def relation? : Field M → Option (Relation M)
  | column _ => none
  | relation _ _ r => some r

/-- The attribute that resolves to something that can be prefetched. -/
def accessor : Field M → Option String
  | column _ => none
  | relation name true _ => some name
  | relation _ false r => r.accessor

/-- It is asked for by itself, and has a column on the row. -/
def onRow : Field M → Bool
  | column _ => true
  | relation _ concrete r => !r.cardinality.toMany && concrete

end Field

/-- `_meta.get_field(fname)`: by the name of a field, or by that of its column. -/
def getField {M : Type} (fields : List (Field M)) (fname : String) : Option (Field M) :=
  fields.find? fun field => decide (field.name = fname ∨ field.attname = some fname)

structure Schema (M : Type) where
  fields : M → List (Field M)
  /-- `_meta.pk.name`. -/
  pk : M → String
  /-- No accessor is the name of another field: django refuses such models. -/
  accessors : ∀ m fname field other, getField (fields m) fname = some field → other ∈ fields m →
    other.accessor = some fname → other = field
  /-- No column is named as a relation. -/
  columns : ∀ m, ∀ field ∈ fields m, ∀ other ∈ fields m, other.relation?.isSome → field.attname ≠ some other.name

namespace Schema

variable {M : Type} (schema : Schema M)

def getField (m : M) (fname : String) : Option (Field M) := Orm.getField (schema.fields m) fname

/-- The attribute of an instance, if it is a relation's. -/
def prefetcher (m : M) (lookup : String) : Option (Relation M) :=
  ((schema.fields m).find? fun field => decide (field.accessor = some lookup)).bind Field.relation?

/-- Every part of the path names a field, and every part but the last one a relation. -/
def Valid : M → List String → Prop
  | _, [] => True
  | m, fname :: rest =>
    match schema.getField m fname with
    | none => False
    | some (.column _) => rest = []
    | some (.relation _ _ r) => Valid r.relatedModel rest

end Schema

/-! ## The plan -/

inductive FetchError
  | fieldDoesNotExist
  | typeError
  /-- The lookup of a prefetch is no attribute, or one that cannot be prefetched. -/
  | invalidPrefetch
deriving DecidableEq, Repr

/-- `model.objects.all()`, with what `only` was called with. -/
structure Rows (M : Type) where
  model : M
  only : Option (List String)

/-- `Prefetch(lookup, queryset=queryset)`. -/
structure Prefetch (M : Type) where
  lookup : String
  queryset : Rows M

structure Queryset (M : Type) extends Rows M where
  prefetches : List (Prefetch M)

/-- `prefetch[key]`: a `Prefetch` has no items. -/
def Prefetch.getItem {M : Type} (_prefetch : Prefetch M) (_key : String) : Except FetchError Empty :=
  .error .typeError

/-- The two results of `model_prepare_fetch_fields`; the keys of the second dict are the lookups. -/
structure Plan (M : Type) where
  onlyFields : List String
  prefetch : List (Prefetch M)

section Plans

variable {M : Type}

/-- One turn of the loop, with the plan of the related model. -/
def prepareField (fname : String) (fval : PathTree String) (relatedPlan : M → Except FetchError (Plan M)) :
    Field M → Except FetchError (Plan M)
  | .column _ => .ok ⟨[fname], []⟩
  | .relation _ concrete r =>
    let onlyFields := if !r.cardinality.toMany && concrete then [fname] else []
    if r.cardinality.toMany ∨ fval ≠ .nil then do
      let plan ← relatedPlan r.relatedModel
      let qs : Rows M := ⟨r.relatedModel, if plan.onlyFields = [] then none else some plan.onlyFields⟩
      match plan.prefetch with
      | [] => .ok ⟨onlyFields, [⟨fname, qs⟩]⟩
      -- the first turn of the loop that is to prefetch them on `qs`
      | rprefetchInfo :: _ => rprefetchInfo.getItem "queryset" >>= Empty.elim
    else .ok ⟨onlyFields, []⟩

variable (schema : Schema M)

def modelPrepareFetchFields : M → PathTree String → Except FetchError (Plan M)
  | _, .nil => .ok ⟨[], []⟩
  | model, .cons fname fval rest =>
    match schema.getField model fname with
    | none => .error .fieldDoesNotExist
    | some field => do
      let here ← prepareField fname fval (fun related => modelPrepareFetchFields related fval) field
      let others ← modelPrepareFetchFields model rest
      .ok ⟨here.onlyFields ++ others.onlyFields, here.prefetch ++ others.prefetch⟩

def lookupMap (fieldLookups : List String) : PathTree String :=
  .ofPaths ((fieldLookups.mergeSort fun a b => decide (a ≤ b)).map splitLookup)

def querysetFetchFields (model : M) (fieldLookups : List String) : Except FetchError (Queryset M) := do
  let plan ← modelPrepareFetchFields schema model (lookupMap fieldLookups)
  .ok
    { model
      only := some (if plan.onlyFields = [] then [schema.pk model] else plan.onlyFields)
      prefetches := plan.prefetch }

end Plans

/-! ## The rows it produces -/

/-- An instance: a row of the queryset, or a row that was prefetched for one. -/
inductive Address (K : Type)
  | row (k : K)
  | related (lookup : String) (k rk : K)
deriving DecidableEq, Repr

def Address.key {K : Type} : Address K → K
  | row k => k
  | related _ _ rk => rk

/-- What an instance holds: the columns of its `__dict__`, `_state.fields_cache` and `_prefetched_objects_cache`. -/
structure Instance (K V : Type) where
  values : List (String × V)
  fieldsCache : List (String × Option (Address K))
  prefetchedObjects : List (String × List (Address K))

/-- The instances cached under a name. -/
def Instance.cached {K V : Type} (i : Instance K V) (name : String) : Option (List (Address K)) :=
  match i.fieldsCache.lookup name with
  | some value => some value.toList
  | none => i.prefetchedObjects.lookup name

/-- What the database says of a row of a model: its columns, and the keys of its related rows. -/
structure Database {M : Type} (schema : Schema M) (K V : Type) where
  column : M → K → String → V
  related : M → String → K → List K
  single : ∀ m name concrete r k, .relation name concrete r ∈ schema.fields m → r.cardinality.toMany = false →
    (related m name k).length ≤ 1
  /-- The way back from the related rows. -/
  back : ∀ m name concrete r k rk, .relation name concrete r ∈ schema.fields m → r.cardinality.linksBack = true →
    rk ∈ related m name k → related r.relatedModel r.remote rk = [k]

section Fetch

variable {M K V : Type} {schema : Schema M} (db : Database schema K V)

variable (schema) in
/-- The columns that are loaded: those of `only` and the key, or all of them. -/
def Rows.loaded (rows : Rows M) : List String :=
  ((schema.fields rows.model).filterMap Field.attname).filter fun column =>
    match rows.only with
    | none => true
    | some names => decide (∃ name ∈ schema.pk rows.model :: names,
        (schema.getField rows.model name).bind Field.attname = some column)

/-- The columns of a row of a model that is an instance's. -/
def Database.values (rows : Rows M) (k : K) (joined : Option String) : List (String × V) :=
  (rows.loaded schema ++ joined.toList).map fun column => (column, db.column rows.model k column)

/-- What a prefetch caches for a row under a relation to one row: the row, or `None`. -/
def Queryset.one? (qs : Queryset M) (k : K) (lookup : String) : Option (Option (Address K)) :=
  match schema.prefetcher qs.model lookup with
  | some r => if r.cardinality.toMany then none else some ((db.related qs.model lookup k).head?.map (.related lookup k))
  | none => none

def Queryset.many? (qs : Queryset M) (k : K) (lookup : String) : Option (List (Address K)) :=
  match schema.prefetcher qs.model lookup with
  | some r => if r.cardinality.toMany then some ((db.related qs.model lookup k).map (.related lookup k)) else none
  | none => none

/-- The instances of an evaluated queryset. -/
def Queryset.instances (qs : Queryset M) : Address K → Instance K V
  | .row k =>
    { values := db.values qs.toRows k none
      fieldsCache := qs.prefetches.filterMap fun p => (qs.one? db k p.lookup).map fun value => (p.lookup, value)
      prefetchedObjects := qs.prefetches.filterMap fun p => (qs.many? db k p.lookup).map fun vals => (p.lookup, vals) }
  | .related lookup k rk =>
    match qs.prefetches.find? (fun p => p.lookup = lookup), schema.prefetcher qs.model lookup with
    | some p, some r =>
      { values := db.values p.queryset rk r.joined
        fieldsCache := if r.cardinality.linksBack then [(r.remote, some (.row k))] else []
        prefetchedObjects := [] }
    | _, _ => ⟨[], [], []⟩

/-- Evaluating the queryset, whose rows are these: nothing is prefetched without a row. -/
def Queryset.fetch (qs : Queryset M) (keys : List K) : Except FetchError (Address K → Instance K V) :=
  if keys ≠ [] ∧ ∃ p ∈ qs.prefetches, (schema.prefetcher qs.model p.lookup).isNone then .error .invalidPrefetch
  else .ok (qs.instances db)

/-- The rows of these keys, read with these lookups. -/
def Database.read (model : M) (fieldLookups : List String) (keys : List K) :
    Except FetchError (Address K → Instance K V) := do
  let qs ← querysetFetchFields schema model fieldLookups
  qs.fetch db keys

/-- **What was asked of an instance**: a column is loaded; the related rows are cached under the name of the relation,
and carry what is asked of them. -/
def Carries (instances : Address K → Instance K V) : M → Address K → List String → Prop
  | _, _, [] => True
  | m, a, fname :: rest =>
    match schema.getField m fname with
    | none => False
    | some field =>
      if rest = [] ∧ field.onRow = true then
        ∃ column, field.attname = some column ∧ (instances a).values.lookup column = some (db.column m a.key column)
      else
        ∃ r, field.relation? = some r ∧ ∃ related, (instances a).cached field.name = some related ∧
          related.map Address.key = db.related m field.name a.key ∧
          ∀ b ∈ related, Carries instances r.relatedModel b rest

end Fetch

/-! ## The dict of the lookups -/

theorem splitChars_ne_nil (cs : List Char) : splitChars cs ≠ [] := by
  fun_cases splitChars cs <;> simp_all

theorem intercalate_splitChars (cs : List Char) : ['_', '_'].intercalate (splitChars cs) = cs := by
  induction cs using splitChars.induct with
  | case1 rest ih =>
    rw [splitChars, List.intercalate_cons_of_ne_nil (splitChars_ne_nil rest), ih]
    rfl
  | case2 c rest _ hsplit => exact absurd hsplit (splitChars_ne_nil rest)
  | case3 c rest hne part parts hsplit ih =>
    rw [hsplit] at ih
    rw [splitChars.eq_2 _ _ hne, hsplit, List.intercalate_cons_cons_left, ih]
  | case4 => rfl

theorem intercalate_isPrefix {α : Type*} (sep : List α) {xs ys : List (List α)} (h : xs <+: ys) :
    sep.intercalate xs <+: sep.intercalate ys := by
  obtain ⟨rest, rfl⟩ := h
  induction xs with
  | nil => exact List.nil_prefix
  | cons x xs ih =>
    cases xs with
    | nil =>
      rw [List.intercalate_singleton]
      by_cases hrest : rest = []
      · simp [hrest]
      · rw [List.singleton_append, List.intercalate_cons_of_ne_nil hrest, List.append_assoc]
        exact List.prefix_append ..
    | cons x' xs =>
      rw [List.cons_append, List.cons_append, List.intercalate_cons_cons, List.intercalate_cons_cons]
      exact (List.prefix_append_right_inj _).mpr ih

/-- A lookup that another one goes on from is sorted before it. -/
theorem eq_of_splitLookup {a b : String} (hle : a ≤ b) (h : splitLookup b <+: splitLookup a) : b = a := by
  have hchars : splitChars b.toList <+: splitChars a.toList := by
    obtain ⟨l, hl, heq⟩ := List.prefix_map_iff.mp h
    rwa [List.map_injective_iff.mpr (fun _ _ => String.ofList_injective) heq]
  have hlist := intercalate_isPrefix ['_', '_'] hchars
  rw [intercalate_splitChars, intercalate_splitChars] at hlist
  exact String.toList_inj.mp (List.le_antisymm (List.IsPrefix.le hlist) hle)

theorem has_lookupMap (fieldLookups : List String) (path : List String) :
    (lookupMap fieldLookups).Has path ↔ path = [] ∨ ∃ lookup ∈ fieldLookups, path <+: splitLookup lookup := by
  rw [lookupMap, PathTree.has_ofPaths]
  · simp
  · refine List.Pairwise.map _ (fun a b hle hstart => ?_) (List.pairwise_mergeSort ?_ ?_ fieldLookups)
    · rw [eq_of_splitLookup (of_decide_eq_true hle) hstart]
    · intro a b c hab hbc
      exact decide_eq_true (String.le_trans (of_decide_eq_true hab) (of_decide_eq_true hbc))
    · intro a b
      rw [Bool.or_eq_true, decide_eq_true_eq, decide_eq_true_eq]
      exact String.le_total a b

theorem has_lookupMap_of_mem {fieldLookups : List String} {lookup : String} (h : lookup ∈ fieldLookups) :
    ∀ path rest, splitLookup lookup = path ++ rest → (lookupMap fieldLookups).Has path :=
  fun path rest hpath => (has_lookupMap fieldLookups path).mpr (.inr ⟨lookup, h, rest, hpath.symm⟩)

theorem lookupMap_singleton (lookup : String) : lookupMap [lookup] = .ofPaths [splitLookup lookup] := by
  rw [lookupMap, List.mergeSort_singleton]
  rfl

/-- What is under a key of the dict, and whether there is anything. -/
theorem mem_entries_lookupMap {fieldLookups : List String} {fname : String} {fval : PathTree String}
    (h : (fname, fval) ∈ (lookupMap fieldLookups).entries) (path : List String) :
    fval.Has path ↔ ∃ lookup ∈ fieldLookups, fname :: path <+: splitLookup lookup := by
  have hget : (lookupMap fieldLookups).get fname = some fval := PathTree.get_of_mem_entries PathTree.distinct_ofPaths h
  have hhas := has_lookupMap fieldLookups (fname :: path)
  rw [or_iff_right (List.cons_ne_nil fname path), PathTree.has_cons, hget] at hhas
  rw [← hhas]
  exact ⟨fun hval => ⟨fval, rfl, hval⟩, fun ⟨_, heq, hval⟩ => Option.some.inj heq ▸ hval⟩

/-! ## The plans -/

section Plans

variable {M : Type} (schema : Schema M)

/-- The relation an entry prefetches. -/
def Schema.fetches (m : M) (e : String × PathTree String) : Option (Relation M) :=
  ((schema.getField m e.1).bind Field.relation?).filter fun r => r.cardinality.toMany || decide (e.2 ≠ .nil)

def Schema.onlyOf (m : M) (tree : PathTree String) : List String :=
  (tree.entries.filter fun e => (schema.getField m e.1).any Field.onRow).map Prod.fst

def Schema.prefetchOf (m : M) (e : String × PathTree String) : Option (Prefetch M) :=
  (schema.fetches m e).map fun r =>
    ⟨e.1, ⟨r.relatedModel, if schema.onlyOf r.relatedModel e.2 = [] then none
      else some (schema.onlyOf r.relatedModel e.2)⟩⟩

/-- The entry is a field, below which nothing is prefetched if it is. -/
def Schema.Shallow (m : M) (e : String × PathTree String) : Prop :=
  (schema.getField m e.1).isSome ∧ ∀ r, schema.fetches m e = some r →
    ∀ e' ∈ e.2.entries, (schema.getField r.relatedModel e'.1).isSome ∧ schema.fetches r.relatedModel e' = none

variable {schema} {m : M} {tree fval : PathTree String} {fname : String} {plan : Plan M} {field : Field M}

theorem prefetchOf_eq_nil :
    tree.entries.filterMap (schema.prefetchOf m) = [] ↔ ∀ e ∈ tree.entries, schema.fetches m e = none := by
  simp only [List.filterMap_eq_nil_iff, Schema.prefetchOf, Option.map_eq_none_iff]

theorem fetches_relation (fval : PathTree String) {name : String} {concrete : Bool} {r : Relation M}
    (hfield : schema.getField m fname = some (.relation name concrete r)) :
    schema.fetches m (fname, fval) = if r.cardinality.toMany ∨ fval ≠ .nil then some r else none := by
  unfold Schema.fetches
  rw [hfield, Option.bind_some, Field.relation?, Option.filter_some]
  simp only [Bool.or_eq_true, decide_eq_true_eq]

theorem fetches_eq_some {r : Relation M} :
    schema.fetches m (fname, fval) = some r ↔
      ∃ field, schema.getField m fname = some field ∧ field.relation? = some r ∧
        (r.cardinality.toMany = true ∨ fval ≠ .nil) := by
  rw [Schema.fetches, Option.filter_eq_some_iff, Option.bind_eq_some_iff]
  simp only [Bool.or_eq_true, decide_eq_true_eq]
  exact ⟨fun ⟨⟨field, hfield, hr⟩, h⟩ => ⟨field, hfield, hr, h⟩, fun ⟨field, hfield, hr, h⟩ => ⟨⟨field, hfield, hr⟩, h⟩⟩

theorem prepareField_eq_ok (hfield : schema.getField m fname = some field)
    (ih : ∀ m plan, modelPrepareFetchFields schema m fval = .ok plan ↔ (∀ e ∈ fval.entries, schema.Shallow m e) ∧
      plan = ⟨schema.onlyOf m fval, fval.entries.filterMap (schema.prefetchOf m)⟩) :
    prepareField fname fval (fun related => modelPrepareFetchFields schema related fval) field = .ok plan ↔
      schema.Shallow m (fname, fval) ∧
        plan = ⟨if field.onRow then [fname] else [], (schema.prefetchOf m (fname, fval)).toList⟩ := by
  have hsome : (schema.getField m fname).isSome := by rw [hfield]; rfl
  cases field with
  | column name =>
    have hnone : schema.fetches m (fname, fval) = none := by rw [Schema.fetches, hfield]; rfl
    rw [prepareField, Schema.prefetchOf, hnone, Except.ok.injEq, eq_comm]
    exact (and_iff_right ⟨hsome, fun r hr => by rw [hnone] at hr; cases hr⟩).symm
  | relation name concrete r =>
    have hfetches := fetches_relation fval hfield
    by_cases hfetch : r.cardinality.toMany ∨ fval ≠ .nil
    · rw [if_pos hfetch] at hfetches
      simp only [prepareField, if_pos hfetch, bind_eq_ok, ih]
      constructor
      · rintro ⟨related, ⟨hrelated, rfl⟩, h⟩
        dsimp only at h
        split at h
        · next hnil =>
          have hbelow := prefetchOf_eq_nil.mp hnil
          obtain rfl := Except.ok.inj h
          refine ⟨⟨hsome, fun r' hr' e he => ?_⟩, by rw [Schema.prefetchOf, hfetches]; rfl⟩
          obtain rfl : r = r' := Option.some.inj (hfetches.symm.trans hr')
          exact ⟨(hrelated e he).1, hbelow e he⟩
        · cases h
      · rintro ⟨⟨-, hbelow⟩, rfl⟩
        have hnone : ∀ e ∈ fval.entries, schema.fetches r.relatedModel e = none :=
          fun e he => (hbelow r hfetches e he).2
        refine ⟨_, ⟨fun e he => ⟨(hbelow r hfetches e he).1, fun r' hr' => ?_⟩, rfl⟩, ?_⟩
        · rw [hnone e he] at hr'
          cases hr'
        · rw [prefetchOf_eq_nil.mpr hnone, Schema.prefetchOf, hfetches]
          rfl
    · rw [if_neg hfetch] at hfetches
      rw [prepareField, if_neg hfetch, Schema.prefetchOf, hfetches, Except.ok.injEq, eq_comm]
      exact (and_iff_right ⟨hsome, fun r hr => by rw [hfetches] at hr; cases hr⟩).symm

/-- **The plans that are made.** -/
theorem modelPrepareFetchFields_eq_ok :
    modelPrepareFetchFields schema m tree = .ok plan ↔ (∀ e ∈ tree.entries, schema.Shallow m e) ∧
      plan = ⟨schema.onlyOf m tree, tree.entries.filterMap (schema.prefetchOf m)⟩ := by
  induction tree generalizing m plan with
  | nil =>
    rw [modelPrepareFetchFields, Except.ok.injEq, eq_comm]
    exact (and_iff_right fun e he => (List.not_mem_nil he).elim).symm
  | cons fname fval rest ihval ihrest =>
    rw [modelPrepareFetchFields]
    cases hfield : schema.getField m fname with
    | none =>
      refine iff_of_false (fun h => by cases h) fun h => ?_
      have hsome := (h.1 (fname, fval) List.mem_cons_self).1
      rw [hfield] at hsome
      cases hsome
    | some field =>
      have honly : schema.onlyOf m (.cons fname fval rest) =
          (if field.onRow then [fname] else []) ++ schema.onlyOf m rest := by
        simp only [Schema.onlyOf, PathTree.entries, List.filter_cons, hfield, Option.any_some]
        split_ifs <;> rfl
      have hprefetch : (PathTree.cons fname fval rest).entries.filterMap (schema.prefetchOf m) =
          (schema.prefetchOf m (fname, fval)).toList ++ rest.entries.filterMap (schema.prefetchOf m) := by
        rw [PathTree.entries, List.filterMap_cons]
        cases schema.prefetchOf m (fname, fval) <;> rfl
      simp only [bind_eq_ok, prepareField_eq_ok hfield fun m plan => ihval, ihrest, PathTree.entries,
        List.forall_mem_cons, honly]
      rw [← PathTree.entries, hprefetch]
      constructor
      · rintro ⟨here, ⟨hhere, rfl⟩, others, ⟨hothers, rfl⟩, h⟩
        exact ⟨⟨hhere, hothers⟩, (Except.ok.inj h).symm⟩
      · rintro ⟨⟨hhere, hothers⟩, rfl⟩
        exact ⟨_, ⟨hhere, rfl⟩, _, ⟨hothers, rfl⟩, rfl⟩

variable (schema) in
/-- The queryset of a plan. -/
def Schema.queryset (model : M) (fieldLookups : List String) : Queryset M where
  model := model
  only :=
    let onlyFields := schema.onlyOf model (lookupMap fieldLookups)
    some (if onlyFields = [] then [schema.pk model] else onlyFields)
  prefetches := (lookupMap fieldLookups).entries.filterMap (schema.prefetchOf model)

theorem querysetFetchFields_eq_ok {fieldLookups : List String} {qs : Queryset M} :
    querysetFetchFields schema m fieldLookups = .ok qs ↔
      (∀ e ∈ (lookupMap fieldLookups).entries, schema.Shallow m e) ∧ qs = schema.queryset m fieldLookups := by
  simp only [querysetFetchFields, bind_eq_ok, modelPrepareFetchFields_eq_ok]
  constructor
  · rintro ⟨plan, ⟨hshallow, rfl⟩, h⟩
    exact ⟨hshallow, (Except.ok.inj h).symm⟩
  · rintro ⟨hshallow, rfl⟩
    exact ⟨_, ⟨hshallow, rfl⟩, rfl⟩

end Plans

/-! ## What an instance holds -/

section Instances

variable {M K V : Type} {schema : Schema M} {db : Database schema K V} {m : M} {fname : String} {field : Field M}

theorem Schema.mem_of_getField (h : schema.getField m fname = some field) :
    field ∈ schema.fields m ∧ (field.name = fname ∨ field.attname = some fname) :=
  ⟨List.mem_of_find?_eq_some h, by simpa using List.find?_some h⟩

theorem Schema.name_of_accessor (h : schema.getField m fname = some field) (haccessor : field.accessor = some fname) :
    field.name = fname := by
  cases field with
  | column name => cases haccessor
  | relation name concrete r =>
    cases concrete with
    | true => exact Option.some.inj haccessor
    | false => exact (mem_of_getField h).2.resolve_right fun hattname => by cases hattname

/-- A relation to one row without a column is asked for by its name. -/
theorem Schema.name_of_not_onRow (h : schema.getField m fname = some field) {r : Relation M}
    (hr : field.relation? = some r) (htoMany : r.cardinality.toMany = false) (honRow : ¬ field.onRow = true) :
    field.name = fname := by
  cases field with
  | column name => cases hr
  | relation name concrete r' =>
    obtain rfl := Option.some.inj hr
    cases concrete with
    | true => simp [Field.onRow, htoMany] at honRow
    | false => exact (mem_of_getField h).2.resolve_right fun hattname => by cases hattname

theorem Schema.prefetcher_eq (h : schema.getField m fname = some field) :
    schema.prefetcher m fname = if field.accessor = some fname then field.relation? else none := by
  rw [prefetcher]
  cases hfind : (schema.fields m).find? fun field => decide (field.accessor = some fname) with
  | none =>
    rw [if_neg, Option.bind_none]
    simpa using List.find?_eq_none.mp hfind field (mem_of_getField h).1
  | some other =>
    have haccessor : other.accessor = some fname := by simpa using List.find?_some hfind
    obtain rfl := schema.accessors m fname field other h (List.mem_of_find?_eq_some hfind) haccessor
    rw [if_pos haccessor, Option.bind_some]

theorem Database.lookup_values {rows : Rows M} {k : K} {joined : Option String} {column : String}
    (h : column ∈ rows.loaded schema ++ joined.toList) :
    (db.values rows k joined).lookup column = some (db.column rows.model k column) := by
  have hlookup := Dict.lookup_filterMap (k := column) id (fun c => some (db.column rows.model k c))
    (rows.loaded schema ++ joined.toList)
  rw [List.map_id, if_pos h] at hlookup
  rw [← hlookup, values, ← List.filterMap_eq_map]
  rfl

/-- The column of a field that `only` names, or that is not restricted. -/
theorem Rows.mem_loaded {rows : Rows M} {column : String} (h : schema.getField rows.model fname = some field)
    (hcolumn : field.attname = some column) (honly : ∀ names, rows.only = some names → fname ∈ names) :
    column ∈ rows.loaded schema := by
  refine List.mem_filter.mpr ⟨List.mem_filterMap.mpr ⟨field, (Schema.mem_of_getField h).1, hcolumn⟩, ?_⟩
  cases hrows : rows.only with
  | none => rfl
  | some names =>
    exact decide_eq_true ⟨fname, List.mem_cons_of_mem _ (honly names hrows), by rw [h]; exact hcolumn⟩

theorem Field.attname_of_onRow (h : field.onRow = true) : ∃ column, field.attname = some column := by
  cases field with
  | column name => exact ⟨name, rfl⟩
  | relation name concrete r =>
    obtain rfl : concrete = true := (Bool.and_eq_true_iff.mp h).2
    exact ⟨name ++ "_id", rfl⟩

variable {qs : Queryset M} {k : K} {lookup : String} {r : Relation M}

/-- A row has its related rows under each relation that is prefetched. -/
theorem Queryset.cached_row (db : Database schema K V) (k : K) (hmem : lookup ∈ qs.prefetches.map Prefetch.lookup)
    (hr : schema.prefetcher qs.model lookup = some r)
    (hsingle : r.cardinality.toMany = false → (db.related qs.model lookup k).length ≤ 1) :
    (qs.instances db (.row k)).cached lookup = some ((db.related qs.model lookup k).map (.related lookup k)) := by
  rw [Instance.cached, instances, Dict.lookup_filterMap, Dict.lookup_filterMap, if_pos hmem, if_pos hmem, one?, many?,
    hr]
  dsimp only
  cases htoMany : r.cardinality.toMany with
  | true => simp
  | false =>
    rw [if_neg Bool.false_ne_true]
    dsimp only
    have hlength := hsingle htoMany
    generalize db.related qs.model lookup k = related at hlength ⊢
    rcases related with _ | ⟨rk, _ | ⟨rk', rest⟩⟩
    · rfl
    · rfl
    · simp at hlength

theorem Queryset.cached_row_eq_none (hmem : lookup ∉ qs.prefetches.map Prefetch.lookup) :
    (qs.instances db (.row k)).cached lookup = none := by
  rw [Instance.cached, instances, Dict.lookup_filterMap, Dict.lookup_filterMap, if_neg hmem, if_neg hmem]

/-- The related rows of a prefetch that is the first one of its name. -/
theorem Queryset.instances_related (db : Database schema K V) (k rk : K) {p : Prefetch M}
    (hp : qs.prefetches.find? (fun p => p.lookup = lookup) = some p) (hr : schema.prefetcher qs.model lookup = some r) :
    qs.instances db (.related lookup k rk) =
      { values := db.values p.queryset rk r.joined
        fieldsCache := if r.cardinality.linksBack then [(r.remote, some (.row k))] else []
        prefetchedObjects := [] } := by
  rw [instances, hp, hr]

end Instances

/-! ## The lookups that are loaded -/

section Main

variable {M : Type} (schema : Schema M)

/-- The lookups have one relation at most, whose accessor is its name.  A relation asked for by itself has a column, or
many rows; else there is another lookup below it, or it leads back to the row. -/
def Schema.Plain (m : M) (paths : List (List String)) : Prop :=
  ∀ path ∈ paths, match path with
    | [] => True
    | [fname] => ∀ field, schema.getField m fname = some field → field.onRow = true ∨
        ∃ r, field.relation? = some r ∧ field.accessor = some fname ∧
          (r.cardinality.toMany = true ∨ ∃ next rest, fname :: next :: rest ∈ paths)
    | [fname, next] => ∀ field, schema.getField m fname = some field →
        ∃ r, field.relation? = some r ∧ field.accessor = some fname ∧
          ∀ below, schema.getField r.relatedModel next = some below → below.onRow = true ∨
            ∃ back, below.relation? = some back ∧ back.cardinality.toMany = false ∧
              r.cardinality.linksBack = true ∧ r.remote = next
    | _ :: _ :: _ :: _ => False

variable {schema} {m : M} {fieldLookups : List String}

theorem Schema.Valid.of_start {path q : List String} (h : schema.Valid m path) (hq : q <+: path) :
    schema.Valid m q := by
  induction q generalizing m path with
  | nil => trivial
  | cons fname q ih =>
    obtain ⟨rest, rfl⟩ := hq
    rw [List.cons_append, Valid] at h
    rw [Valid]
    cases hfield : schema.getField m fname with
    | none => rwa [hfield] at h
    | some field =>
      rw [hfield] at h
      cases field with
      | column name => exact (List.append_eq_nil_iff.mp h).1
      | relation name concrete r => exact ih h (List.prefix_append q rest)

theorem Schema.Valid.getField {fname : String} {rest : List String} (h : schema.Valid m (fname :: rest)) :
    ∃ field, schema.getField m fname = some field := by
  rw [Valid] at h
  cases hfield : schema.getField m fname with
  | none => rw [hfield] at h; exact h.elim
  | some field => exact ⟨field, rfl⟩

theorem Schema.Valid.relation {fname next : String} {rest : List String} (h : schema.Valid m (fname :: next :: rest)) :
    ∃ name concrete r, schema.getField m fname = some (.relation name concrete r) ∧
      schema.Valid r.relatedModel (next :: rest) := by
  obtain ⟨field, hfield⟩ := h.getField
  rw [Valid, hfield] at h
  cases field with
  | column name => exact absurd h (List.cons_ne_nil next rest)
  | relation name concrete r => exact ⟨name, concrete, r, hfield, h⟩

/-- A dict of lookups: what its entries say of the lookups, two levels down. -/
theorem lookup_of_entry {fname : String} {fval : PathTree String}
    (he : (fname, fval) ∈ (lookupMap fieldLookups).entries) :
    ∃ lookup ∈ fieldLookups, [fname] <+: splitLookup lookup :=
  (mem_entries_lookupMap he []).mp PathTree.has_nil

theorem lookup_of_entries {fname next : String} {fval sub : PathTree String}
    (he : (fname, fval) ∈ (lookupMap fieldLookups).entries) (he' : (next, sub) ∈ fval.entries) {path : List String}
    (hpath : sub.Has path) : ∃ lookup ∈ fieldLookups, fname :: next :: path <+: splitLookup lookup := by
  have hget := PathTree.get_of_mem_entries (PathTree.distinct_ofPaths.of_mem he) he'
  exact (mem_entries_lookupMap he (next :: path)).mp (PathTree.has_cons.mpr ⟨sub, hget, hpath⟩)

/-- The entries of the dict, when the lookups are plain. -/
theorem Schema.Plain.shallow (hplain : schema.Plain m (fieldLookups.map splitLookup))
    (hvalid : ∀ lookup ∈ fieldLookups, schema.Valid m (splitLookup lookup)) :
    ∀ e ∈ (lookupMap fieldLookups).entries, schema.Shallow m e := by
  rintro ⟨fname, fval⟩ he
  refine ⟨?_, fun r hr => ?_⟩
  · obtain ⟨lookup, hlookup, hstart⟩ := lookup_of_entry he
    obtain ⟨field, hfield⟩ := ((hvalid lookup hlookup).of_start hstart).getField
    rw [hfield]
    rfl
  · rintro ⟨next, sub⟩ he'
    obtain ⟨lookup, hlookup, rest, hpath⟩ := lookup_of_entries he he' PathTree.has_nil
    have hvalid := hvalid lookup hlookup
    have hclause := hplain _ (List.mem_map_of_mem hlookup)
    rw [← hpath] at hvalid hclause
    obtain ⟨name, concrete, r', hfield, hrest⟩ := hvalid.relation
    obtain ⟨below, hbelow⟩ := hrest.getField
    obtain rfl : r = r' := by
      rw [fetches_relation fval hfield] at hr
      split_ifs at hr
      exact (Option.some.inj hr).symm
    refine ⟨by rw [hbelow]; rfl, ?_⟩
    obtain rfl : rest = [] := by
      cases rest with
      | nil => rfl
      | cons third rest => exact hclause.elim
    obtain ⟨r', hr', -, hnext⟩ := hclause _ hfield
    obtain rfl : r = r' := Option.some.inj hr'
    -- nothing is asked below: a third part makes no plain lookup
    have hsub : sub = .nil := by
      by_contra hne
      obtain ⟨third, hthird⟩ := PathTree.ne_nil_iff.mp hne
      obtain ⟨lookup', hlookup', rest', hpath'⟩ := lookup_of_entries he he' hthird
      have hclause' := hplain _ (List.mem_map_of_mem hlookup')
      rw [← hpath'] at hclause'
      exact hclause'.elim
    have hone : ∀ back, below.relation? = some back → back.cardinality.toMany = false := by
      intro back hback
      rcases hnext below hbelow with honRow | ⟨back', hback', htoMany, -⟩
      · cases below with
        | column name => cases hback
        | relation name concrete r =>
          obtain rfl := Option.some.inj hback
          simpa using (Bool.and_eq_true_iff.mp honRow).1
      · rwa [Option.some.inj (hback.symm.trans hback')]
    cases below with
    | column name => rw [Schema.fetches, hbelow]; rfl
    | relation name concrete back =>
      rw [fetches_relation sub hbelow, if_neg]
      rw [hone back rfl, hsub]
      simp

/-- A prefetch of a plain lookup is found on the instances. -/
theorem Schema.Plain.prefetcher (hplain : schema.Plain m (fieldLookups.map splitLookup)) {fname : String}
    {fval : PathTree String} (he : (fname, fval) ∈ (lookupMap fieldLookups).entries) {r : Relation M}
    (hr : schema.fetches m (fname, fval) = some r) :
    ∃ field, schema.getField m fname = some field ∧ field.relation? = some r ∧ field.accessor = some fname ∧
      schema.prefetcher m fname = some r := by
  obtain ⟨field, hfield, hrelation, hfetch⟩ := fetches_eq_some.mp hr
  have haccessor : field.accessor = some fname := by
    by_cases hfval : fval = .nil
    · have htoMany := hfetch.resolve_right fun hne => hne hfval
      obtain ⟨lookup, hlookup, rest, hpath⟩ := lookup_of_entry he
      have hclause := hplain _ (List.mem_map_of_mem hlookup)
      rw [← hpath] at hclause
      cases rest with
      | nil =>
        rcases hclause field hfield with honRow | ⟨r', -, haccessor, -⟩
        · cases field with
          | column name => cases hrelation
          | relation name concrete r' =>
            obtain rfl := Option.some.inj hrelation
            simp [Field.onRow, htoMany] at honRow
        · exact haccessor
      | cons next rest =>
        refine absurd ((mem_entries_lookupMap he [next]).mpr ⟨lookup, hlookup, rest, hpath⟩) ?_
        rw [hfval]
        exact PathTree.not_has_empty
    · obtain ⟨next, hnext⟩ := PathTree.ne_nil_iff.mp hfval
      obtain ⟨lookup, hlookup, rest, hpath⟩ := (mem_entries_lookupMap he [next]).mp hnext
      have hclause := hplain _ (List.mem_map_of_mem hlookup)
      rw [← hpath] at hclause
      cases rest with
      | nil =>
        obtain ⟨-, -, haccessor, -⟩ := hclause field hfield
        exact haccessor
      | cons third rest => exact hclause.elim
  exact ⟨field, hfield, hrelation, haccessor, by rw [prefetcher_eq hfield, if_pos haccessor, hrelation]⟩

section Queryset

variable {K V : Type} (db : Database schema K V)

theorem mem_prefetches {fname : String} {fval : PathTree String} (he : (fname, fval) ∈ (lookupMap fieldLookups).entries)
    {r : Relation M} (hr : schema.fetches m (fname, fval) = some r) :
    fname ∈ (schema.queryset m fieldLookups).prefetches.map Prefetch.lookup := by
  obtain ⟨p, hp, hlookup⟩ : ∃ p, schema.prefetchOf m (fname, fval) = some p ∧ p.lookup = fname := by
    rw [Schema.prefetchOf, hr]
    exact ⟨_, rfl, rfl⟩
  exact List.mem_map.mpr ⟨p, List.mem_filterMap.mpr ⟨_, he, hp⟩, hlookup⟩

/-- The prefetch of an entry is the only one of its name. -/
theorem find?_prefetches {fname : String} {fval : PathTree String}
    (he : (fname, fval) ∈ (lookupMap fieldLookups).entries) {r : Relation M}
    (hr : schema.fetches m (fname, fval) = some r) :
    ∃ p, (schema.queryset m fieldLookups).prefetches.find? (fun p => p.lookup = fname) = some p ∧
      p.queryset.model = r.relatedModel ∧
      ∀ names, p.queryset.only = some names → names = schema.onlyOf r.relatedModel fval := by
  obtain ⟨p₀, hmem₀, hlookup₀⟩ := List.mem_map.mp (mem_prefetches he hr)
  cases hfind : (schema.queryset m fieldLookups).prefetches.find? fun p => p.lookup = fname with
  | none => exact absurd (decide_eq_true hlookup₀) (List.find?_eq_none.mp hfind p₀ hmem₀)
  | some p =>
    have hlookup : p.lookup = fname := by simpa using List.find?_some hfind
    obtain ⟨⟨fname', fval'⟩, he', hp⟩ := List.mem_filterMap.mp (List.mem_of_find?_eq_some hfind)
    obtain ⟨r', hr', rfl⟩ := Option.map_eq_some_iff.mp hp
    obtain rfl : fname' = fname := hlookup
    have hget := PathTree.get_of_mem_entries PathTree.distinct_ofPaths he
    have hget' := PathTree.get_of_mem_entries PathTree.distinct_ofPaths he'
    obtain rfl := Option.some.inj (hget.symm.trans hget')
    obtain rfl := Option.some.inj (hr.symm.trans hr')
    refine ⟨_, rfl, rfl, fun names hnames => ?_⟩
    dsimp only at hnames
    split_ifs at hnames
    exact (Option.some.inj hnames).symm

/-- The plan of plain lookups is made, and read. -/
theorem Schema.Plain.read_eq (hplain : schema.Plain m (fieldLookups.map splitLookup))
    (hvalid : ∀ lookup ∈ fieldLookups, schema.Valid m (splitLookup lookup)) (keys : List K) :
    db.read m fieldLookups keys = .ok ((schema.queryset m fieldLookups).instances db) := by
  have hplan := querysetFetchFields_eq_ok.mpr ⟨hplain.shallow hvalid, rfl⟩
  rw [Database.read, hplan]
  refine if_neg ?_
  rintro ⟨-, p, hp, hnone⟩
  obtain ⟨⟨fname, fval⟩, he, hp⟩ := List.mem_filterMap.mp hp
  obtain ⟨r, hr, rfl⟩ := Option.map_eq_some_iff.mp hp
  obtain ⟨-, -, -, -, hprefetcher⟩ := hplain.prefetcher he hr
  have hsome : schema.prefetcher (schema.queryset m fieldLookups).model fname = some r := hprefetcher
  rw [hsome] at hnone
  cases hnone

/-- A field with a column is loaded with the rows whose `only` names it, or has no `only`. -/
theorem carries_column {instances : Address K → Instance K V} (rows : Rows M) {a : Address K} {joined : Option String}
    {fname : String} {field : Field M} (hvalues : (instances a).values = db.values rows a.key joined)
    (hfield : schema.getField rows.model fname = some field) (honRow : field.onRow = true)
    (honly : ∀ names, rows.only = some names → fname ∈ names) : Carries db instances rows.model a [fname] := by
  obtain ⟨column, hcolumn⟩ := Field.attname_of_onRow honRow
  rw [Carries, hfield]
  dsimp only
  rw [if_pos ⟨rfl, honRow⟩]
  refine ⟨column, hcolumn, ?_⟩
  rw [hvalues, Database.lookup_values (List.mem_append_left _ (Rows.mem_loaded hfield hcolumn honly))]

theorem carries_related {instances : Address K → Instance K V} {a : Address K} {fname : String} {rest : List String}
    {field : Field M} {r : Relation M} {related : List (Address K)} (hfield : schema.getField m fname = some field)
    (hr : field.relation? = some r) (hnot : ¬ (rest = [] ∧ field.onRow = true))
    (hcached : (instances a).cached field.name = some related)
    (hkeys : related.map Address.key = db.related m field.name a.key)
    (hrest : ∀ b ∈ related, Carries db instances r.relatedModel b rest) : Carries db instances m a (fname :: rest) := by
  rw [Carries, hfield]
  dsimp only
  rw [if_neg hnot]
  exact ⟨r, hr, related, hcached, hkeys, hrest⟩

theorem mem_onlyOf {tree sub : PathTree String} {fname : String} {field : Field M} (he : (fname, sub) ∈ tree.entries)
    (hfield : schema.getField m fname = some field) (honRow : field.onRow = true) : fname ∈ schema.onlyOf m tree := by
  refine List.mem_map.mpr ⟨_, List.mem_filter.mpr ⟨he, ?_⟩, rfl⟩
  rw [hfield]
  exact honRow

/-- The related rows of a row, under an entry that prefetches. -/
theorem Schema.Plain.cached (hplain : schema.Plain m (fieldLookups.map splitLookup)) {fname : String}
    {fval : PathTree String} (he : (fname, fval) ∈ (lookupMap fieldLookups).entries) {r : Relation M}
    (hr : schema.fetches m (fname, fval) = some r) (k : K) :
    (((schema.queryset m fieldLookups).instances db) (.row k)).cached fname =
      some ((db.related m fname k).map (.related fname k)) := by
  obtain ⟨field, hfield, hrelation, haccessor, hprefetcher⟩ := hplain.prefetcher he hr
  refine Queryset.cached_row db k (mem_prefetches he hr) hprefetcher fun htoMany => ?_
  cases field with
  | column name => cases hrelation
  | relation name concrete r' =>
    obtain rfl := Option.some.inj hrelation
    have hname : name = fname := name_of_accessor hfield haccessor
    exact db.single m fname concrete r' k (hname ▸ (mem_of_getField hfield).1) htoMany

/-- **Plain lookups are loaded.** -/
theorem Schema.Plain.carries (hplain : schema.Plain m (fieldLookups.map splitLookup))
    (hvalid : ∀ lookup ∈ fieldLookups, schema.Valid m (splitLookup lookup)) (k : K) :
    ∀ lookup ∈ fieldLookups,
      Carries db ((schema.queryset m fieldLookups).instances db) m (.row k) (splitLookup lookup) := by
  intro lookup hlookup
  have hclause := hplain _ (List.mem_map_of_mem hlookup)
  have hvalid := hvalid lookup hlookup
  have hentry := has_lookupMap_of_mem hlookup
  generalize splitLookup lookup = path at *
  match path with
  | [] => trivial
  | [fname] =>
    obtain ⟨field, hfield⟩ := hvalid.getField
    obtain ⟨fval, hget, -⟩ := PathTree.has_cons.mp (hentry [fname] [] rfl)
    have he := PathTree.mem_entries_of_get hget
    by_cases honRow : field.onRow = true
    · refine carries_column db (schema.queryset m fieldLookups).toRows rfl hfield honRow fun names hnames => ?_
      have hmem := mem_onlyOf he hfield honRow
      rw [← Option.some.inj hnames, if_neg (List.ne_nil_of_mem hmem)]
      exact hmem
    · obtain ⟨r, hr, haccessor, hbelow⟩ := (hclause field hfield).resolve_left honRow
      have hfetch : r.cardinality.toMany = true ∨ fval ≠ .nil := by
        refine hbelow.imp_right fun ⟨next, rest, hpath⟩ => PathTree.ne_nil_iff.mpr ⟨next, ?_⟩
        obtain ⟨lookup', hlookup', hpath'⟩ := List.mem_map.mp hpath
        exact (mem_entries_lookupMap he [next]).mpr ⟨lookup', hlookup', rest, hpath'.symm⟩
      have hcached := hplain.cached db he (fetches_eq_some.mpr ⟨field, hfield, hr, hfetch⟩) k
      have hname := name_of_accessor hfield haccessor
      refine carries_related db hfield hr (fun h => honRow h.2) (hname ▸ hcached) ?_ fun b _ => trivial
      rw [hname, List.map_map]
      exact List.map_id _
  | [fname, next] =>
    obtain ⟨name, concrete, r, hfield, hrest⟩ := hvalid.relation
    obtain ⟨below, hbelow⟩ := hrest.getField
    obtain ⟨r', hr', haccessor, hnext⟩ := hclause _ hfield
    obtain rfl : r = r' := Option.some.inj hr'
    obtain ⟨fval, hget, hhas⟩ := PathTree.has_cons.mp (hentry [fname, next] [] rfl)
    have he := PathTree.mem_entries_of_get hget
    have hfetches := fetches_eq_some.mpr ⟨_, hfield, hr', .inr (PathTree.ne_nil_iff.mpr ⟨next, hhas⟩)⟩
    obtain rfl : name = fname := name_of_accessor hfield haccessor
    have hcached := hplain.cached db he hfetches k
    refine carries_related db hfield hr' (fun h => List.cons_ne_nil next [] h.1) hcached ?_ fun b hb => ?_
    · rw [List.map_map]
      exact List.map_id _
    obtain ⟨rk, hrk, rfl⟩ := List.mem_map.mp hb
    obtain ⟨p, hp, hmodel, honly⟩ := find?_prefetches he hfetches
    obtain ⟨-, -, -, -, hprefetcher⟩ := hplain.prefetcher he hfetches
    have hinstance := Queryset.instances_related db k rk hp hprefetcher
    by_cases honRow : below.onRow = true
    · obtain ⟨sub, hsub, -⟩ := PathTree.has_cons.mp hhas
      have hvalues : ((schema.queryset m fieldLookups).instances db (.related name k rk)).values =
          db.values p.queryset (Address.related name k rk).key r.joined := by rw [hinstance]; rfl
      rw [← hmodel] at hbelow ⊢
      refine carries_column db p.queryset hvalues hbelow honRow fun names hnames => ?_
      rw [honly names hnames, ← hmodel]
      exact mem_onlyOf (PathTree.mem_entries_of_get hsub) hbelow honRow
    · -- the way back, which the prefetch has cached
      obtain ⟨back, hback, htoMany, hlinks, hremote⟩ := (hnext below hbelow).resolve_left honRow
      have hbelowName := name_of_not_onRow hbelow hback htoMany honRow
      have hrow : ((schema.queryset m fieldLookups).instances db (.related name k rk)).cached below.name =
          some [.row k] := by
        rw [hinstance, if_pos hlinks, Instance.cached, hbelowName, hremote]
        simp
      refine carries_related db hbelow hback (fun h => honRow h.2) hrow ?_ fun b _ => trivial
      rw [hbelowName, ← hremote]
      exact (db.back m name concrete r k rk (mem_of_getField hfield).1 hlinks hrk).symm
  | _ :: _ :: _ :: _ => exact hclause.elim

end Queryset

section Converse

variable {K V : Type} [Inhabited K] [Inhabited V]

/-- A database whose relations lead from a row to the one with its key. -/
def Database.diagonal (schema : Schema M) (K V : Type) [Inhabited V] : Database schema K V where
  column _ _ _ := default
  related _ _ k := [k]
  single _ _ _ _ _ _ _ := le_rfl
  back _ _ _ _ k _ _ _ h := by rw [List.mem_singleton.mp h]

/-- What is read for one row of it, when it can be. -/
theorem diagonal_read {instances : Address K → Instance K V}
    (hread : (Database.diagonal schema K V).read m fieldLookups [default] = .ok instances) :
    (∀ e ∈ (lookupMap fieldLookups).entries, schema.Shallow m e) ∧
      instances = (schema.queryset m fieldLookups).instances (Database.diagonal schema K V) ∧
      ∀ fname fval r, (fname, fval) ∈ (lookupMap fieldLookups).entries → schema.fetches m (fname, fval) = some r →
        ∃ field, schema.getField m fname = some field ∧ field.relation? = some r ∧ field.accessor = some fname ∧
          schema.prefetcher m fname = some r := by
  obtain ⟨qs, hqs, hfetch⟩ := bind_eq_ok.mp hread
  obtain ⟨hshallow, rfl⟩ := querysetFetchFields_eq_ok.mp hqs
  rw [Queryset.fetch] at hfetch
  split_ifs at hfetch with hfailed
  refine ⟨hshallow, (Except.ok.inj hfetch).symm, fun fname fval r he hr => ?_⟩
  obtain ⟨field, hfield, hrelation, -⟩ := fetches_eq_some.mp hr
  obtain ⟨p, hp, hlookup⟩ := List.mem_map.mp (mem_prefetches he hr)
  have hsome : schema.prefetcher m fname ≠ none := fun hnone =>
    hfailed ⟨List.cons_ne_nil _ _, p, hp, Option.isNone_iff_eq_none.mpr (hlookup ▸ hnone)⟩
  rw [Schema.prefetcher_eq hfield] at hsome
  split_ifs at hsome with haccessor
  · exact ⟨field, hfield, hrelation, haccessor, by rw [Schema.prefetcher_eq hfield, if_pos haccessor, hrelation]⟩
  · exact absurd rfl hsome

/-- **Only plain lookups are loaded**, from every database. -/
theorem plain_of_loaded (hvalid : ∀ lookup ∈ fieldLookups, schema.Valid m (splitLookup lookup))
    {instances : Address K → Instance K V}
    (hread : (Database.diagonal schema K V).read m fieldLookups [default] = .ok instances)
    (hcarries : ∀ lookup ∈ fieldLookups,
      Carries (Database.diagonal schema K V) instances m (.row default) (splitLookup lookup)) :
    schema.Plain m (fieldLookups.map splitLookup) := by
  obtain ⟨hshallow, rfl, hprefetched⟩ := diagonal_read hread
  intro path hpath
  obtain ⟨lookup, hlookup, rfl⟩ := List.mem_map.mp hpath
  have hvalid := hvalid lookup hlookup
  have hcarried := hcarries lookup hlookup
  have hentry := has_lookupMap_of_mem hlookup
  generalize splitLookup lookup = path at *
  match path with
  | [] => trivial
  | [fname] =>
    intro field hfield
    obtain ⟨fval, hget, -⟩ := PathTree.has_cons.mp (hentry [fname] [] rfl)
    have he := PathTree.mem_entries_of_get hget
    refine or_iff_not_imp_left.mpr fun honRow => ?_
    rw [Carries, hfield] at hcarried
    dsimp only at hcarried
    rw [if_neg fun h => honRow h.2] at hcarried
    obtain ⟨r, hr, related, hcached, -⟩ := hcarried
    cases hfetches : schema.fetches m (fname, fval) with
    | some r' =>
      obtain ⟨field', hfield', hr', haccessor, -⟩ := hprefetched fname fval r' he hfetches
      obtain ⟨-, -, -, hfetch⟩ := fetches_eq_some.mp hfetches
      obtain rfl := Option.some.inj (hfield.symm.trans hfield')
      obtain rfl := Option.some.inj (hr.symm.trans hr')
      refine ⟨r, hr, haccessor, hfetch.imp_right fun hne => ?_⟩
      obtain ⟨next, hnext⟩ := PathTree.ne_nil_iff.mp hne
      obtain ⟨lookup', hlookup', rest, hpath'⟩ := (mem_entries_lookupMap he [next]).mp hnext
      exact ⟨next, rest, List.mem_map.mpr ⟨lookup', hlookup', hpath'.symm⟩⟩
    | none =>
      -- the relation is dropped
      have hnot : ¬ (r.cardinality.toMany = true ∨ fval ≠ .nil) := fun h => by
        rw [fetches_eq_some.mpr ⟨field, hfield, hr, h⟩] at hfetches
        cases hfetches
      have hname := Schema.name_of_not_onRow hfield hr (by simpa using (not_or.mp hnot).1) honRow
      rw [hname, Queryset.cached_row_eq_none] at hcached
      · cases hcached
      · intro hmem
        obtain ⟨p, hp, hlookup⟩ := List.mem_map.mp hmem
        obtain ⟨⟨fname', fval'⟩, he', hp⟩ := List.mem_filterMap.mp hp
        obtain ⟨r', hr', rfl⟩ := Option.map_eq_some_iff.mp hp
        obtain rfl : fname' = fname := hlookup
        have hget' := PathTree.get_of_mem_entries PathTree.distinct_ofPaths he'
        obtain rfl := Option.some.inj (hget.symm.trans hget')
        rw [hfetches] at hr'
        cases hr'
  | [fname, next] =>
    intro field hfield
    obtain ⟨name, concrete, r, hfield', hrest⟩ := hvalid.relation
    obtain rfl := Option.some.inj (hfield.symm.trans hfield')
    obtain ⟨fval, hget, hhas⟩ := PathTree.has_cons.mp (hentry [fname, next] [] rfl)
    have he := PathTree.mem_entries_of_get hget
    obtain ⟨sub, hsub, -⟩ := PathTree.has_cons.mp hhas
    have hfetches := fetches_eq_some.mpr ⟨_, hfield, rfl, .inr (PathTree.ne_nil_iff.mpr ⟨next, hhas⟩)⟩
    obtain ⟨field', hfield', -, haccessor, hprefetcher⟩ := hprefetched fname fval r he hfetches
    obtain rfl := Option.some.inj (hfield.symm.trans hfield')
    refine ⟨r, rfl, haccessor, fun below hbelow => or_iff_not_imp_left.mpr fun honRow => ?_⟩
    -- the related row is the one the prefetch was read for
    have hname := Schema.name_of_accessor hfield haccessor
    have hrow := Queryset.cached_row (Database.diagonal schema K V) default (mem_prefetches he hfetches) hprefetcher
      fun _ => le_rfl
    rw [Carries, hfield] at hcarried
    dsimp only at hcarried
    rw [if_neg fun h => List.cons_ne_nil next [] h.1, hname] at hcarried
    obtain ⟨r', hr', related, hcached, -, hrelated⟩ := hcarried
    obtain rfl := Option.some.inj hr'
    obtain rfl := Option.some.inj (hrow.symm.trans hcached)
    have hcarried := hrelated (.related fname default default) (List.mem_singleton_self _)
    obtain ⟨p, hp, -⟩ := find?_prefetches he hfetches
    rw [Carries, hbelow] at hcarried
    dsimp only at hcarried
    rw [if_neg fun h => honRow h.2, Queryset.instances_related _ _ _ hp hprefetcher] at hcarried
    obtain ⟨back, hback, cached, hcached, -⟩ := hcarried
    have htoMany : back.cardinality.toMany = false := by
      have hnone := (hshallow _ he).2 r hfetches _ (PathTree.mem_entries_of_get hsub)
      by_contra hne
      rw [fetches_eq_some.mpr ⟨below, hbelow, hback, .inl (by simpa using hne)⟩] at hnone
      cases hnone.2
    have hbelowName := Schema.name_of_not_onRow hbelow hback htoMany honRow
    refine ⟨back, hback, htoMany, ?_⟩
    rw [Instance.cached, hbelowName] at hcached
    by_cases hlinks : r.cardinality.linksBack = true
    · rw [if_pos hlinks, Dict.lookup_cons] at hcached
      by_cases hremote : next = r.remote
      · exact ⟨hlinks, hremote.symm⟩
      · rw [if_neg hremote] at hcached
        cases hcached
    · rw [if_neg hlinks] at hcached
      cases hcached
  | fname :: next :: third :: rest =>
    obtain ⟨name, concrete, r, hfield, hrest⟩ := hvalid.relation
    obtain ⟨name', concrete', r', hfield', -⟩ := hrest.relation
    obtain ⟨fval, hget, hhas⟩ := PathTree.has_cons.mp (hentry [fname, next, third] rest rfl)
    obtain ⟨sub, hsub, hthird⟩ := PathTree.has_cons.mp hhas
    have hne : fval ≠ .nil := PathTree.ne_nil_iff.mpr ⟨next, PathTree.has_cons.mpr ⟨sub, hsub, PathTree.has_nil⟩⟩
    have hfetches := fetches_eq_some.mpr ⟨_, hfield, rfl, .inr hne⟩
    have hnone := (hshallow _ (PathTree.mem_entries_of_get hget)).2 r hfetches _ (PathTree.mem_entries_of_get hsub)
    rw [fetches_eq_some.mpr ⟨_, hfield', rfl, .inr (PathTree.ne_nil_iff.mpr ⟨third, hthird⟩)⟩] at hnone
    cases hnone.2

/-- **The fetch loads what was asked**, from every database and for all rows, exactly if the lookups are plain. -/
theorem loaded_iff_plain (hvalid : ∀ lookup ∈ fieldLookups, schema.Valid m (splitLookup lookup)) :
    (∀ (db : Database schema K V) (keys : List K), ∃ instances, db.read m fieldLookups keys = .ok instances ∧
      ∀ k ∈ keys, ∀ lookup ∈ fieldLookups, Carries db instances m (.row k) (splitLookup lookup)) ↔
      schema.Plain m (fieldLookups.map splitLookup) := by
  constructor
  · intro h
    obtain ⟨instances, hread, hcarries⟩ := h (.diagonal schema K V) [default]
    exact plain_of_loaded hvalid hread (hcarries default (List.mem_singleton_self _))
  · intro hplain db keys
    exact ⟨_, hplain.read_eq db hvalid keys, fun k _ => hplain.carries db hvalid k⟩

end Converse

end Main

/-! ### Orders and their lines -/

section Sample

inductive Shop
  | order
  | line
  | product
deriving DecidableEq

def shopFields : Shop → List (Field Shop)
  | .order => [.column "id", .column "label",
      .relation "lines" false ⟨.oneToMany, .line, some "lines", "order", some "order_id"⟩]
  | .line => [.column "id", .relation "order" true ⟨.manyToOne, .order, none, "lines", none⟩,
      .relation "product" true ⟨.manyToOne, .product, none, "lines", none⟩]
  | .product => [.column "id", .column "name",
      .relation "lines" false ⟨.oneToMany, .line, some "lines", "product", some "product_id"⟩]

def shopSchema : Schema Shop where
  fields := shopFields
  pk _ := "id"
  accessors m fname field other h hmem haccessor := by
    have hall : ∀ other ∈ shopFields m,
        other.accessor.all (fun fname => decide (getField (shopFields m) fname = some other)) = true := by
      cases m <;> decide
    have hother := hall other hmem
    rw [haccessor, Option.all_some, decide_eq_true_eq, h] at hother
    exact (Option.some.inj hother).symm
  columns m := by cases m <;> decide

theorem loaded_iff_plain_sample :
    shopSchema.Plain .order (["lines__product", "label", "lines"].map splitLookup) ∧
      ∀ (db : Database shopSchema ℕ ℕ) (keys : List ℕ), ∃ instances,
        db.read .order ["lines__product", "label", "lines"] keys = .ok instances ∧
          ∀ k ∈ keys, ∀ lookup ∈ ["lines__product", "label", "lines"],
            Carries db instances .order (.row k) (splitLookup lookup) := by
  have hlines : shopSchema.getField .order "lines" =
      some (.relation "lines" false ⟨.oneToMany, .line, some "lines", "order", some "order_id"⟩) := rfl
  have hplain : shopSchema.Plain .order (["lines__product", "label", "lines"].map splitLookup) := by
    show shopSchema.Plain .order [["lines", "product"], ["label"], ["lines"]]
    intro path hpath
    simp only [List.mem_cons, List.not_mem_nil, or_false] at hpath
    rcases hpath with rfl | rfl | rfl
    · intro field hfield
      obtain rfl := Option.some.inj (hlines.symm.trans hfield)
      refine ⟨_, rfl, rfl, fun below hbelow => .inl ?_⟩
      obtain rfl := Option.some.inj hbelow
      rfl
    · intro field hfield
      obtain rfl := Option.some.inj hfield
      exact .inl rfl
    · intro field hfield
      obtain rfl := Option.some.inj (hlines.symm.trans hfield)
      exact .inr ⟨_, rfl, rfl, .inl rfl⟩
  refine ⟨hplain, (loaded_iff_plain ?_).2 hplain⟩
  simp only [List.forall_mem_cons]
  exact ⟨trivial, rfl, trivial, fun _ h => (List.not_mem_nil h).elim⟩

/-- **A relation below a relation below a relation**: the plan raises a `TypeError`. -/
theorem nested_relation_raises :
    shopSchema.Valid .order (splitLookup "lines__product__name") ∧
      ¬ ∀ (db : Database shopSchema ℕ ℕ) (keys : List ℕ), ∃ instances,
        db.read .order ["lines__product__name"] keys = .ok instances ∧
        ∀ k ∈ keys, ∀ lookup ∈ ["lines__product__name"], Carries db instances .order (.row k) (splitLookup lookup) := by
  refine ⟨rfl, fun h => ?_⟩
  obtain ⟨instances, hread, -⟩ := h (.diagonal shopSchema ℕ ℕ) []
  rw [Database.read, querysetFetchFields, lookupMap_singleton] at hread
  cases hread

end Sample

end Totem.Orm
