import Totem.Lib.Dict
import Totem.Services.Relations

/-!
# Totem.Services.InternalValues — the errors of `to_internal_values`

`ServiceBase.to_internal_values` with its error objects, and with the order in which it goes through the set of
the fields of an item.

* `checkAll_holds`: the errors of the checks, all of them.
* `get_convertAll`: of the relations of an item that cannot be resolved, the last one gone through.
* `reports_all_iff`: when the errors are what they should be.
* `toInternalValuesBy_eq`: in the order of the items' own keys, this is `toInternalValues`.
-/

namespace Totem.Services

open Lib

variable {Model User Pk R Rel J Raw V : Type}

/-! ## Errors -/

/-- The messages of an item, by field. -/
abbrev ServiceValidationError := Dict String (List String)

def ServiceValidationError.addMessage (e : ServiceValidationError) (message key : String) : ServiceValidationError :=
  e.set key ((e.get key).getD [] ++ [message])

/-- `RelationNotFound(message, key=key)`. -/
def relationNotFound (message key : String) : ServiceValidationError := Dict.empty.set key [message]

/-- The errors of the items, by index. -/
abbrev ServiceValidationMultiError := Dict ℕ ServiceValidationError

def ServiceValidationMultiError.addError (e : ServiceValidationMultiError) (key : ℕ) (error : ServiceValidationError) :
    ServiceValidationMultiError := e.set key error

/-- The error names a field of an item. -/
def ServiceValidationMultiError.Holds (e : ServiceValidationMultiError) (index : ℕ) (fname : String) : Prop :=
  ∃ suberror, e.get index = some suberror ∧ fname ∈ suberror.keys

/-! ## The checks of a value -/

/-- A field of the model: what a `ValidationError` of its validators says, or of `Field.validate`. -/
structure ModelField (Raw V : Type) where
  null : Bool
  nullMessage : String
  runValidators : Input Raw V → Option String
  validate : V → Option String

/-- The checks of one value: of a relation, that it is not null; of another field, its own. -/
def ModelField.check (field : ModelField Raw V) (value : Input Raw V) : Option String :=
  match field.runValidators value with
  | some message => some message
  | none =>
    match value with
    | .plain v => field.validate v
    | .key none => if field.null then none else some field.nullMessage
    | .key (some _) => none
    | .keys _ => none

/-- The values of one record, by field. -/
abbrev Item (Raw V : Type) := Dict String (Input Raw V)

/-- The order in which a set of names is gone through. -/
structure SetOrder where
  order : List String → List String
  perm : ∀ names, (order names).Perm names

section

variable (fields : String → ModelField Raw V)

def checkItem (item : Item Raw V) : ServiceValidationError :=
  item.entries.foldl (fun suberror entry =>
    match (fields entry.1).check entry.2 with
    | some message => suberror.addMessage message entry.1
    | none => suberror) .empty

/-- The first loop of `to_internal_values`. -/
def checkAll (data : List (Item Raw V)) : ServiceValidationMultiError :=
  data.zipIdx.foldl (fun error entry =>
    let suberror := checkItem fields entry.1
    if suberror.isEmpty then error else error.addError entry.2 suberror) .empty

variable (str : Raw → String) (resolve : String → Raw → Option R) (set : SetOrder)

/-- One field of an item, and the values and errors with it. -/
def convertStep (index : ℕ) (item : Item Raw V) (acc : Dict String (Internal R V) × ServiceValidationMultiError)
    (fname : String) : Dict String (Internal R V) × ServiceValidationMultiError :=
  match (item.get fname).map (convertField str (resolve fname) fname) with
  | none => acc
  | some (.ok v) => (acc.1.set fname v, acc.2)
  | some (.error message) => (acc.1, acc.2.addError index (relationNotFound message fname))

/-- The second loop of `to_internal_values`. -/
def convertAll (data : List (Item Raw V)) : List (Dict String (Internal R V)) × ServiceValidationMultiError :=
  data.zipIdx.foldl (fun acc entry =>
    let converted := (set.order entry.1.keys).foldl (convertStep str resolve entry.2 entry.1) (.empty, acc.2)
    (acc.1 ++ [converted.1], converted.2)) ([], .empty)

end

section

variable [DecidableEq Model] [DecidableEq Pk] [DecidableEq Raw] (env : Environment Model User R Rel J)
  (related : String → Related Model User Pk R Rel J Raw)

/-- The values of a field in all the items, resolved in one query. -/
def resolveField (data : List (Item Raw V)) (fname : String) : Raw → Option R :=
  resolveRelation (related fname).store env (related fname).model (related fname).toPython
    (groupValues (data.map Dict.entries) fname)

/-- `to_internal_values`. -/
def toInternalValuesBy (fields : String → ModelField Raw V) (str : Raw → String) (set : SetOrder)
    (data : List (Item Raw V)) : Except ServiceValidationMultiError (List (Dict String (Internal R V))) :=
  if ¬ (checkAll fields data).isEmpty then .error (checkAll fields data)
  else
    let converted := convertAll str (resolveField env related data) set data
    if ¬ converted.2.isEmpty then .error converted.2 else .ok converted.1

end

/-! ## The checks -/

section

variable {fields : String → ModelField Raw V} {item : Item Raw V} {data : List (Item Raw V)} {name : String} {i : ℕ}

/-- The message of the check of a field of an item. -/
def checkMessage (fields : String → ModelField Raw V) (item : Item Raw V) (name : String) : Option String :=
  (item.get name).bind (fields name).check

/-- **The messages of an item**: one for each field whose check fails, in the order of the item. -/
theorem entries_checkItem : (checkItem fields item).entries =
    item.entries.filterMap fun entry => ((fields entry.1).check entry.2).map fun message => (entry.1, [message]) := by
  have hfold : ∀ (entries : List (String × Input Raw V)) (suberror : ServiceValidationError),
      (entries.map Prod.fst).Nodup → (∀ entry ∈ entries, suberror.get entry.1 = none) →
      (entries.foldl (fun suberror entry =>
        match (fields entry.1).check entry.2 with
        | some message => suberror.addMessage message entry.1
        | none => suberror) suberror).entries =
      suberror.entries ++
        entries.filterMap fun entry => ((fields entry.1).check entry.2).map fun message => (entry.1, [message]) := by
    intro entries
    induction entries with
    | nil => simp
    | cons entry entries ih =>
      intro suberror hnodup hnew
      rw [List.map_cons, List.nodup_cons] at hnodup
      have hentry := hnew entry List.mem_cons_self
      have hrest : ∀ e ∈ entries, suberror.get e.1 = none := fun e he => hnew e (List.mem_cons_of_mem _ he)
      rw [List.foldl_cons, List.filterMap_cons]
      cases hcheck : (fields entry.1).check entry.2 with
      | none => exact ih suberror hnodup.2 hrest
      | some message =>
        have hadd : suberror.addMessage message entry.1 = suberror.set entry.1 [message] := by
          unfold ServiceValidationError.addMessage
          rw [hentry]
          rfl
        have hnext : ∀ e ∈ entries, (suberror.addMessage message entry.1).get e.1 = none := by
          intro e he
          have hne : e.1 ≠ entry.1 := fun heq => hnodup.1 (heq ▸ List.mem_map_of_mem he)
          rw [hadd, Dict.get_set, if_neg hne]
          exact hrest e he
        show (entries.foldl _ (suberror.addMessage message entry.1)).entries = _
        rw [ih _ hnodup.2 hnext, hadd, Dict.entries_set hentry, List.append_assoc]
        rfl
  exact hfold item.entries .empty item.nodup fun _ _ => rfl

theorem get_checkItem : (checkItem fields item).get name = (checkMessage fields item name).map ([·]) := by
  refine Option.ext fun messages => ?_
  unfold checkMessage
  rw [← Dict.mem_entries, entries_checkItem, List.mem_filterMap]
  simp only [Option.map_eq_some_iff, Option.bind_eq_some_iff]
  constructor
  · rintro ⟨entry, hentry, message, hcheck, heq⟩
    obtain ⟨rfl, rfl⟩ := Prod.mk.inj heq
    exact ⟨message, ⟨entry.2, Dict.mem_entries.mp hentry, hcheck⟩, rfl⟩
  · rintro ⟨message, ⟨value, hvalue, hcheck⟩, rfl⟩
    exact ⟨(name, value), Dict.mem_entries.mpr hvalue, message, hcheck, rfl⟩

theorem isEmpty_checkItem : (checkItem fields item).isEmpty = true ↔ ∀ name, checkMessage fields item name = none := by
  rw [Dict.isEmpty_iff]
  refine forall_congr' fun name => ?_
  rw [get_checkItem, Option.map_eq_none_iff]

/-- The messages of an item, if there are any. -/
def itemError (fields : String → ModelField Raw V) (item : Item Raw V) : Option ServiceValidationError :=
  if (checkItem fields item).isEmpty then none else some (checkItem fields item)

theorem checkAll_eq : checkAll fields data = data.zipIdx.foldl (fun error entry =>
    (((itemError fields entry.1).map fun suberror => (entry.2, suberror)).map fun e => error.set e.1 e.2).getD error)
      .empty := by
  unfold checkAll itemError
  congr 1
  funext error entry
  dsimp only
  split_ifs <;> rfl

theorem get_checkAll : (checkAll fields data).get i = (data[i]?).bind (itemError fields) := by
  rw [checkAll_eq, Dict.get_foldl_zipIdx, if_pos (Nat.zero_le i), Nat.sub_zero, Dict.get_empty, Option.or_none]

/-- The check of a field of an item fails. -/
def Fails (fields : String → ModelField Raw V) (data : List (Item Raw V)) (i : ℕ) (name : String) : Prop :=
  ∃ item ∈ data[i]?, checkMessage fields item name ≠ none

theorem checkAll_holds : (checkAll fields data).Holds i name ↔ Fails fields data i name := by
  unfold ServiceValidationMultiError.Holds Fails
  rw [get_checkAll]
  cases hitem : data[i]? with
  | none => simp
  | some item =>
    have hkeys : name ∈ (checkItem fields item).keys ↔ checkMessage fields item name ≠ none := by
      rw [Dict.mem_keys, get_checkItem]
      cases checkMessage fields item name <;> simp
    simp only [Option.bind_some, Option.mem_def, Option.some.injEq, exists_eq_left']
    constructor
    · rintro ⟨suberror, hsub, hname⟩
      unfold itemError at hsub
      split_ifs at hsub
      obtain rfl := Option.some.inj hsub
      exact hkeys.mp hname
    · intro hname
      have hnot : ¬ (checkItem fields item).isEmpty = true := fun h => hname (isEmpty_checkItem.mp h name)
      exact ⟨_, if_neg hnot, hkeys.mpr hname⟩

/-- An error that is not empty names a field. -/
theorem isEmpty_checkAll : (checkAll fields data).isEmpty = true ↔ ¬ ∃ i name, Fails fields data i name := by
  rw [Dict.isEmpty_iff]
  constructor
  · rintro h ⟨i, name, hfails⟩
    obtain ⟨suberror, hsub, -⟩ := checkAll_holds.mpr hfails
    rw [h] at hsub
    cases hsub
  · intro h i
    rw [get_checkAll]
    cases hitem : data[i]? with
    | none => rfl
    | some item =>
      refine if_pos (isEmpty_checkItem.mpr fun name => ?_)
      by_contra hne
      exact h ⟨i, name, item, hitem, hne⟩

end

/-! ## The relations -/

section

variable {str : Raw → String} {resolve : String → Raw → Option R} {set : SetOrder} {item : Item Raw V}
variable {data : List (Item Raw V)} {name : String} {i : ℕ}

/-- A field of an item in internal form, if it can be. -/
def converted (str : Raw → String) (resolve : String → Raw → Option R) (item : Item Raw V) (name : String) :
    Option (Internal R V) :=
  (item.get name).bind fun value => (convertField str (resolve name) name value).toOption

/-- The message on a field of an item that cannot be. -/
def missing (str : Raw → String) (resolve : String → Raw → Option R) (item : Item Raw V) (name : String) :
    Option String :=
  (item.get name).bind fun value =>
    match convertField str (resolve name) name value with
    | .ok _ => none
    | .error message => some message

/-- The two parts of the loop over the fields of an item. -/
theorem foldl_convertStep (index : ℕ) (names : List String)
    (acc : Dict String (Internal R V) × ServiceValidationMultiError) :
    names.foldl (convertStep str resolve index item) acc =
      (names.foldl (fun values name => (((converted str resolve item name).map fun v => (name, v)).map
          fun e => values.set e.1 e.2).getD values) acc.1,
        names.foldl (fun error name => (((missing str resolve item name).map
          fun message => (index, relationNotFound message name)).map
            fun e => error.set e.1 e.2).getD error) acc.2) := by
  induction names generalizing acc with
  | nil => rfl
  | cons name names ih =>
    rw [List.foldl_cons, ih, List.foldl_cons, List.foldl_cons]
    unfold convertStep converted missing
    cases item.get name with
    | none => rfl
    | some value =>
      rw [Option.map_some]
      cases hconvert : convertField str (resolve name) name value with
      | ok v => simp [hconvert, Except.toOption]
      | error message => simp [hconvert, Except.toOption, ServiceValidationMultiError.addError]

/-- The relations of an item that cannot be resolved, in the order of the loop. -/
def missingOf (str : Raw → String) (resolve : String → Raw → Option R) (set : SetOrder) (item : Item Raw V) :
    List (String × String) :=
  (set.order item.keys).filterMap fun name => (missing str resolve item name).map fun message => (name, message)

/-- The error of an item: **the last one** stays. -/
def missingError (str : Raw → String) (resolve : String → Raw → Option R) (set : SetOrder) (item : Item Raw V) :
    Option ServiceValidationError :=
  (missingOf str resolve set item).getLast?.map fun e => relationNotFound e.2 e.1

/-- The item in internal form, as far as it can be. -/
def rowOf (str : Raw → String) (resolve : String → Raw → Option R) (set : SetOrder) (item : Item Raw V) :
    Dict String (Internal R V) :=
  (set.order item.keys).foldl (fun values name => (((converted str resolve item name).map fun v => (name, v)).map
    fun e => values.set e.1 e.2).getD values) .empty

theorem missingError_eq_none : missingError str resolve set item = none ↔ missingOf str resolve set item = [] := by
  unfold missingError
  rw [Option.map_eq_none_iff, List.getLast?_eq_none_iff]

theorem foldl_missing (index : ℕ) (names : List String) (error : ServiceValidationMultiError) :
    names.foldl (fun error name => (((missing str resolve item name).map
      fun message => (index, relationNotFound message name)).map fun e => error.set e.1 e.2).getD error) error =
    ((((names.filterMap fun name => (missing str resolve item name).map fun message => (name, message)).getLast?.map
      fun e => relationNotFound e.2 e.1).map fun suberror => (index, suberror)).map
        fun e => error.set e.1 e.2).getD error := by
  induction names generalizing error with
  | nil => rfl
  | cons name names ih =>
    rw [List.foldl_cons, ih, List.filterMap_cons]
    cases missing str resolve item name with
    | none => rfl
    | some message =>
      cases hlast : (names.filterMap fun name => (missing str resolve item name).map
          fun message => (name, message)).getLast? with
      | none => simp [List.getLast?_cons, hlast]
      | some e => simp [List.getLast?_cons, hlast, Dict.set_set]

/-- The two parts of the loop over the items. -/
theorem convertAll_fold (entries : List (Item Raw V × ℕ))
    (acc : List (Dict String (Internal R V)) × ServiceValidationMultiError) :
    entries.foldl (fun acc entry =>
      let converted := (set.order entry.1.keys).foldl (convertStep str resolve entry.2 entry.1) (.empty, acc.2)
      (acc.1 ++ [converted.1], converted.2)) acc =
    (acc.1 ++ entries.map fun entry => rowOf str resolve set entry.1,
      entries.foldl (fun error entry => (((missingError str resolve set entry.1).map
        fun suberror => (entry.2, suberror)).map fun e => error.set e.1 e.2).getD error) acc.2) := by
  induction entries generalizing acc with
  | nil => simp
  | cons entry entries ih =>
    rw [List.foldl_cons, ih]
    simp only [foldl_convertStep, foldl_missing, List.map_cons, List.foldl_cons, List.append_assoc,
      List.singleton_append]
    rfl

theorem convertAll_eq : convertAll str resolve set data =
    (data.map (rowOf str resolve set), data.zipIdx.foldl (fun error entry =>
      (((missingError str resolve set entry.1).map fun suberror => (entry.2, suberror)).map
        fun e => error.set e.1 e.2).getD error) .empty) := by
  have hmap := List.map_map (f := Prod.fst) (g := rowOf str resolve set) (l := data.zipIdx)
  rw [List.zipIdx_map_fst] at hmap
  unfold convertAll
  rw [convertAll_fold, List.nil_append, hmap]
  rfl

theorem get_convertAll : (convertAll str resolve set data).2.get i =
    (data[i]?).bind (missingError str resolve set) := by
  rw [convertAll_eq, Dict.get_foldl_zipIdx, if_pos (Nat.zero_le i), Nat.sub_zero, Dict.get_empty, Option.or_none]

theorem entries_rowOf : (rowOf str resolve set item).entries =
    (set.order item.keys).filterMap fun name => (converted str resolve item name).map fun v => (name, v) := by
  refine Dict.entries_foldl_keys id (converted str resolve item) (set.order item.keys) ?_
  rw [List.map_id]
  exact (set.perm item.keys).nodup_iff.mpr item.nodup

theorem get_rowOf : (rowOf str resolve set item).get name = converted str resolve item name := by
  refine Option.ext fun v => ?_
  rw [← Dict.mem_entries, entries_rowOf, List.mem_filterMap]
  constructor
  · rintro ⟨n, -, hn⟩
    obtain ⟨w, hw, heq⟩ := Option.map_eq_some_iff.mp hn
    obtain ⟨rfl, rfl⟩ := Prod.mk.inj heq
    exact hw
  · intro hv
    have hkey : name ∈ item.keys := by
      obtain ⟨value, hvalue, -⟩ := Option.bind_eq_some_iff.mp hv
      exact Dict.mem_keys.mpr ⟨value, hvalue⟩
    exact ⟨name, (set.perm item.keys).mem_iff.mpr hkey, by rw [hv]; rfl⟩

end

/-! ## What a value designates -/

section

variable [DecidableEq Model] {env : Environment Model User R Rel J}
  {related : String → Related Model User Pk R Rel J Raw} {name : String} {value : Raw} {r : R}

/-- The record is one that the acting user may read. -/
def Readable (env : Environment Model User R Rel J) (target : Related Model User Pk R Rel J Raw) (r : R) : Prop :=
  r ∈ target.store.table ∧ Selects target.store.joins (applyAccessRules env target.model "read") r

/-- The value of a relation designates the record. -/
def Designates (env : Environment Model User R Rel J) (related : String → Related Model User Pk R Rel J Raw)
    (name : String) (value : Raw) (r : R) : Prop :=
  Readable env (related name) r ∧ (related name).toPython value = some ((related name).store.pk r)

/-- A value of a relation replaced by the records it designates, in order; any other value by itself. -/
def Replaces (env : Environment Model User R Rel J) (related : String → Related Model User Pk R Rel J Raw)
    (name : String) : Input Raw V → Internal R V → Prop
  | .plain v, .plain w => v = w
  | .key none, .null => True
  | .key (some value), .record r => Designates env related name value r
  | .keys values, .records rs => List.Forall₂ (Designates env related name) (values.getD []) rs
  | _, _ => False

variable [DecidableEq Pk] [DecidableEq Raw] {data : List (Item Raw V)} {item : Item Raw V} {input : Input Raw V}

/-- **A value given by some item** is resolved to the record it designates. -/
theorem resolveField_eq_some (hvalue : value ∈ groupValues (data.map Dict.entries) name) :
    resolveField env related data name value = some r ↔ Designates env related name value r := by
  have hbrowse : ∀ s ∈ browse (related name).store env (related name).model
      ((groupValues (data.map Dict.entries) name).filterMap (related name).toPython), s ∈ (related name).store.table :=
    fun s hs => (mem_browse.mp hs).1.1
  unfold resolveField resolveRelation Designates Readable
  rw [if_pos hvalue, Option.bind_eq_some_iff]
  constructor
  · rintro ⟨pk, hpk, hby⟩
    obtain ⟨hmem, rfl⟩ := (byPk_eq_some hbrowse).mp hby
    exact ⟨(mem_browse.mp hmem).1, hpk⟩
  · rintro ⟨hread, hpk⟩
    refine ⟨_, hpk, (byPk_eq_some hbrowse).mpr ⟨mem_browse.mpr ⟨hread, ?_⟩, rfl⟩⟩
    exact List.mem_filterMap.mpr ⟨value, hvalue, hpk⟩

omit [DecidableEq Model] [DecidableEq Pk] [DecidableEq Raw] in
theorem mem_groupValues (hitem : item ∈ data) (hinput : item.get name = some input) (hvalue : value ∈ input.values) :
    value ∈ groupValues (data.map Dict.entries) name := by
  unfold groupValues
  rw [List.flatMap_map]
  refine List.mem_flatMap.mpr ⟨item, hitem, ?_⟩
  have hlookup : item.entries.lookup name = some input := hinput
  rw [hlookup]
  exact hvalue

omit [DecidableEq Model] [DecidableEq Pk] [DecidableEq Raw] in
/-- The conversion of a field fails if one of its values is not resolved. -/
theorem missing_ne_none {str : Raw → String} {resolve : String → Raw → Option R} :
    missing str resolve item name ≠ none ↔
      ∃ input ∈ item.get name, ∃ value ∈ input.values, resolve name value = none := by
  unfold missing
  cases hget : item.get name with
  | none => simp
  | some input =>
    simp only [Option.bind_some, Option.mem_def, Option.some.injEq, exists_eq_left']
    cases input with
    | plain v => simp [convertField, Input.values]
    | key value =>
      cases value with
      | none => simp [convertField, Input.values]
      | some value =>
        cases hresolve : resolve name value with
        | none => simp [convertField, Input.values, hresolve]
        | some r => simp [convertField, Input.values, hresolve]
    | keys values =>
      by_cases hinvalid : (values.getD []).filter (fun value => (resolve name value).isNone) = []
      · simp only [convertField, hinvalid, ne_eq, not_true_eq_false, if_false, Input.values, false_iff]
        rintro ⟨value, hvalue, hnone⟩
        have hmem := List.filter_eq_nil_iff.mp hinvalid value hvalue
        simp [hnone] at hmem
      · simp only [convertField, hinvalid, ne_eq, not_false_eq_true, if_true, Input.values, reduceCtorEq, true_iff]
        obtain ⟨value, hvalue⟩ := List.exists_mem_of_ne_nil _ hinvalid
        rw [List.mem_filter, Option.isNone_iff_eq_none] at hvalue
        exact ⟨value, hvalue⟩

omit [DecidableEq Pk] [DecidableEq Raw] in
/-- A field whose values are all resolved. -/
theorem replaces_converted (str : Raw → String) {resolve : String → Raw → Option R}
    (hinput : item.get name = some input)
    (hresolve : ∀ value ∈ input.values, ∃ r, resolve name value = some r ∧ Designates env related name value r) :
    ∃ w, converted str resolve item name = some w ∧ Replaces env related name input w := by
  unfold converted
  rw [hinput, Option.bind_some]
  cases input with
  | plain v => exact ⟨.plain v, rfl, rfl⟩
  | key value =>
    cases value with
    | none => exact ⟨.null, rfl, trivial⟩
    | some value =>
      obtain ⟨r, hr, hdesignates⟩ := hresolve value (List.mem_singleton.mpr rfl)
      exact ⟨.record r, by simp [convertField, hr, Except.toOption], hdesignates⟩
  | keys values =>
    have hvalid : (values.getD []).filter (fun value => (resolve name value).isNone) = [] := by
      rw [List.filter_eq_nil_iff]
      intro value hvalue
      obtain ⟨r, hr, -⟩ := hresolve value hvalue
      simp [hr]
    refine ⟨.records ((values.getD []).filterMap (resolve name)), by simp [convertField, hvalid, Except.toOption], ?_⟩
    show List.Forall₂ (Designates env related name) (values.getD []) ((values.getD []).filterMap (resolve name))
    have hall : ∀ value ∈ values.getD [], ∃ r, resolve name value = some r ∧ Designates env related name value r :=
      hresolve
    generalize values.getD [] = given at hall ⊢
    induction given with
    | nil => exact .nil
    | cons value given ih =>
      obtain ⟨r, hr, hdesignates⟩ := hall value List.mem_cons_self
      rw [List.filterMap_cons, hr]
      exact .cons hdesignates (ih fun v hv => hall v (List.mem_cons_of_mem _ hv))

/-! ## What the errors should be -/

/-- A field of an item has a value that designates no record in scope. -/
def Unresolvable (env : Environment Model User R Rel J) (related : String → Related Model User Pk R Rel J Raw)
    (data : List (Item Raw V)) (i : ℕ) (name : String) : Prop :=
  ∃ item ∈ data[i]?, ∃ input ∈ item.get name, ∃ value ∈ input.values, ∀ r, ¬ Designates env related name value r

/-- The errors are of all the items, and of all their fields. -/
structure ReportsAll (env : Environment Model User R Rel J) (related : String → Related Model User Pk R Rel J Raw)
    (fields : String → ModelField Raw V) (data : List (Item Raw V))
    (result : Except ServiceValidationMultiError (List (Dict String (Internal R V)))) : Prop where
  raises : (∃ e, result = .error e) ↔
    (∃ i name, Fails fields data i name) ∨ ∃ i name, Unresolvable env related data i name
  invalid : ∀ e, result = .error e → (∃ i name, Fails fields data i name) →
    ∀ i name, e.Holds i name ↔ Fails fields data i name
  unresolved : ∀ e, result = .error e → (¬ ∃ i name, Fails fields data i name) →
    ∀ i name, e.Holds i name ↔ Unresolvable env related data i name
  resolved : ∀ rows, result = .ok rows →
    List.Forall₂ (fun item row => ∀ name, Option.Rel (Replaces env related name) (item.get name) (row.get name))
      data rows

section

variable {fields : String → ModelField Raw V} {str : Raw → String} {set : SetOrder} {i : ℕ}

omit [DecidableEq Model] [DecidableEq Pk] [DecidableEq Raw] in
theorem mem_missingOf {resolve : String → Raw → Option R} {message : String} :
    (name, message) ∈ missingOf str resolve set item ↔ missing str resolve item name = some message := by
  unfold missingOf
  rw [List.mem_filterMap]
  constructor
  · rintro ⟨n, -, hn⟩
    obtain ⟨m, hm, heq⟩ := Option.map_eq_some_iff.mp hn
    obtain ⟨rfl, rfl⟩ := Prod.mk.inj heq
    exact hm
  · intro hmissing
    have hmem : name ∈ item.keys := by
      obtain ⟨value, hvalue, -⟩ := Option.bind_eq_some_iff.mp hmissing
      exact Dict.mem_keys.mpr ⟨value, hvalue⟩
    exact ⟨name, (set.perm item.keys).mem_iff.mpr hmem, by rw [hmissing]; rfl⟩

variable (str set) in
theorem unresolvable_iff : Unresolvable env related data i name ↔
    ∃ item ∈ data[i]?, ∃ message, (name, message) ∈ missingOf str (resolveField env related data) set item := by
  unfold Unresolvable
  refine exists_congr fun item => and_congr_right fun hitem => ?_
  have hmem : item ∈ data := List.mem_of_getElem? hitem
  simp only [mem_missingOf]
  rw [← Option.ne_none_iff_exists', missing_ne_none]
  refine exists_congr fun input => and_congr_right fun hinput => ?_
  refine exists_congr fun value => and_congr_right fun hvalue => ?_
  rw [Option.eq_none_iff_forall_ne_some]
  refine forall_congr' fun r => not_congr ?_
  exact (resolveField_eq_some (mem_groupValues hmem hinput hvalue)).symm

omit [DecidableEq Model] [DecidableEq Pk] [DecidableEq Raw] in
theorem convertAll_holds {resolve : String → Raw → Option R} : (convertAll str resolve set data).2.Holds i name ↔
    ∃ item ∈ data[i]?, ∃ message, (missingOf str resolve set item).getLast? = some (name, message) := by
  unfold ServiceValidationMultiError.Holds
  rw [get_convertAll]
  cases data[i]? with
  | none => simp
  | some item =>
    simp only [Option.bind_some, Option.mem_def, Option.some.injEq, exists_eq_left']
    unfold missingError
    cases (missingOf str resolve set item).getLast? with
    | none => simp
    | some e =>
      simp only [Option.map_some, Option.some.injEq, exists_eq_left']
      show name ∈ [e.1] ↔ _
      rw [List.mem_singleton]
      constructor
      · rintro rfl
        exact ⟨e.2, rfl⟩
      · rintro ⟨message, rfl⟩
        rfl

theorem isEmpty_convertAll : (convertAll str (resolveField env related data) set data).2.isEmpty = true ↔
    ¬ ∃ i name, Unresolvable env related data i name := by
  rw [Dict.isEmpty_iff]
  constructor
  · rintro h ⟨i, name, hunresolvable⟩
    obtain ⟨item, hitem, message, hmem⟩ := (unresolvable_iff str set).mp hunresolvable
    have hget := h i
    rw [get_convertAll, hitem, Option.bind_some, missingError_eq_none] at hget
    rw [hget] at hmem
    cases hmem
  · intro h i
    rw [get_convertAll]
    cases hitem : data[i]? with
    | none => rfl
    | some item =>
      rw [Option.bind_some, missingError_eq_none, List.eq_nil_iff_forall_not_mem]
      intro e he
      exact h ⟨i, e.1, (unresolvable_iff str set).mpr ⟨item, hitem, e.2, he⟩⟩

/-- The items in internal form, when every relation of them is resolved. -/
theorem convertAll_resolved (h : ¬ ∃ i name, Unresolvable env related data i name) :
    List.Forall₂ (fun item row => ∀ name, Option.Rel (Replaces env related name) (item.get name) (row.get name)) data
      (convertAll str (resolveField env related data) set data).1 := by
  rw [convertAll_eq, List.forall₂_map_right_iff, List.forall₂_same]
  intro item hitem name
  rw [get_rowOf]
  cases hinput : item.get name with
  | none =>
    unfold converted
    rw [hinput]
    exact .none
  | some input =>
    obtain ⟨i, hi⟩ := List.getElem?_of_mem hitem
    have hresolve : ∀ value ∈ input.values, ∃ r,
        resolveField env related data name value = some r ∧ Designates env related name value r := by
      intro value hvalue
      have hgroup := mem_groupValues hitem hinput hvalue
      by_contra hnot
      refine h ⟨i, name, item, hi, input, hinput, value, hvalue, fun r hr => hnot ⟨r, ?_, hr⟩⟩
      exact (resolveField_eq_some hgroup).mpr hr
    obtain ⟨w, hw, hreplaces⟩ := replaces_converted str hinput hresolve
    rw [hw]
    exact .some hreplaces

theorem toInternalValuesBy_invalid (hfails : ∃ i name, Fails fields data i name) :
    toInternalValuesBy env related fields str set data = .error (checkAll fields data) :=
  if_pos fun hempty => isEmpty_checkAll.mp hempty hfails

/-- When a check fails, the errors of the checks are complete. -/
theorem reportsAll_checkAll (hfails : ∃ i name, Fails fields data i name) :
    ReportsAll env related fields data (toInternalValuesBy env related fields str set data) := by
  rw [toInternalValuesBy_invalid hfails]
  exact {
    raises := ⟨fun _ => .inl hfails, fun _ => ⟨_, rfl⟩⟩
    invalid := fun e he _ i name => by
      obtain rfl := Except.error.inj he
      exact checkAll_holds
    unresolved := fun e _ hno => absurd hfails hno
    resolved := nofun }

theorem toInternalValuesBy_checked (hfails : ¬ ∃ i name, Fails fields data i name) :
    toInternalValuesBy env related fields str set data =
      let result := convertAll str (resolveField env related data) set data
      if ¬ result.2.isEmpty then .error result.2 else .ok result.1 :=
  if_neg (not_not.mpr (isEmpty_checkAll.mpr hfails))

/-- When the checks pass and every relation is resolved. -/
theorem reportsAll_resolved (hfails : ¬ ∃ i name, Fails fields data i name)
    (hresolved : ¬ ∃ i name, Unresolvable env related data i name) :
    ReportsAll env related fields data (toInternalValuesBy env related fields str set data) := by
  have hresult : toInternalValuesBy env related fields str set data =
      .ok (convertAll str (resolveField env related data) set data).1 := by
    rw [toInternalValuesBy_checked hfails]
    exact if_neg (not_not.mpr (isEmpty_convertAll.mpr hresolved))
  rw [hresult]
  refine ⟨⟨nofun, fun h => absurd h (not_or.mpr ⟨hfails, hresolved⟩)⟩, nofun, nofun, fun rows hrows => ?_⟩
  obtain rfl := Except.ok.inj hrows
  exact convertAll_resolved hresolved

/-- When the checks pass and some relation is not resolved: one field of an item is named, the last one. -/
theorem reportsAll_unresolved_iff (hfails : ¬ ∃ i name, Fails fields data i name)
    (hunresolvable : ∃ i name, Unresolvable env related data i name) :
    ReportsAll env related fields data (toInternalValuesBy env related fields str set data) ↔
      ∀ i name name', Unresolvable env related data i name → Unresolvable env related data i name' → name = name' := by
  have hresult : toInternalValuesBy env related fields str set data =
      .error (convertAll str (resolveField env related data) set data).2 := by
    rw [toInternalValuesBy_checked hfails]
    exact if_pos fun hempty => isEmpty_convertAll.mp hempty hunresolvable
  rw [hresult]
  constructor
  · -- two fields of one item would both be the last
    intro hreports i name name' hname hname'
    obtain ⟨item, hitem, message, hlast⟩ := convertAll_holds.mp ((hreports.unresolved _ rfl hfails i name).mpr hname)
    obtain ⟨item', hitem', message', hlast'⟩ :=
      convertAll_holds.mp ((hreports.unresolved _ rfl hfails i name').mpr hname')
    obtain rfl := Option.some.inj (hitem.symm.trans hitem')
    exact congrArg Prod.fst (Option.some.inj (hlast.symm.trans hlast'))
  · intro hone
    refine ⟨⟨fun _ => .inr hunresolvable, fun _ => ⟨_, rfl⟩⟩, fun _ _ hyes => absurd hyes hfails, ?_, nofun⟩
    intro e he _ i name
    obtain rfl := Except.error.inj he
    rw [convertAll_holds]
    constructor
    · rintro ⟨item, hitem, message, hlast⟩
      exact (unresolvable_iff str set).mpr ⟨item, hitem, message, List.mem_of_getLast? hlast⟩
    · intro hname
      obtain ⟨item, hitem, message, hmem⟩ := (unresolvable_iff str set).mp hname
      obtain ⟨last, hlast⟩ := Option.isSome_iff_exists.mp (List.getLast?_isSome.mpr (List.ne_nil_of_mem hmem))
      have hlastname : Unresolvable env related data i last.1 :=
        (unresolvable_iff str set).mpr ⟨item, hitem, last.2, List.mem_of_getLast? hlast⟩
      obtain rfl := hone i last.1 name hlastname hname
      exact ⟨item, hitem, last.2, hlast⟩

/-- A value that is refused: by its check, or for a record that is not there. -/
def Refused (env : Environment Model User R Rel J) (related : String → Related Model User Pk R Rel J Raw)
    (fields : String → ModelField Raw V) (name : String) (input : Input Raw V) : Prop :=
  (fields name).check input ≠ none ∨ ∃ value ∈ input.values, ∀ r, ¬ Designates env related name value r

/-- **What is accepted**: items none of whose values is refused. -/
theorem exists_ok_iff : (∃ rows, toInternalValuesBy env related fields str set data = .ok rows) ↔
    ∀ item ∈ data, ∀ name, ∀ input ∈ item.get name, ¬ Refused env related fields name input := by
  constructor
  · rintro ⟨rows, hrows⟩ item hitem name input hinput hrefused
    obtain ⟨i, hi⟩ := List.getElem?_of_mem hitem
    by_cases hfails : ∃ i name, Fails fields data i name
    · rw [toInternalValuesBy_invalid hfails] at hrows
      cases hrows
    rcases hrefused with hcheck | hvalue
    · refine hfails ⟨i, name, item, hi, ?_⟩
      unfold checkMessage
      rw [hinput]
      exact hcheck
    · have hempty : ¬ (convertAll str (resolveField env related data) set data).2.isEmpty = true :=
        fun hempty => isEmpty_convertAll.mp hempty ⟨i, name, item, hi, input, hinput, hvalue⟩
      rw [toInternalValuesBy_checked hfails, if_pos hempty] at hrows
      cases hrows
  · intro haccepted
    have hfails : ¬ ∃ i name, Fails fields data i name := by
      rintro ⟨i, name, item, hi, hcheck⟩
      obtain ⟨message, hmessage⟩ := Option.ne_none_iff_exists'.mp hcheck
      obtain ⟨input, hinput, hsome⟩ := Option.bind_eq_some_iff.mp hmessage
      exact haccepted item (List.mem_of_getElem? hi) name input hinput (.inl (hsome ▸ nofun))
    have hresolved : ¬ ∃ i name, Unresolvable env related data i name := by
      rintro ⟨i, name, item, hi, input, hinput, hvalue⟩
      exact haccepted item (List.mem_of_getElem? hi) name input hinput (.inr hvalue)
    rw [toInternalValuesBy_checked hfails]
    exact ⟨_, if_neg (not_not.mpr (isEmpty_convertAll.mpr hresolved))⟩

/-- Values that are accepted are those of the items, with the records in place of the relations. -/
theorem replaces_of_ok {rows : List (Dict String (Internal R V))}
    (h : toInternalValuesBy env related fields str set data = .ok rows) :
    List.Forall₂ (fun item row => ∀ name, Option.Rel (Replaces env related name) (item.get name) (row.get name))
      data rows := by
  by_cases hfails : ∃ i name, Fails fields data i name
  · exact (reportsAll_checkAll hfails).resolved rows h
  by_cases hunresolvable : ∃ i name, Unresolvable env related data i name
  · rw [toInternalValuesBy_checked hfails] at h
    have hnot : ¬ (convertAll str (resolveField env related data) set data).2.isEmpty = true :=
      fun hempty => isEmpty_convertAll.mp hempty hunresolvable
    rw [if_pos hnot] at h
    cases h
  · exact (reportsAll_resolved hfails hunresolvable).resolved rows h

/-- **When the errors are what they should be**: when a check fails, or no item has two fields that cannot be
resolved. -/
theorem reports_all_iff : ReportsAll env related fields data (toInternalValuesBy env related fields str set data) ↔
    (∃ i name, Fails fields data i name) ∨ ∀ i name name',
      Unresolvable env related data i name → Unresolvable env related data i name' → name = name' := by
  by_cases hfails : ∃ i name, Fails fields data i name
  · exact ⟨fun _ => .inl hfails, fun _ => reportsAll_checkAll hfails⟩
  · rw [or_iff_right hfails]
    by_cases hunresolvable : ∃ i name, Unresolvable env related data i name
    · exact reportsAll_unresolved_iff hfails hunresolvable
    · refine ⟨fun _ i name _ hname _ => absurd ⟨i, name, hname⟩ hunresolvable, fun _ => ?_⟩
      exact reportsAll_resolved hfails hunresolvable

end

/-! ## In the order of the keys -/

/-- A set gone through in the order of the keys of the item. -/
def SetOrder.keys : SetOrder := ⟨id, fun _ => .refl _⟩

section

variable {fields : String → ModelField Raw V} {str : Raw → String} {resolve : String → Raw → Option R}

/-- The messages of the checks of a value, as a list. -/
def ModelField.messages (fields : String → ModelField Raw V) (name : String) (value : Input Raw V) : List String :=
  ((fields name).check value).toList

/-- The errors of a request, as lists. -/
def ServiceValidationMultiError.lists (e : ServiceValidationMultiError) : List (ℕ × List (String × List String)) :=
  e.entries.map fun entry => (entry.1, entry.2.entries)

omit [DecidableEq Raw] in
/-- The errors of a loop over the items, each item with its own. -/
theorem lists_foldl (error : Item Raw V → Option ServiceValidationError)
    (messages : Item Raw V → List (String × List String)) (hnone : ∀ item, error item = none → messages item = [])
    (hsome : ∀ item suberror, error item = some suberror → suberror.entries = messages item ∧ messages item ≠ []) :
    ServiceValidationMultiError.lists (data.zipIdx.foldl (fun acc entry =>
        (((error entry.1).map fun suberror => (entry.2, suberror)).map fun e => acc.set e.1 e.2).getD acc) .empty) =
      (data.mapIdx fun index item => (index, messages item)).filter fun e => decide (e.2 ≠ []) := by
  have hnodup : (data.zipIdx.map Prod.snd).Nodup := by
    rw [List.zipIdx_map_snd]
    exact List.nodup_range'
  unfold ServiceValidationMultiError.lists
  rw [Dict.entries_foldl_keys Prod.snd (fun entry => error entry.1) _ hnodup, List.mapIdx_eq_zipIdx_map]
  induction data.zipIdx with
  | nil => rfl
  | cons entry entries ih =>
    rw [List.filterMap_cons, List.map_cons, List.filter_cons, ← ih]
    cases herror : error entry.1 with
    | none => simp [hnone entry.1 herror]
    | some suberror =>
      obtain ⟨hentries, hne⟩ := hsome entry.1 suberror herror
      simp [hentries, hne]

omit [DecidableEq Raw] in
theorem lists_checkAll : ServiceValidationMultiError.lists (checkAll fields data) =
    (data.mapIdx fun index item => (index, (item.entries.map fun field =>
      (field.1, ModelField.messages fields field.1 field.2)).filter fun e => decide (e.2 ≠ []))).filter
        fun e => decide (e.2 ≠ []) := by
  have hitem : ∀ item : Item Raw V, (checkItem fields item).entries = (item.entries.map fun field =>
      (field.1, ModelField.messages fields field.1 field.2)).filter fun e => decide (e.2 ≠ []) := by
    intro item
    rw [entries_checkItem]
    induction item.entries with
    | nil => rfl
    | cons entry entries ih =>
      rw [List.map_cons, List.filter_cons, List.filterMap_cons, ih]
      unfold ModelField.messages
      cases (fields entry.1).check entry.2 <;> rfl
  rw [checkAll_eq]
  refine lists_foldl (itemError fields) _ (fun item hnone => ?_) fun item suberror hsome => ?_
  all_goals
    rw [← hitem]
  · unfold itemError at hnone
    split_ifs at hnone with hempty
    exact List.isEmpty_iff.mp hempty
  · unfold itemError at hsome
    split_ifs at hsome with hempty
    obtain rfl := Option.some.inj hsome
    exact ⟨rfl, fun hnil => hempty (List.isEmpty_iff.mpr hnil)⟩

/-- The message of a value that is not resolved, with the name of its field. -/
def fieldError (str : Raw → String) (resolve : String → Raw → Option R) (field : String × Input Raw V) :
    Option (String × List String) :=
  match convertField str (resolve field.1) field.1 field.2 with
  | .ok _ => none
  | .error message => some (field.1, [message])

omit [DecidableEq Raw] in
theorem lists_convertAll : ServiceValidationMultiError.lists (convertAll str resolve .keys data).2 =
    (data.mapIdx fun index item => (index, (item.entries.filterMap (fieldError str resolve)).getLast?.toList)).filter
      fun e => decide (e.2 ≠ []) := by
  have hitem : ∀ item : Item Raw V, item.entries.filterMap (fieldError str resolve) =
      (missingOf str resolve .keys item).map fun e => (e.1, [e.2]) := by
    intro item
    have hkeys := item.filterMap_keys fun name value => (fieldError str resolve (name, value))
    rw [← hkeys]
    unfold missingOf missing
    rw [List.map_filterMap]
    refine List.filterMap_congr fun name _ => ?_
    cases item.get name with
    | none => rfl
    | some value =>
      rw [Option.bind_some, Option.bind_some]
      unfold fieldError
      cases convertField str (resolve name) name value <;> rfl
  rw [convertAll_eq]
  refine lists_foldl (missingError str resolve .keys) _ (fun item hnone => ?_) fun item suberror hsome => ?_
  all_goals
    rw [hitem, List.getLast?_map]
  · rw [missingError_eq_none.mp hnone]
    rfl
  · obtain ⟨e, he, rfl⟩ := Option.map_eq_some_iff.mp hsome
    rw [he]
    exact ⟨rfl, List.cons_ne_nil _ _⟩

/-- A value that is resolved, with the name of its field. -/
def fieldValue (str : Raw → String) (resolve : String → Raw → Option R) (field : String × Input Raw V) :
    Option (String × Internal R V) :=
  match convertField str (resolve field.1) field.1 field.2 with
  | .ok v => some (field.1, v)
  | .error _ => none

omit [DecidableEq Raw] in
theorem rows_convertAll : (convertAll str resolve .keys data).1.map Dict.entries =
    data.map fun item => item.entries.filterMap (fieldValue str resolve) := by
  rw [convertAll_eq, List.map_map]
  refine List.map_congr_left fun item _ => ?_
  have hkeys := item.filterMap_keys fun name value => (fieldValue str resolve (name, value))
  show (rowOf str resolve .keys item).entries =
    item.entries.filterMap fun field => fieldValue str resolve (field.1, field.2)
  rw [entries_rowOf, ← hkeys]
  refine List.filterMap_congr fun name _ => ?_
  unfold converted
  cases item.get name with
  | none => rfl
  | some value =>
    rw [Option.bind_some, Option.bind_some]
    unfold fieldValue
    cases convertField str (resolve name) name value <;> rfl

/-- **The two readings of `to_internal_values`** agree. -/
theorem toInternalValuesBy_eq : toInternalValues env related (ModelField.messages fields) str (data.map Dict.entries) =
    ((toInternalValuesBy env related fields str .keys data).map (List.map Dict.entries)).mapError
      ServiceValidationMultiError.lists := by
  have hempty : ∀ e : ServiceValidationMultiError, e.lists = [] ↔ e.isEmpty = true := by
    intro e
    unfold ServiceValidationMultiError.lists Dict.isEmpty
    rw [List.map_eq_nil_iff, List.isEmpty_iff]
  have hmap : ∀ {α β : Type} (g : Item Raw V → α) (f : ℕ → α → β),
      (data.map g).mapIdx f = data.mapIdx fun index item => f index (g item) := by
    intro α β g f
    rw [List.mapIdx_eq_zipIdx_map, List.mapIdx_eq_zipIdx_map, List.zipIdx_map, List.map_map]
    rfl
  have hresolve : ∀ fname, resolveRelation (related fname).store env (related fname).model (related fname).toPython
      (groupValues (data.map Dict.entries) fname) = resolveField env related data fname := fun _ => rfl
  unfold toInternalValues toInternalValuesBy
  simp only [List.map_map, hmap, hresolve, ← lists_checkAll, ne_eq, hempty]
  by_cases hchecks : (checkAll fields data).isEmpty = true
  · rw [if_neg (not_not.mpr hchecks), if_neg (not_not.mpr hchecks)]
    simp only [Function.comp_def, List.filterMap_map]
    have houtcome : ∀ result : List (Dict String (Internal R V)) × ServiceValidationMultiError,
        (if ¬ result.2.lists = [] then Except.error result.2.lists else .ok (result.1.map Dict.entries)) =
          ((if ¬ result.2.isEmpty = true then Except.error result.2 else .ok result.1).map
            (List.map Dict.entries)).mapError ServiceValidationMultiError.lists := by
      intro result
      simp only [hempty]
      split_ifs <;> rfl
    rw [← houtcome, lists_convertAll, rows_convertAll]
    rfl
  · rw [if_pos hchecks, if_pos hchecks]
    rfl

end

end

/-! ## A movement of an unknown account and an unknown category -/

section Sample

theorem knownStore_row (_ : ℕ) : [()].length = 1 := rfl

def knownStore : Store ℕ ℕ Empty Unit where
  pk := id
  table := [2]
  joins := ⟨fun _ _ => [()], knownStore_row⟩
  pk_nodup := List.nodup_singleton _

def anonymousEnv : Environment Unit ℕ ℕ Empty Unit := ⟨[], none, []⟩

def movementRelated (_ : String) : Related Unit ℕ ℕ ℕ Empty Unit ℕ := ⟨knownStore, (), some⟩

def movementField (_ : String) : ModelField ℕ Unit :=
  ⟨false, "This field cannot be null.", fun _ => none, fun _ => none⟩

def movement : Item ℕ Unit := (Dict.empty.set "account" (.key (some 8))).set "category" (.key (some 9))

theorem not_designates {name : String} {value r : ℕ} (hvalue : value ∉ knownStore.table) :
    ¬ Designates anonymousEnv movementRelated name value r := by
  rintro ⟨⟨hr, -⟩, hpk⟩
  obtain rfl : value = r := Option.some.inj hpk
  exact hvalue hr

/-- Neither the account 8 nor the category 9 exists; the account is not reported. -/
theorem account_not_reported : Unresolvable anonymousEnv movementRelated [movement] 0 "account" ∧
    (∃ e, toInternalValuesBy anonymousEnv movementRelated movementField toString .keys [movement] = .error e ∧
      ¬ e.Holds 0 "account") ∧
    ¬ ReportsAll anonymousEnv movementRelated movementField [movement]
      (toInternalValuesBy anonymousEnv movementRelated movementField toString .keys [movement]) := by
  have haccount : Unresolvable anonymousEnv movementRelated [movement] 0 "account" :=
    ⟨movement, rfl, .key (some 8), rfl, 8, List.mem_cons_self, fun _ => not_designates (by decide)⟩
  have hfails : ¬ ∃ i name, Fails movementField [movement] i name := by
    rw [← isEmpty_checkAll]
    decide
  have hnames :
      (missingOf toString (resolveField anonymousEnv movementRelated [movement]) .keys movement).map Prod.fst =
        ["account", "category"] := by decide
  have herror : ∃ e, toInternalValuesBy anonymousEnv movementRelated movementField toString .keys [movement] =
      .error e ∧ ¬ e.Holds 0 "account" := by
    refine ⟨_, (toInternalValuesBy_checked hfails).trans (if_pos ?_), fun hholds => ?_⟩
    · exact fun hempty => isEmpty_convertAll.mp hempty ⟨0, _, haccount⟩
    · obtain ⟨item, hitem, message, hlast⟩ := convertAll_holds.mp hholds
      obtain rfl := Option.some.inj hitem
      have hname : _ = some "account" := congrArg (Option.map Prod.fst) hlast
      rw [← List.getLast?_map, hnames] at hname
      exact absurd hname (by decide)
  refine ⟨haccount, herror, fun hreports => ?_⟩
  obtain ⟨e, he, hnot⟩ := herror
  exact hnot ((hreports.unresolved e he hfails 0 "account").mpr haccount)

end Sample

end Totem.Services
