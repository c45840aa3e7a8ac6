import Totem.Lib.Comparator
import Totem.Lib.Fallible

/-!
# Totem.Orm.OrderBy — ordering a queryset by fields

`queryset_order_by_fields` of `core/orm/queryset.py`, and the two places that call it: the names asked for become
ordering expressions, with the primary key at the end and the nulls of some of them last.  The rows are compared as
the database does: a null is greater than any value unless it is told to be last.

* `OrderedBy.total`: rows that order alike are rows of one record.
* `orders_as_asked_iff`: the requests that are ordered as they ask.
-/

namespace Totem.Orm

open Std Totem.Lib

/-! ## The ordering expressions -/

/-- What is read of a model: its primary key, and the `null` of its own fields.  `nullable` is that of every lookup
that can be ordered by, through relations too. -/
structure ModelMeta where
  objectName : String
  pk : String
  null : String → Option Bool
  nullable : String → Bool
  null_pk : null pk = some false
  nullable_of_null : ∀ name n, null name = some n → nullable name = n
  pk_noDash : '-' ∉ pk.toList

/-- `null_last_fields`: `None`, names, or `"__all__"`. -/
inductive NullLastFields where
  | none
  | names (fields : List String)
  | all
  deriving DecidableEq, Repr

inductive OrderingError where
  | fieldDoesNotExist (text : String)
  /-- A name is looked for in `None`. -/
  | typeError
  deriving DecidableEq, Repr

/-- `F(name).asc(...)` or `F(name).desc(...)`. -/
structure OrderExpr where
  name : String
  descending : Bool
  nullsLast : Bool
  deriving DecidableEq, Repr

section

variable (m : ModelMeta)

/-- `_meta.get_field(name).null`. -/
def fieldNull (name : String) : Except OrderingError Bool :=
  match m.null name with
  | some n => .ok n
  | none => .error (.fieldDoesNotExist (m.objectName ++ " has no field named '" ++ name ++ "'"))

/-- `order_params["nulls_last"]`. -/
def nullsLastParam (nullLast : NullLastFields) (name : String) : Except OrderingError Bool :=
  match nullLast with
  | .all => fieldNull m name
  | .names fields => if name ∈ fields then fieldNull m name else .ok false
  | .none => .error .typeError

/-- One expression of the loop: the dashes are taken off, wherever they stand. -/
def orderFieldExpr (nullLast : NullLastFields) (expr : String) : Except OrderingError OrderExpr :=
  let orderFieldName := String.ofList (expr.toList.filter fun c => decide (c ≠ '-'))
  let desc := decide ('-' ∈ expr.toList)
  (nullsLastParam m nullLast orderFieldName).map fun nullsLast => ⟨orderFieldName, desc, nullsLast⟩

/-- The caller's list once the primary key is added. -/
def withPk (orderingFields : List String) (addPk : Bool) : List String :=
  if addPk && decide (m.pk ∉ orderingFields ∧ "-" ++ m.pk ∉ orderingFields) then orderingFields ++ [m.pk]
  else orderingFields

/-- `queryset_order_by_fields`: the expressions, and the caller's list as it is left. -/
def querysetOrderByFields (orderingFields : List String) (addPk : Bool) (nullLast : NullLastFields) :
    Except OrderingError (List OrderExpr) × List String :=
  ((withPk m orderingFields addPk).mapM (orderFieldExpr m nullLast), withPk m orderingFields addPk)

/-- `ServiceBase.apply_ordering`, of a service with these `ordering_fields_nulls_last`. -/
def applyOrdering (orderingFieldsNullsLast : NullLastFields) (ordering : List String) :
    Except OrderingError (List OrderExpr) × List String :=
  querysetOrderByFields m ordering true orderingFieldsNullsLast

/-- `Ordering.ordering_queryset` of a queryset, through the service when there is one; `none` where the queryset is
left as it is. -/
def orderingQueryset (service : Option NullLastFields) (ordering : List String) :
    Option (Except OrderingError (List OrderExpr) × List String) :=
  if ordering = [] then none
  else some (match service with
    | some orderingFieldsNullsLast => applyOrdering m orderingFieldsNullsLast ordering
    | none => querysetOrderByFields m ordering true .none)

end

/-! ## The order of the rows -/

section

variable {R V : Type} [Ord V] (value : String → R → Option V)

/-- A null is greater than any value, unless nulls are last. -/
def OrderExpr.compare (e : OrderExpr) (a b : R) : Ordering :=
  compareOption (e.descending && !e.nullsLast)
    (if e.descending then fun x y => Ord.compare y x else Ord.compare) (value e.name a) (value e.name b)

/-- `ORDER BY` of the expressions. -/
def orderCompare (exprs : List OrderExpr) : R → R → Ordering := compareAll (exprs.map fun e => e.compare value)

theorem transCmp_orderCompare [TransOrd V] (exprs : List OrderExpr) : TransCmp (orderCompare value exprs) := by
  refine transCmp_compareAll fun cmp hcmp => ?_
  obtain ⟨e, -, rfl⟩ := List.mem_map.1 hcmp
  refine transCmp_on (value e.name) ?_
  cases e.descending with
  | false => exact inferInstanceAs (TransCmp (compareOption _ Ord.compare))
  | true => exact inferInstanceAs (TransCmp (compareOption _ fun x y => Ord.compare y x))

theorem eq_of_compareOption [TransOrd V] [LawfulEqOrd V] {missingFirst descending : Bool} {x y : Option V}
    (h : compareOption missingFirst (if descending then fun x y => Ord.compare y x else Ord.compare) x y = .eq) :
    x = y := by
  cases x with
  | none => cases y <;> cases missingFirst <;> first | rfl | cases h
  | some x =>
    cases y with
    | none => cases missingFirst <;> cases h
    | some y =>
      cases descending with
      | false => exact congrArg some (LawfulEqOrd.eq_of_compare h)
      | true => exact congrArg some (LawfulEqOrd.eq_of_compare h).symm

theorem eq_of_orderCompare [TransOrd V] [LawfulEqOrd V] {exprs : List OrderExpr} {a b : R}
    (h : orderCompare value exprs a b = .eq) {e : OrderExpr} (he : e ∈ exprs) : value e.name a = value e.name b :=
  eq_of_compareOption (compareAll_eq_eq_iff.1 h _ (List.mem_map_of_mem he))

end

/-! ## What is asked -/

/-- A key that is asked for: the lookup of a field, local or through relations, and its direction. -/
structure OrderKey where
  name : String
  descending : Bool
  noDash : '-' ∉ name.toList

def OrderKey.text (key : OrderKey) : String := if key.descending then "-" ++ key.name else key.name

/-- The nulls of this field are to be last. -/
def NullLastFields.Selects : NullLastFields → String → Prop
  | .none, _ => False
  | .names fields, name => name ∈ fields
  | .all, _ => True

/-- The expressions order by the keys that are asked for, in their order and with their directions, with the nulls of
the selected nullable fields last; with `add_pk` they tell any two records apart. -/
structure OrderedBy (m : ModelMeta) (keys : List OrderKey) (nullLast : NullLastFields) (addPk : Bool)
    (exprs : List OrderExpr) : Prop where
  asked : (exprs.take keys.length).map (fun e => (e.name, e.descending)) = keys.map fun k => (k.name, k.descending)
  rest : ∀ e ∈ exprs.drop keys.length, addPk = true ∧ e.name = m.pk
  nullsLast : ∀ e ∈ exprs, e.nullsLast = true ↔ nullLast.Selects e.name ∧ m.nullable e.name = true
  total : addPk = true → ∀ (R V : Type) [Ord V] [TransOrd V] [LawfulEqOrd V] (value : String → R → Option V),
    TransCmp (orderCompare value exprs) ∧
      ∀ a b, orderCompare value exprs a b = .eq → value m.pk a = value m.pk b

/-- The call succeeds, orders as it is asked to, and leaves the caller's list as it was. -/
def OrdersAsAsked (m : ModelMeta) (keys : List OrderKey) (nullLast : NullLastFields) (addPk : Bool) : Prop :=
  ∃ exprs, querysetOrderByFields m (keys.map OrderKey.text) addPk nullLast = (.ok exprs, keys.map OrderKey.text) ∧
    OrderedBy m keys nullLast addPk exprs

section

variable {m : ModelMeta} {nullLast : NullLastFields}

theorem OrderKey.filter_text (key : OrderKey) :
    String.ofList (key.text.toList.filter fun c => decide (c ≠ '-')) = key.name := by
  have hname : key.name.toList.filter (fun c => decide (c ≠ '-')) = key.name.toList :=
    List.filter_eq_self.2 fun c hc => decide_eq_true fun heq => key.noDash (heq ▸ hc)
  rw [OrderKey.text]
  cases key.descending with
  | false => rw [if_neg Bool.false_ne_true, hname, String.ofList_toList]
  | true =>
    rw [if_pos rfl, String.toList_append, List.filter_append, hname]
    exact String.ofList_toList

theorem OrderKey.dash_mem_text (key : OrderKey) : decide ('-' ∈ key.text.toList) = key.descending := by
  rw [OrderKey.text]
  cases key.descending with
  | false => exact decide_eq_false key.noDash
  | true =>
    rw [if_pos rfl, String.toList_append]
    exact decide_eq_true (List.mem_append_left _ List.mem_cons_self)

theorem orderFieldExpr_text (key : OrderKey) : orderFieldExpr m nullLast key.text =
    (nullsLastParam m nullLast key.name).map fun nullsLast => ⟨key.name, key.descending, nullsLast⟩ := by
  rw [orderFieldExpr, key.filter_text, key.dash_mem_text]

theorem fieldNull_eq_ok_iff {name : String} {b : Bool} : fieldNull m name = .ok b ↔ m.null name = some b := by
  rw [fieldNull]
  cases m.null name with
  | none => simp
  | some n => simp

/-- When a key is given its expression, and with its nulls where. -/
theorem nullsLastParam_eq_ok_iff {name : String} {b : Bool} : nullsLastParam m nullLast name = .ok b ↔
    nullLast ≠ .none ∧ (nullLast.Selects name → (m.null name).isSome) ∧
      (b = true ↔ nullLast.Selects name ∧ m.nullable name = true) := by
  have hselected : fieldNull m name = .ok b ↔ (m.null name).isSome ∧ (b = true ↔ m.nullable name = true) := by
    rw [fieldNull_eq_ok_iff]
    cases hnull : m.null name with
    | none => simp
    | some n =>
      rw [m.nullable_of_null name n hnull, ← Bool.eq_iff_iff, Option.some_inj]
      exact ⟨fun h => ⟨rfl, h.symm⟩, fun h => h.2.symm⟩
  cases nullLast with
  | none => simp [nullsLastParam]
  | all => simpa [nullsLastParam, NullLastFields.Selects] using hselected
  | names fields =>
    by_cases hname : name ∈ fields
    · simpa [nullsLastParam, NullLastFields.Selects, hname] using hselected
    · cases b <;> simp [nullsLastParam, NullLastFields.Selects, hname]

theorem orderFieldExpr_text_eq_ok_iff {key : OrderKey} {e : OrderExpr} :
    orderFieldExpr m nullLast key.text = .ok e ↔ e.name = key.name ∧ e.descending = key.descending ∧
      nullsLastParam m nullLast key.name = .ok e.nullsLast := by
  rw [orderFieldExpr_text]
  obtain ⟨name, descending, nullsLast⟩ := e
  cases nullsLastParam m nullLast key.name with
  | error e => simp [Except.map]
  | ok b => simp [Except.map, eq_comm]

theorem pk_asked_iff {keys : List OrderKey} :
    (m.pk ∈ keys.map OrderKey.text ∨ "-" ++ m.pk ∈ keys.map OrderKey.text) ↔ ∃ key ∈ keys, key.name = m.pk := by
  simp only [List.mem_map, ← exists_or, ← and_or_left]
  refine exists_congr fun key => and_congr_right fun _ => ?_
  rw [OrderKey.text]
  cases key.descending with
  | false =>
    rw [if_neg Bool.false_ne_true]
    refine or_iff_left fun h => key.noDash ?_
    rw [h, String.toList_append]
    exact List.mem_append_left _ List.mem_cons_self
  | true =>
    rw [if_pos rfl]
    constructor
    · rintro (h | h)
      · refine absurd ?_ m.pk_noDash
        rw [← h, String.toList_append]
        exact List.mem_append_left _ List.mem_cons_self
      · exact (String.append_right_inj "-").1 h
    · exact fun h => Or.inr (congrArg _ h)

/-- When the caller's list is left as it was. -/
theorem withPk_eq_iff {keys : List OrderKey} {addPk : Bool} :
    withPk m (keys.map OrderKey.text) addPk = keys.map OrderKey.text ↔
      (addPk = true → ∃ key ∈ keys, key.name = m.pk) := by
  rw [← pk_asked_iff, withPk]
  cases addPk with
  | false => simp
  | true =>
    by_cases hasked : m.pk ∈ keys.map OrderKey.text ∨ "-" ++ m.pk ∈ keys.map OrderKey.text
    · have hnot : ¬ (m.pk ∉ keys.map OrderKey.text ∧ "-" ++ m.pk ∉ keys.map OrderKey.text) :=
        fun h => hasked.elim h.1 h.2
      rw [decide_eq_false hnot, Bool.and_false, if_neg Bool.false_ne_true]
      exact iff_of_true rfl fun _ => hasked
    · rw [decide_eq_true (not_or.1 hasked), Bool.and_true, if_pos rfl]
      exact iff_of_false (by simp) fun h => hasked (h rfl)

/-- What a call that succeeds and leaves the caller's list orders by. -/
theorem orderedBy_of_mapM {keys : List OrderKey} {addPk : Bool} {exprs : List OrderExpr}
    (h : (keys.map OrderKey.text).mapM (orderFieldExpr m nullLast) = .ok exprs)
    (hpk : addPk = true → ∃ key ∈ keys, key.name = m.pk) : OrderedBy m keys nullLast addPk exprs := by
  have hforall : List.Forall₂ (fun key e => orderFieldExpr m nullLast key.text = .ok e) keys exprs :=
    List.forall₂_map_left_iff.1 (mapM_eq_ok.1 h)
  have hlength := hforall.length_eq
  refine ⟨?_, ?_, fun e he => ?_, fun hadd R V _ _ _ value => ⟨transCmp_orderCompare value exprs, fun a b hab => ?_⟩⟩
  · rw [hlength, List.take_length]
    have hkeys : List.Forall₂ (· = ·) (exprs.map fun e => (e.name, e.descending))
        (keys.map fun k => (k.name, k.descending)) := by
      rw [List.forall₂_map_left_iff, List.forall₂_map_right_iff]
      refine hforall.flip.imp fun e key hkey => ?_
      obtain ⟨hname, hdescending, -⟩ := orderFieldExpr_text_eq_ok_iff.1 hkey
      rw [hname, hdescending]
    rwa [List.forall₂_eq_eq_eq] at hkeys
  · rw [hlength, List.drop_length]
    exact fun e he => absurd he List.not_mem_nil
  · obtain ⟨key, -, hkey⟩ := forall₂_right hforall e he
    obtain ⟨hname, -, hnulls⟩ := orderFieldExpr_text_eq_ok_iff.1 hkey
    rw [hname]
    exact (nullsLastParam_eq_ok_iff.1 hnulls).2.2
  · obtain ⟨key, hkey, hname⟩ := hpk hadd
    obtain ⟨e, he, hexpr⟩ := forall₂_left hforall key hkey
    rw [← hname, ← (orderFieldExpr_text_eq_ok_iff.1 hexpr).1]
    exact eq_of_orderCompare value hab he

/-- When every key is given its expression. -/
theorem exists_mapM_iff {keys : List OrderKey} :
    (∃ exprs, (keys.map OrderKey.text).mapM (orderFieldExpr m nullLast) = .ok exprs) ↔
      (nullLast = .none → keys = []) ∧ ∀ key ∈ keys, nullLast.Selects key.name → (m.null key.name).isSome := by
  have hkey (key : OrderKey) : (∃ e, orderFieldExpr m nullLast key.text = .ok e) ↔
      nullLast ≠ .none ∧ (nullLast.Selects key.name → (m.null key.name).isSome) := by
    constructor
    · rintro ⟨e, he⟩
      obtain ⟨hnone, hfield, -⟩ := nullsLastParam_eq_ok_iff.1 (orderFieldExpr_text_eq_ok_iff.1 he).2.2
      exact ⟨hnone, hfield⟩
    · rintro ⟨hnone, hfield⟩
      classical
      let expr : OrderExpr :=
        ⟨key.name, key.descending, decide (nullLast.Selects key.name ∧ m.nullable key.name = true)⟩
      have hnulls := nullsLastParam_eq_ok_iff.2 ⟨hnone, hfield, decide_eq_true_iff⟩
      exact ⟨expr, orderFieldExpr_text_eq_ok_iff.2 ⟨rfl, rfl, hnulls⟩⟩
  rw [exists_mapM_eq_ok, List.forall_mem_map]
  simp only [hkey]
  constructor
  · intro h
    exact ⟨fun hnone => List.eq_nil_iff_forall_not_mem.2 fun key hmem => (h key hmem).1 hnone,
      fun key hmem => (h key hmem).2⟩
  · rintro ⟨hnone, hfields⟩ key hmem
    exact ⟨fun h => List.ne_nil_of_mem hmem (hnone h), hfields key hmem⟩

end

/-- **A call orders as it is asked to exactly when `null_last_fields` is given (or there is nothing to order by), the
primary key is asked for where it would be added, and every field whose nulls are to be last is one of the model.** -/
theorem orders_as_asked_iff (m : ModelMeta) (keys : List OrderKey) (nullLast : NullLastFields) (addPk : Bool) :
    OrdersAsAsked m keys nullLast addPk ↔ (nullLast = .none → keys = []) ∧
      (addPk = true → ∃ key ∈ keys, key.name = m.pk) ∧
        ∀ key ∈ keys, nullLast.Selects key.name → (m.null key.name).isSome := by
  rw [and_left_comm, ← exists_mapM_iff, ← withPk_eq_iff]
  constructor
  · rintro ⟨exprs, hcall, -⟩
    obtain ⟨hexprs, hlist⟩ := Prod.mk.inj hcall
    rw [hlist] at hexprs
    exact ⟨hlist, exprs, hexprs⟩
  · rintro ⟨hlist, exprs, hexprs⟩
    refine ⟨exprs, ?_, orderedBy_of_mapM hexprs (withPk_eq_iff.1 hlist)⟩
    rw [querysetOrderByFields, hlist, hexprs]

/-- Without a service, no ordering of a queryset is served. -/
theorem orderingQueryset_typeError (m : ModelMeta) {ordering : List String} (h : ordering ≠ []) :
    ∃ fields, orderingQueryset m none ordering = some (.error .typeError, fields) := by
  refine ⟨withPk m ordering true, ?_⟩
  rw [orderingQueryset, if_neg h, querysetOrderByFields]
  have hne : withPk m ordering true ≠ [] := by
    rw [withPk]
    split
    · exact List.append_ne_nil_of_left_ne_nil h _
    · exact h
  obtain ⟨expr, exprs, hlist⟩ := List.exists_cons_of_ne_nil hne
  rw [hlist, List.mapM_cons]
  rfl

/-- A contact, with a name and a title that may be missing. -/
def contactMeta : ModelMeta where
  objectName := "Contact"
  pk := "id"
  null name := if name = "id" ∨ name = "name" then some false else if name = "title" then some true else none
  nullable name := decide (name ≠ "id" ∧ name ≠ "name")
  null_pk := rfl
  nullable_of_null name n h := by
    by_cases hname : name = "id" ∨ name = "name"
    · rw [if_pos hname] at h
      obtain rfl := Option.some.inj h
      exact decide_eq_false fun hne => hname.elim hne.1 hne.2
    · rw [if_neg hname] at h
      by_cases htitle : name = "title"
      · rw [if_pos htitle] at h
        obtain rfl := Option.some.inj h
        exact decide_eq_true (not_or.1 hname)
      · rw [if_neg htitle] at h
        cases h
  pk_noDash := by decide

/-- `queryset_order_by_fields(queryset, ["name"], add_pk=False)`: the default `null_last_fields` is `None`. -/
theorem nulls_last_none : ¬ ∀ (m : ModelMeta) (keys : List OrderKey) (nullLast : NullLastFields) (addPk : Bool),
    OrdersAsAsked m keys nullLast addPk := by
  intro h
  obtain ⟨exprs, hcall, -⟩ := h contactMeta [⟨"name", false, by decide⟩] .none false
  cases (Prod.mk.inj hcall).1

end Totem.Orm
