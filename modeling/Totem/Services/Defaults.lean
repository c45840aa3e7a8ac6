import Mathlib.Data.List.Dedup
import Totem.Lib.Fallible
import Totem.Services.InternalValues

/-!
# Totem.Services.Defaults — the values a creation starts with

`CreateMixin.create` up to its transaction: the values of the inputs, the defaults of the fields that they leave
out, and `to_internal_values`.

* `get_defaultValues`: what `_default_values` announces for a field.
* `createValues_filled`: the values of an item, the given ones before the announced ones.
* `create_follows_defaults`: a creation follows what was announced, in a batch as one by one.
-/

namespace Totem.Services

open Lib

variable {Model User Pk R Rel J Raw V W : Type}

/-! ## Schemas and inputs -/

/-- The default of a field of a pydantic schema; a factory is called anew each time. -/
inductive SchemaDefault (Raw W : Type)
  | required
  | value (v : Input Raw (Option W))
  | factory (f : ℕ → Input Raw (Option W))

/-- `field_info.get_default(call_default_factory=True)`. -/
def SchemaDefault.get : SchemaDefault Raw W → ℕ → Option (Input Raw (Option W))
  | .required, _ => none
  | .value v, _ => some v
  | .factory f, now => some (f now)

/-- `create_schema`: its fields and their defaults. -/
structure CreateSchema (Raw W : Type) where
  names : List String
  nodup : names.Nodup
  default : String → SchemaDefault Raw W

/-- A `create_schema` instance: the fields that were given, and when it was built. -/
structure CreateInput (schema : CreateSchema Raw W) where
  given : Dict String (Input Raw (Option W))
  declared : ∀ name, given.get name ≠ none → name ∈ schema.names
  required : ∀ name ∈ schema.names, schema.default name = .required → given.get name ≠ none
  built : ℕ

section

variable {schema : CreateSchema Raw W}

/-- `getattr(data, name)`. -/
def CreateInput.attr (item : CreateInput schema) (name : String) : Option (Input Raw (Option W)) :=
  (item.given.get name).or ((schema.default name).get item.built)

/-- The fields an input leaves out. -/
def CreateInput.unset (item : CreateInput schema) : List String :=
  schema.names.filter fun name => (item.given.get name).isNone

/-- `_input_values`. -/
def inputValues (item : CreateInput schema) (excludeUnset : Bool) : Item Raw (Option W) :=
  let names := if excludeUnset then schema.names.filter fun name => (item.given.get name).isSome else schema.names
  names.foldl (fun values name => (((item.attr name).map fun v => (name, v)).map
    fun e => values.set e.1 e.2).getD values) .empty

end

/-! ## Defaults -/

/-- What a service says of a creation: its schema, the fields of the model, and the defaults of its own. -/
structure CreateService (Raw W : Type) where
  schema : CreateSchema Raw W
  columns : String → ModelField Raw (Option W)
  own : Dict String (Input Raw (Option W))

/-- A `None` that is no value the record could hold. -/
def ModelField.dropped (field : ModelField Raw (Option W)) : Input Raw (Option W) → Bool
  | .plain none => !field.null
  | .key none => !field.null
  | .keys none => true
  | _ => false

section

variable (service : CreateService Raw W)

/-- The base value of a field, if it has one. -/
def CreateService.base (now : ℕ) (name : String) : Option (Input Raw (Option W)) :=
  match (service.schema.default name).get now with
  | none => none
  | some v => if (service.columns name).dropped v then none else some v

/-- `_default_values`, with the override of the service. -/
def CreateService.defaultValues (now : ℕ) (fields : Option (List String)) : Dict String (Input Raw (Option W)) :=
  let names := match fields with
    | none => service.schema.names
    | some fields => fields.filter fun name => decide (name ∈ service.schema.names)
  let values := names.foldl (fun values name => (((service.base now name).map fun v => (name, v)).map
    fun e => values.set e.1 e.2).getD values) Dict.empty
  values.updateWhere service.own fun name => fields.elim true fun fields => decide (name ∈ fields)

/-- The values that `create` hands to `to_internal_values`. -/
def CreateService.createValues (now : ℕ) (data : List (CreateInput service.schema)) : List (Item Raw (Option W)) :=
  let values := data.map fun item => inputValues item false
  let unset := data.map CreateInput.unset
  if unset.any fun names => !names.isEmpty then
    let defaults := service.defaultValues now (some (unset.flatten.dedup.mergeSort fun a b => decide (a ≤ b)))
    List.zipWith (fun itemValues itemUnset => itemValues.updateWhere defaults fun name => decide (name ∈ itemUnset))
      values unset
  else values

/-- `create`, up to its transaction: the values of the instances. -/
def CreateService.create [DecidableEq Model] [DecidableEq Pk] [DecidableEq Raw] (env : Environment Model User R Rel J)
    (related : String → Related Model User Pk R Rel J Raw) (str : Raw → String) (set : SetOrder) (now : ℕ)
    (data : List (CreateInput service.schema)) :
    Except ServiceValidationMultiError (List (Dict String (Internal R (Option W)))) :=
  toInternalValuesBy env related service.columns str set (service.createValues now data)

end

/-! ## What is announced -/

section

variable {service : CreateService Raw W} {schema : CreateSchema Raw W} {now : ℕ} {name : String}

/-- **What is announced for a field**: the default of the service, else that of the schema. -/
theorem get_defaultValues (hname : name ∈ service.schema.names) :
    (service.defaultValues now none).get name = (service.own.get name).or (service.base now name) := by
  unfold CreateService.defaultValues
  dsimp only
  rw [Dict.get_updateWhere, Dict.get_foldl_keys, if_pos hname]
  rfl

/-- The fields asked are announced as when all are. -/
theorem get_defaultValues_some {fields : List String} (hname : name ∈ service.schema.names) (hmem : name ∈ fields) :
    (service.defaultValues now (some fields)).get name = (service.defaultValues now none).get name := by
  have hasked : name ∈ fields.filter fun name => decide (name ∈ service.schema.names) :=
    List.mem_filter.mpr ⟨hmem, decide_eq_true hname⟩
  rw [get_defaultValues hname]
  unfold CreateService.defaultValues
  dsimp only
  rw [Dict.get_updateWhere, Dict.get_foldl_keys, if_pos hasked]
  exact if_pos (decide_eq_true hmem)

theorem get_inputValues {item : CreateInput schema} :
    (inputValues item false).get name = if name ∈ schema.names then item.attr name else none :=
  Dict.get_foldl_keys item.attr schema.names name

theorem mem_unset {item : CreateInput schema} :
    name ∈ item.unset ↔ name ∈ schema.names ∧ item.given.get name = none := by
  unfold CreateInput.unset
  rw [List.mem_filter, Option.isNone_iff_eq_none]

/-- The value of a field of an item: as given, else as announced, else as in the schema. -/
def CreateService.filled (service : CreateService Raw W) (now : ℕ) (item : CreateInput service.schema) (name : String) :
    Option (Input Raw (Option W)) :=
  if name ∈ service.schema.names then
    (item.given.get name).or (((service.defaultValues now none).get name).or
      ((service.schema.default name).get item.built))
  else none

/-- A field that is not left out has the value of the input. -/
theorem filled_of_not_unset {item : CreateInput service.schema} (hset : name ∉ item.unset) :
    (inputValues item false).get name = service.filled now item name := by
  rw [get_inputValues]
  unfold CreateService.filled CreateInput.attr
  by_cases hname : name ∈ service.schema.names
  · rw [if_pos hname, if_pos hname]
    cases hgiven : item.given.get name with
    | none => exact absurd (mem_unset.mpr ⟨hname, hgiven⟩) hset
    | some v => rfl
  · rw [if_neg hname, if_neg hname]

variable (now) in
/-- **The values of the items of a batch.** -/
theorem createValues_filled (data : List (CreateInput service.schema)) :
    List.Forall₂ (fun item values => ∀ name, values.get name = service.filled now item name) data
      (service.createValues now data) := by
  have hzip : ∀ (update : Item Raw (Option W) → List String → Item Raw (Option W))
      (items : List (CreateInput service.schema)),
      List.zipWith update (items.map fun item => inputValues item false) (items.map CreateInput.unset) =
        items.map fun item => update (inputValues item false) item.unset := by
    intro update items
    induction items with
    | nil => rfl
    | cons item items ih => exact congrArg (_ :: ·) ih
  unfold CreateService.createValues
  dsimp only
  rw [hzip]
  split_ifs with hany
  · rw [List.forall₂_map_right_iff, List.forall₂_same]
    intro item hitem name
    rw [Dict.get_updateWhere]
    split_ifs with hunset
    · have hmem : name ∈ item.unset := of_decide_eq_true hunset
      obtain ⟨hname, hgiven⟩ := mem_unset.mp hmem
      have hasked : name ∈ ((data.map CreateInput.unset).flatten.dedup.mergeSort fun a b => decide (a ≤ b)) := by
        rw [List.mem_mergeSort, List.mem_dedup, List.mem_flatten]
        exact ⟨item.unset, List.mem_map_of_mem hitem, hmem⟩
      rw [get_defaultValues_some hname hasked, get_inputValues, if_pos hname]
      unfold CreateService.filled CreateInput.attr
      rw [if_pos hname, hgiven, Option.none_or, Option.none_or]
    · exact filled_of_not_unset fun hmem => hunset (decide_eq_true hmem)
  · rw [List.forall₂_map_right_iff, List.forall₂_same]
    intro item hitem name
    refine filled_of_not_unset fun hmem => hany ?_
    rw [List.any_map, List.any_eq_true]
    refine ⟨item, hitem, ?_⟩
    show (!item.unset.isEmpty) = true
    rw [Bool.not_eq_true', List.isEmpty_eq_false_iff]
    exact List.ne_nil_of_mem hmem

end

/-! ## What is created -/

section

variable [DecidableEq Model] (env : Environment Model User R Rel J)
  (related : String → Related Model User Pk R Rel J Raw)

/-- What is stored for a field of an item: the given value, or the announced one; a many-to-many for which there is
neither has no record. -/
def Stored (service : CreateService Raw W) (now : ℕ) (item : CreateInput service.schema) (name : String)
    (stored : Option (Internal R (Option W))) : Prop :=
  match (item.given.get name).or ((service.defaultValues now none).get name) with
  | some input => ∃ w, stored = some w ∧ Replaces env related name input w
  | none => stored = some (.records [])

/-- A given value of an item is refused, or the one announced for a field that it leaves out. -/
def RefusedItem (service : CreateService Raw W) (now : ℕ) (item : CreateInput service.schema) : Prop :=
  ∃ name ∈ service.schema.names, ∃ input,
    (item.given.get name).or ((service.defaultValues now none).get name) = some input ∧
      Refused env related service.columns name input

/-- The announced values of the fields that the item leaves out are the same at both times. -/
def SameDefaults (service : CreateService Raw W) (item : CreateInput service.schema) (now later : ℕ) : Prop :=
  ∀ name ∈ item.unset, (service.defaultValues later none).get name = (service.defaultValues now none).get name

/-- A creation follows what was announced. -/
structure FollowsDefaults [DecidableEq Pk] [DecidableEq Raw] (service : CreateService Raw W) (str : Raw → String)
    (set : SetOrder) (now : ℕ) (data : List (CreateInput service.schema)) : Prop where
  refused : (∃ e, service.create env related str set now data = .error e) ↔
    ∃ item ∈ data, RefusedItem env related service now item
  stored : ∀ rows, service.create env related str set now data = .ok rows →
    List.Forall₂ (fun item row => ∀ name ∈ service.schema.names,
      Stored env related service now item name (row.get name)) data rows
  accepted : ∀ later : ℕ → ℕ, (∀ i, ∀ item ∈ data[i]?, SameDefaults service item now (later i)) →
    ((∃ rows, service.create env related str set now data = .ok rows) ↔
      ∀ i, ∀ item ∈ data[i]?, ∃ row, service.create env related str set (later i) [item] = .ok [row])
  same : ∀ later : ℕ → ℕ, (∀ i, ∀ item ∈ data[i]?, SameDefaults service item now (later i)) →
    ∀ rows, service.create env related str set now data = .ok rows → ∀ i, ∀ item ∈ data[i]?, ∀ row ∈ rows[i]?,
      ∀ row', service.create env related str set (later i) [item] = .ok [row'] → ∀ name, row.get name = row'.get name

end

section

variable [DecidableEq Model] {env : Environment Model User R Rel J}
  {related : String → Related Model User Pk R Rel J Raw} {name : String}

/-- A value designates one record. -/
theorem Designates.unique {value : Raw} {r r' : R} (h : Designates env related name value r)
    (h' : Designates env related name value r') : r = r' :=
  (related name).store.eq_of_pk h.1.1 h'.1.1 (Option.some.inj (h.2.symm.trans h'.2))

/-- A value is replaced in one way. -/
theorem Replaces.unique {input : Input Raw V} {w w' : Internal R V} (h : Replaces env related name input w)
    (h' : Replaces env related name input w') : w = w' := by
  cases input with
  | plain v => cases w <;> cases w' <;> first | exact h.elim | exact h'.elim | exact congrArg _ (h.symm.trans h')
  | key value =>
    cases value with
    | none => cases w <;> cases w' <;> first | exact h.elim | exact h'.elim | rfl
    | some value =>
      cases w <;> cases w' <;> first | exact h.elim | exact h'.elim | exact congrArg _ (Designates.unique h h')
  | keys values =>
    have hunique : Relator.RightUnique (Designates env related name) := fun _ _ _ => Designates.unique
    cases w <;> cases w' <;> first | exact h.elim | exact h'.elim | exact congrArg _ (hunique.forall₂ h h')

theorem option_rel_unique {input : Option (Input Raw V)} {w w' : Option (Internal R V)}
    (h : Option.Rel (Replaces env related name) input w) (h' : Option.Rel (Replaces env related name) input w') :
    w = w' := by
  cases h with
  | none =>
    cases h'
    rfl
  | some hreplaces =>
    cases h' with
    | some hreplaces' => exact congrArg some (hreplaces.unique hreplaces')

variable {service : CreateService Raw W} {now : ℕ} {item : CreateInput service.schema}
  {data : List (CreateInput service.schema)}

/-- Nothing is announced for a field that is left out only where that is a many-to-many. -/
def AllAnnounced (service : CreateService Raw W) (now : ℕ) (item : CreateInput service.schema) : Prop :=
  ∀ name ∈ item.unset, (service.defaultValues now none).get name = none → item.attr name = some (.keys none)

/-- The value of a field: given, announced, or no record. -/
theorem filled_cases (hcovered : AllAnnounced service now item) (hname : name ∈ service.schema.names) :
    service.filled now item name =
      ((item.given.get name).or ((service.defaultValues now none).get name)).or (some (.keys none)) := by
  unfold CreateService.filled
  rw [if_pos hname]
  cases hgiven : item.given.get name with
  | some v => rfl
  | none =>
    cases hannounced : (service.defaultValues now none).get name with
    | some v => rfl
    | none =>
      have hattr := hcovered name (mem_unset.mpr ⟨hname, hgiven⟩) hannounced
      unfold CreateInput.attr at hattr
      rw [hgiven, Option.none_or] at hattr
      rw [hattr]
      rfl

/-- An item is accepted unless it is refused for a given or an announced value. -/
theorem forall_not_refused_iff (hnone : ∀ name, (service.columns name).runValidators (.keys none) = none)
    (hcovered : AllAnnounced service now item) :
    (∀ name, ∀ input ∈ service.filled now item name, ¬ Refused env related service.columns name input) ↔
      ¬ RefusedItem env related service now item := by
  have hnull : ∀ name, ¬ Refused env related service.columns name (.keys none) := by
    rintro name (hcheck | ⟨value, hvalue, -⟩)
    · unfold ModelField.check at hcheck
      rw [hnone] at hcheck
      exact hcheck rfl
    · cases hvalue
  constructor
  · rintro haccepted ⟨name, hname, input, hinput, hrefused⟩
    refine haccepted name input ?_ hrefused
    rw [filled_cases hcovered hname, hinput]
    rfl
  · intro hnot name input hinput hrefused
    by_cases hname : name ∈ service.schema.names
    · rw [filled_cases hcovered hname] at hinput
      cases hvalue : (item.given.get name).or ((service.defaultValues now none).get name) with
      | none =>
        rw [hvalue] at hinput
        obtain rfl := Option.some.inj hinput
        exact hnull name hrefused
      | some v =>
        rw [hvalue] at hinput
        obtain rfl := Option.some.inj hinput
        exact hnot ⟨name, hname, v, hvalue, hrefused⟩
    · unfold CreateService.filled at hinput
      rw [if_neg hname] at hinput
      cases hinput

/-- What an item is given and announced, at another time. -/
theorem announced_of_same {later : ℕ} (hsame : SameDefaults service item now later)
    (hname : name ∈ service.schema.names) :
    (item.given.get name).or ((service.defaultValues later none).get name) =
      (item.given.get name).or ((service.defaultValues now none).get name) := by
  cases hgiven : item.given.get name with
  | some v => rfl
  | none => rw [hsame name (mem_unset.mpr ⟨hname, hgiven⟩)]

theorem filled_of_same {later : ℕ} (hsame : SameDefaults service item now later) :
    service.filled later item name = service.filled now item name := by
  unfold CreateService.filled
  by_cases hname : name ∈ service.schema.names
  · rw [if_pos hname, if_pos hname, ← Option.or_assoc, ← Option.or_assoc, announced_of_same hsame hname]
  · rw [if_neg hname, if_neg hname]

/-- The value stored for a field of an item. -/
theorem stored_of_filled (hcovered : AllAnnounced service now item) (hname : name ∈ service.schema.names)
    {stored : Option (Internal R (Option W))}
    (h : Option.Rel (Replaces env related name) (service.filled now item name) stored) :
    Stored env related service now item name stored := by
  unfold Stored
  rw [filled_cases hcovered hname] at h
  cases hvalue : (item.given.get name).or ((service.defaultValues now none).get name) with
  | some input =>
    rw [hvalue] at h
    cases h with
    | some hreplaces => exact ⟨_, rfl, hreplaces⟩
  | none =>
    rw [hvalue] at h
    cases h with
    | @some _ w hreplaces =>
      have hempty : Replaces env related name (.keys none) (.records [] : Internal R (Option W)) := .nil
      exact congrArg some (Replaces.unique hreplaces hempty)

variable [DecidableEq Pk] [DecidableEq Raw] {str : Raw → String} {set : SetOrder}

/-- **When a creation is not refused.** -/
theorem create_isOk_iff (hnone : ∀ name, (service.columns name).runValidators (.keys none) = none)
    (hcovered : ∀ item ∈ data, AllAnnounced service now item) :
    (∃ rows, service.create env related str set now data = .ok rows) ↔
      ∀ item ∈ data, ¬ RefusedItem env related service now item := by
  have hfilled := createValues_filled now data
  unfold CreateService.create
  rw [exists_ok_iff]
  constructor
  · intro haccepted item hitem
    obtain ⟨values, hvalues, hget⟩ := forall₂_left hfilled item hitem
    refine (forall_not_refused_iff hnone (hcovered item hitem)).mp fun name input hinput => ?_
    rw [← hget] at hinput
    exact haccepted values hvalues name input hinput
  · intro hnot values hvalues name input hinput
    obtain ⟨item, hitem, hget⟩ := forall₂_right hfilled values hvalues
    rw [hget] at hinput
    exact (forall_not_refused_iff hnone (hcovered item hitem)).mpr (hnot item hitem) name input hinput

/-- The rows of a creation are the values of its items. -/
theorem rows_of_create {rows : List (Dict String (Internal R (Option W)))}
    (h : service.create env related str set now data = .ok rows) :
    List.Forall₂ (fun item row => ∀ name,
      Option.Rel (Replaces env related name) (service.filled now item name) (row.get name)) data rows := by
  refine (forall₂_comp (createValues_filled now data) (replaces_of_ok h)).imp ?_
  rintro item row ⟨values, hget, hreplaces⟩ name
  rw [← hget]
  exact hreplaces name

/-- A creation of one item, at a time of its own. -/
theorem create_single_iff (hnone : ∀ name, (service.columns name).runValidators (.keys none) = none)
    (hcovered : AllAnnounced service now item) {later : ℕ} (hsame : SameDefaults service item now later) :
    (∃ row, service.create env related str set later [item] = .ok [row]) ↔
      ¬ RefusedItem env related service now item := by
  have hlater : ∀ other ∈ [item], AllAnnounced service later other := by
    intro other hother
    obtain rfl := List.mem_singleton.mp hother
    intro name hname hannounced
    rw [hsame name hname] at hannounced
    exact hcovered name hname hannounced
  have hrefused : RefusedItem env related service later item ↔ RefusedItem env related service now item := by
    unfold RefusedItem
    refine exists_congr fun name => and_congr_right fun hname => ?_
    rw [announced_of_same hsame hname]
  have hok : (∃ rows, service.create env related str set later [item] = .ok rows) ↔
      ∀ other ∈ [item], ¬ RefusedItem env related service later other := create_isOk_iff hnone hlater
  rw [List.forall_mem_singleton, hrefused] at hok
  rw [← hok]
  constructor
  · rintro ⟨row, hrow⟩
    exact ⟨[row], hrow⟩
  · rintro ⟨rows, hrows⟩
    cases rows_of_create hrows with
    | cons _ hrest =>
      cases hrest
      exact ⟨_, hrows⟩

/-- **A creation follows the announced defaults**: it refuses an item for a given value or for an announced one, stores
the given values and the announced ones, and a batch is its items one by one. -/
theorem create_follows_defaults (hnone : ∀ name, (service.columns name).runValidators (.keys none) = none)
    (hcovered : ∀ item ∈ data, AllAnnounced service now item) :
    FollowsDefaults env related service str set now data := by
  have hok : (∃ rows, service.create env related str set now data = .ok rows) ↔
      ∀ item ∈ data, ¬ RefusedItem env related service now item := create_isOk_iff hnone hcovered
  constructor
  · constructor
    · rintro ⟨e, he⟩
      by_contra hnot
      obtain ⟨rows, hrows⟩ := hok.mpr fun item hitem hrefused => hnot ⟨item, hitem, hrefused⟩
      rw [he] at hrows
      cases hrows
    · rintro ⟨item, hitem, hrefused⟩
      cases hresult : service.create env related str set now data with
      | error e => exact ⟨e, rfl⟩
      | ok rows => exact absurd hrefused (hok.mp ⟨rows, hresult⟩ item hitem)
  · intro rows hrows
    refine ((List.forall₂_and_left _ _).mpr ⟨hcovered, rows_of_create hrows⟩).imp ?_
    rintro item row ⟨hitem, hrow⟩ name hname
    exact stored_of_filled hitem hname (hrow name)
  · intro later hsame
    rw [hok]
    constructor
    · intro h i item hitem
      have hmem := List.mem_of_getElem? hitem
      exact (create_single_iff hnone (hcovered item hmem) (hsame i item hitem)).mpr (h item hmem)
    · intro h item hmem
      obtain ⟨i, hitem⟩ := List.getElem?_of_mem hmem
      exact (create_single_iff hnone (hcovered item hmem) (hsame i item hitem)).mp (h i item hitem)
  · intro later hsame rows hrows i item hitem row hrow row' hrow' name
    have hbatch := forall₂_getElem? (rows_of_create hrows) hitem hrow name
    have hsingle := (List.forall₂_cons.mp (rows_of_create hrow')).1 name
    rw [filled_of_same (hsame i item hitem)] at hsingle
    exact option_rel_unique hbatch hsingle

end

/-! ## A budget whose user is not given -/

section Sample

def budgetSchema : CreateSchema ℕ Unit where
  names := ["name", "user"]
  nodup := by decide
  default name := if name = "name" then .required else .value (.key none)

/-- The user of a budget is the acting user, unless it is given. -/
def budgetService (user : ℕ) : CreateService ℕ Unit where
  schema := budgetSchema
  columns name := ⟨name = "user", "This field cannot be null.", fun _ => none, fun _ => none⟩
  own := Dict.empty.set "user" (.key (some user))

/-- A budget of which only the name is given. -/
def namedBudget (user : ℕ) : CreateInput (budgetService user).schema where
  given := Dict.empty.set "name" (.plain (some ()))
  declared name hname := by
    rw [Dict.get_set] at hname
    split_ifs at hname with heq
    · exact heq ▸ List.mem_cons_self
    · exact absurd rfl hname
  required name _ hrequired := by
    have heq : name = "name" := by
      by_contra hne
      have hvalue : (budgetService user).schema.default name = .value (.key none) := if_neg hne
      rw [hvalue] at hrequired
      cases hrequired
    rw [Dict.get_set, if_pos heq]
    exact nofun
  built := 0

theorem namedBudget_covered (user : ℕ) : ∀ item ∈ [namedBudget user], AllAnnounced (budgetService user) 0 item := by
  intro item hitem name hname hannounced
  obtain rfl := List.mem_singleton.mp hitem
  have huser : (namedBudget user).unset = ["user"] := by
    show ["name", "user"].filter _ = _
    rfl
  rw [huser] at hname
  obtain rfl := List.mem_singleton.mp hname
  cases hannounced

/-- The default user is not one the acting user may read: the budget is refused, though every given value is
accepted. -/
theorem unreadable_default_refused :
    (∀ name, ∀ input ∈ (namedBudget 9).given.get name,
      ¬ Refused anonymousEnv movementRelated (budgetService 9).columns name input) ∧
    ∃ e, (budgetService 9).create anonymousEnv movementRelated toString .keys 0 [namedBudget 9] = .error e := by
  constructor
  · intro name input hinput
    have hplain : input = .plain (some ()) := by
      unfold namedBudget at hinput
      rw [Dict.get_set] at hinput
      split_ifs at hinput
      · exact (Option.some.inj hinput).symm
      · cases hinput
    subst hplain
    rintro (hcheck | ⟨value, hvalue, -⟩)
    · exact hcheck rfl
    · cases hvalue
  · have hok : (∃ rows,
        (budgetService 9).create anonymousEnv movementRelated toString .keys 0 [namedBudget 9] = .ok rows) ↔
        ∀ item ∈ [namedBudget 9], ¬ RefusedItem anonymousEnv movementRelated (budgetService 9) 0 item :=
      create_isOk_iff (fun _ => rfl) (namedBudget_covered 9)
    have hrefused : RefusedItem anonymousEnv movementRelated (budgetService 9) 0 (namedBudget 9) :=
      ⟨"user", List.mem_cons_of_mem _ List.mem_cons_self, .key (some 9), rfl,
        .inr ⟨9, List.mem_cons_self, fun _ => not_designates (by decide)⟩⟩
    cases hresult : (budgetService 9).create anonymousEnv movementRelated toString .keys 0 [namedBudget 9] with
    | error e => exact ⟨e, rfl⟩
    | ok rows => exact absurd hrefused (hok.mp ⟨rows, hresult⟩ _ List.mem_cons_self)

/-- A budget of which the user is given, too. -/
def ownedBudget (user owner : ℕ) : CreateInput (budgetService user).schema where
  given := (namedBudget user).given.set "user" (.key (some owner))
  declared name hname := by
    rw [Dict.get_set] at hname
    split_ifs at hname with heq
    · exact heq ▸ List.mem_cons_of_mem _ List.mem_cons_self
    · exact (namedBudget user).declared name hname
  required name hname hrequired := by
    rw [Dict.get_set]
    split_ifs
    · exact nofun
    · exact (namedBudget user).required name hname hrequired
  built := 0

theorem ownedBudget_covered (user owner : ℕ) : AllAnnounced (budgetService user) 0 (ownedBudget user owner) := by
  intro name hname
  have hnone : (ownedBudget user owner).unset = [] := by
    show ["name", "user"].filter _ = _
    rfl
  rw [hnone] at hname
  exact (List.not_mem_nil hname).elim

/-- Two users who can be read. -/
def usersRelated (_ : String) : Related Unit ℕ ℕ ℕ Empty Unit ℕ where
  store := { knownStore with table := [1, 2], pk_nodup := by decide }
  model := ()
  toPython := some

/-- The user of a budget is the announced one, and of the next one of the batch that which is given. -/
theorem create_follows_defaults_sample :
    FollowsDefaults anonymousEnv usersRelated (budgetService 2) toString .keys 0 [namedBudget 2, ownedBudget 2 1] ∧
      ((budgetService 2).create anonymousEnv usersRelated toString .keys 0
        [namedBudget 2, ownedBudget 2 1]).toOption.map (List.map fun row => row.get "user") =
          some [some (.record 2), some (.record 1)] := by
  refine ⟨create_follows_defaults (fun _ => rfl) fun item hitem => ?_, by decide +kernel⟩
  rcases List.mem_cons.mp hitem with rfl | hitem
  · exact namedBudget_covered 2 _ List.mem_cons_self
  · obtain rfl := List.mem_singleton.mp hitem
    exact ownedBudget_covered 2 1

end Sample

end Totem.Services
