import Totem.Html.Widgets
import Totem.Lib.Words
import Totem.Orm.FetchPlan
import Totem.Services.GroupBy

/-!
# Totem.Api.Filters — multi-valued list filters

`core/api/filters.py`: the items a parameter was sent with are split at the commas into tokens, each validated as an
item of the field, and `null` among them adds the records whose lookup is empty.  Conditions are those of SQL, with
its third truth value: `IN` is unknown on a `NULL`.

* `selects_values`: the condition on a list of values selects the rows whose value is one of them.
* `selects_tokens`: a parameter selects by its tokens alone.
-/

namespace Totem.Api

open Totem.Lib Totem.Html

/-! ## The values of a parameter -/

/-- An item of a value; `J` has the JSON values that are neither a string nor null. -/
inductive Item (J : Type) where
  | null
  | text (s : String)
  | json (j : J)
  deriving DecidableEq, Repr

/-- What a parameter is sent with: one JSON value, or a list, as repeated query parameters are. -/
inductive Sending (J : Type) where
  | single (item : Item J)
  | many (items : List (Item J))
  deriving DecidableEq, Repr

def nullSentinel : String := "null"

section

variable {J : Type}

/-- The values of an item of the list: those of a text stand between its commas. -/
def splitItem (allowNull : Bool) : Item J → List (Item J)
  | .text s =>
      let parts := (s.toList.splitOnP fun c => c = ',').map fun part => strip (String.ofList part)
      (parts.filter fun part => decide (part ≠ "")).map fun part =>
        if allowNull && decide (part = nullSentinel) then .null else .text part
  | item => [item]

def Sending.items : Sending J → List (Item J)
  | .single .null => []
  | .single item => [item]
  | .many items => items

/-- `_split_values`: `None` for no value. -/
def splitValues (sending : Sending J) (allowNull : Bool) : Option (List (Item J)) :=
  let values := sending.items.flatMap (splitItem allowNull)
  if values = [] then none else some values

/-- `q` in the extra schema of a field. -/
inductive ExtraQ where
  | absent
  | lookup (q : String)
  | lookups (q : List String)
  deriving DecidableEq, Repr

/-- A field typed `MultiValue(item_type, allow_null=...)`. -/
structure MultiValueField (J V : Type) where
  name : String
  itemType : Item J → Option V
  allowNull : Bool
  q : ExtraQ

variable {V : Type}

/-- `t.Optional[item_type]`, or `item_type`. -/
def MultiValueField.inner (field : MultiValueField J V) : Item J → Option (Option V)
  | .null => if field.allowNull then some none else none
  | item => (field.itemType item).map some

/-- The places of the values that are refused. -/
def faulty (field : MultiValueField J V) (values : List (Item J)) : List ℕ :=
  (values.zipIdx.filter fun x => (field.inner x.1).isNone).map Prod.snd

/-- What a request is refused with. -/
inductive FilterError where
  | invalid (indices : List ℕ)
  | improperlyConfigured (text : String)
  deriving DecidableEq, Repr

/-- The validated value of the field. -/
def MultiValueField.clean (field : MultiValueField J V) (sending : Sending J) :
    Except FilterError (Option (List (Option V))) :=
  match splitValues sending field.allowNull with
  | none => .ok none
  | some values =>
      if faulty field values = [] then .ok (some (values.filterMap field.inner))
      else .error (.invalid (faulty field values))

/-! ## The condition -/

/-- A condition of Django; `Q.all` is `Q()`. -/
inductive Q (V : Type) where
  | all
  | isIn (lookup : String) (values : List V)
  | isNull (lookup : String)
  | or (q1 q2 : Q V)
  deriving DecidableEq, Repr

/-- `q1 | q2`: an empty condition is left out. -/
def Q.combineOr : Q V → Q V → Q V
  | .all, q2 => q2
  | q1, .all => q1
  | q1, q2 => .or q1 q2

/-- The lookup of a field. -/
def MultiValueField.lookup (field : MultiValueField J V) (className : String) : Except FilterError String :=
  match field.q with
  | .lookups (q :: qs) => .error (.improperlyConfigured ("Field " ++ field.name ++ " of " ++ className
      ++ " is a MultiValue: its 'q' must be a single lookup, not " ++ Services.printNames (q :: qs) ++ "."))
  | .lookup q =>
      let lookup := if q = "" then field.name else q
      .ok (if ['_', '_'] <+: lookup.toList then field.name ++ lookup else lookup)
  | _ => .ok (if ['_', '_'] <+: field.name.toList then field.name ++ field.name else field.name)

/-- `_resolve_field_expression` of a `MultiValue` field with no `filter_` method. -/
def resolveFieldExpression (field : MultiValueField J V) (className : String) (value : Option (List (Option V))) :
    Except FilterError (Q V) :=
  (field.lookup className).map fun lookup =>
    match value with
    | none => .all
    | some fieldValue =>
        let values := fieldValue.filterMap id
        let q := if values = [] then .all else Q.all.combineOr (.isIn lookup values)
        if values.length < fieldValue.length then q.combineOr (.isNull lookup) else q

/-- The condition of a request. -/
def filterExpression (field : MultiValueField J V) (className : String) (sending : Sending J) :
    Except FilterError (Q V) :=
  (field.clean sending).bind (resolveFieldExpression field className)

end

/-! ## The records -/

/-- The rows: their columns, and the rows their to-one relations lead to. -/
structure Relations (R V : Type) where
  column : R → String → Option V
  related : R → String → Option R

section

variable {R V : Type} (db : Relations R V)

/-- The value at the end of a path; `NULL` where a relation on it is empty. -/
def Relations.valueAt : List String → R → Option V
  | [], _ => none
  | [name], row => db.column row name
  | name :: path, row => (db.related row name).bind (valueAt path)

def Relations.lookupValue (lookup : String) (row : R) : Option V := db.valueAt (Orm.splitLookup lookup) row

/-- `OR` of SQL. -/
def or3 : Option Bool → Option Bool → Option Bool
  | some true, _ => some true
  | _, some true => some true
  | some false, some false => some false
  | _, _ => none

variable [DecidableEq V]

/-- The truth of a condition; `none` is `unknown`. -/
def Q.truth (row : R) : Q V → Option Bool
  | .all => some true
  | .isIn lookup values => (db.lookupValue lookup row).map fun v => decide (v ∈ values)
  | .isNull lookup => some (db.lookupValue lookup row).isNone
  | .or q1 q2 => or3 (q1.truth row) (q2.truth row)

def Q.Selects (q : Q V) (row : R) : Prop := q.truth db row = some true

instance (q : Q V) (row : R) : Decidable (q.Selects db row) := inferInstanceAs (Decidable (_ = _))

theorem or3_eq_true {a b : Option Bool} : or3 a b = some true ↔ a = some true ∨ b = some true := by
  rcases a with _ | _ | _ <;> rcases b with _ | _ | _ <;> simp [or3]

@[simp] theorem Q.selects_all (row : R) : (Q.all : Q V).Selects db row := rfl

@[simp] theorem Q.selects_isIn {lookup : String} {values : List V} {row : R} :
    (Q.isIn lookup values).Selects db row ↔ ∃ v ∈ values, db.lookupValue lookup row = some v := by
  rw [Selects, truth]
  cases db.lookupValue lookup row with
  | none => simp
  | some v => simp

@[simp] theorem Q.selects_isNull {lookup : String} {row : R} :
    (Q.isNull lookup : Q V).Selects db row ↔ db.lookupValue lookup row = none := by
  rw [Selects, truth, Option.some_inj, Option.isNone_iff_eq_none]

@[simp] theorem Q.selects_or {q1 q2 : Q V} {row : R} :
    (Q.or q1 q2).Selects db row ↔ q1.Selects db row ∨ q2.Selects db row := or3_eq_true

end

/-! ## Tokens -/

section

variable {J V R : Type}

/-- The tokens an item is sent for: a JSON value itself, and what stands between the commas of a text, blanks off. -/
inductive Item.Spells : Item J → Item J → Prop
  | null : Spells .null .null
  | json (j : J) : Spells (.json j) (.json j)
  | sentinel {s : String} {part : List Char} (hpart : Between (fun c => c = ',') s.toList part)
      (hnull : strip (String.ofList part) = nullSentinel) : Spells (.text s) .null
  | text {s : String} {part : List Char} (hpart : Between (fun c => c = ',') s.toList part)
      (hempty : strip (String.ofList part) ≠ "") (hnull : strip (String.ofList part) ≠ nullSentinel) :
      Spells (.text s) (.text (strip (String.ofList part)))

def Sending.Sends (sending : Sending J) (token : Item J) : Prop := ∃ item ∈ sending.items, item.Spells token

theorem mem_splitItem {item token : Item J} : token ∈ splitItem true item ↔ item.Spells token := by
  cases item with
  | null =>
    rw [show splitItem true (.null : Item J) = [.null] from rfl, List.mem_singleton]
    exact ⟨fun h => h ▸ .null, fun h => by cases h; rfl⟩
  | json j =>
    rw [show splitItem true (.json j) = [.json j] from rfl, List.mem_singleton]
    exact ⟨fun h => h ▸ .json j, fun h => by cases h; rfl⟩
  | text s =>
    simp only [splitItem, List.mem_map, List.mem_filter, mem_splitOnP_iff, Bool.true_and, decide_eq_true_eq]
    constructor
    · rintro ⟨part, ⟨⟨w, hw, rfl⟩, hempty⟩, rfl⟩
      by_cases hnull : strip (String.ofList w) = nullSentinel
      · rw [if_pos hnull]
        exact .sentinel hw hnull
      · rw [if_neg hnull]
        exact .text hw hempty hnull
    · rintro (_ | _ | ⟨hw, hnull⟩ | ⟨hw, hempty, hnull⟩)
      · exact ⟨_, ⟨⟨_, hw, rfl⟩, by rw [hnull]; decide⟩, if_pos hnull⟩
      · exact ⟨_, ⟨⟨_, hw, rfl⟩, hempty⟩, if_neg hnull⟩

/-- The values of a parameter are its tokens. -/
theorem mem_values {sending : Sending J} {token : Item J} :
    token ∈ sending.items.flatMap (splitItem true) ↔ sending.Sends token := by
  simp only [List.mem_flatMap, mem_splitItem, Sending.Sends]

variable {field : MultiValueField J V}

/-- A token of the field's type, or a null one. -/
def MultiValueField.Accepts (field : MultiValueField J V) (token : Item J) : Prop :=
  token = .null ∨ (field.itemType token).isSome

/-- The token is for this value of the lookup. -/
def MultiValueField.TokenFor (field : MultiValueField J V) (token : Item J) (value : Option V) : Prop :=
  (token = .null ∧ value = none) ∨ token ≠ .null ∧ ∃ v, field.itemType token = some v ∧ value = some v

theorem inner_eq_some_iff (hnull : field.allowNull = true) {token : Item J} {value : Option V} :
    field.inner token = some value ↔ field.TokenFor token value := by
  cases token with
  | null => simp [MultiValueField.inner, MultiValueField.TokenFor, hnull, eq_comm]
  | text s => simp [MultiValueField.inner, MultiValueField.TokenFor, eq_comm]
  | json j => simp [MultiValueField.inner, MultiValueField.TokenFor, eq_comm]

theorem inner_isSome_iff (hnull : field.allowNull = true) {token : Item J} :
    (field.inner token).isSome ↔ field.Accepts token := by
  cases token <;> simp [MultiValueField.inner, MultiValueField.Accepts, hnull]

theorem faulty_eq_nil_iff {values : List (Item J)} :
    faulty field values = [] ↔ ∀ value ∈ values, (field.inner value).isSome := by
  rw [faulty, List.map_eq_nil_iff, List.filter_eq_nil_iff]
  constructor
  · intro h value hvalue
    obtain ⟨i, hi⟩ := List.mem_iff_getElem?.1 hvalue
    have hnone := h (value, i) (List.mem_zipIdx_iff_getElem?.2 hi)
    rwa [Option.isNone_iff_eq_none, ← Option.not_isSome_iff_eq_none, not_not] at hnone
  · rintro h ⟨value, i⟩ hi
    have hsome := h value (List.mem_of_getElem? (List.mem_zipIdx_iff_getElem?.1 hi))
    rw [Option.isNone_iff_eq_none, ← Option.not_isSome_iff_eq_none, not_not]
    exact hsome

variable [DecidableEq V] (db : Relations R V)

omit [DecidableEq V] in
theorem length_values_lt_iff {fieldValue : List (Option V)} :
    (fieldValue.filterMap id).length < fieldValue.length ↔ none ∈ fieldValue := by
  rw [List.length_filterMap_lt_length_iff_exists]
  simp

/-- The condition on a list of values selects the rows whose value is one of them. -/
theorem selects_values {className lookup : String} (hlookup : field.lookup className = .ok lookup)
    {fieldValue : List (Option V)} (hne : fieldValue ≠ []) :
    ∃ q, resolveFieldExpression field className (some fieldValue) = .ok q ∧
      ∀ row, q.Selects db row ↔ db.lookupValue lookup row ∈ fieldValue := by
  have hmem (v : V) : v ∈ fieldValue.filterMap id ↔ some v ∈ fieldValue := by simp
  rw [resolveFieldExpression, hlookup]
  refine ⟨_, rfl, fun row => ?_⟩
  by_cases hvalues : fieldValue.filterMap id = []
  · -- only null tokens
    have hnone : ∀ v, some v ∉ fieldValue := fun v hv => by
      rw [← hmem, hvalues] at hv
      exact absurd hv List.not_mem_nil
    have hlt : (fieldValue.filterMap id).length < fieldValue.length := by
      rw [hvalues]
      exact List.length_pos_iff.2 hne
    simp only [if_pos hvalues, if_pos hlt, Q.combineOr, Q.selects_isNull]
    cases hvalue : db.lookupValue lookup row with
    | none => exact iff_of_true rfl (length_values_lt_iff.1 hlt)
    | some v => exact iff_of_false nofun (hnone v)
  · by_cases hlt : (fieldValue.filterMap id).length < fieldValue.length
    · simp only [if_neg hvalues, if_pos hlt, Q.combineOr, Q.selects_or, Q.selects_isIn, Q.selects_isNull, hmem]
      cases hvalue : db.lookupValue lookup row with
      | none => exact iff_of_true (Or.inr rfl) (length_values_lt_iff.1 hlt)
      | some v => simp
    · simp only [if_neg hvalues, if_neg hlt, Q.combineOr, Q.selects_isIn, hmem]
      cases hvalue : db.lookupValue lookup row with
      | none => simpa using fun h => hlt (length_values_lt_iff.2 h)
      | some v => simp

/-- What is filtered with a parameter of this field, whatever way it is sent. -/
structure FiltersByTokens (field : MultiValueField J V) (className lookup : String) (sending : Sending J) : Prop where
  /-- The request is refused exactly when a token is not an item of the field. -/
  accepted : (∃ q, filterExpression field className sending = .ok q) ↔
    ∀ token, sending.Sends token → field.Accepts token
  selects : ∀ q, filterExpression field className sending = .ok q → ∀ row, q.Selects db row ↔
    (∀ token, ¬ sending.Sends token) ∨ ∃ token, sending.Sends token ∧ field.TokenFor token (db.lookupValue lookup row)
  sameTokens : ∀ sending' : Sending J, (∀ token, sending.Sends token ↔ sending'.Sends token) →
    ∀ q q', filterExpression field className sending = .ok q → filterExpression field className sending' = .ok q' →
      ∀ row, q.Selects db row ↔ q'.Selects db row

omit [DecidableEq V] in
theorem clean_eq_none_of_no_token (hnull : field.allowNull = true) {sending : Sending J}
    (h : ∀ token, ¬ sending.Sends token) : field.clean sending = .ok none := by
  have hvalues : sending.items.flatMap (splitItem true) = [] :=
    List.eq_nil_iff_forall_not_mem.2 fun token htoken => h token (mem_values.1 htoken)
  rw [MultiValueField.clean, splitValues, hnull, hvalues]
  rfl

omit [DecidableEq V] in
/-- The values of a parameter that has a token. -/
theorem clean_of_token (hnull : field.allowNull = true) {sending : Sending J} {token : Item J}
    (htoken : sending.Sends token) :
    (∀ value, field.clean sending = .ok value → ∃ fieldValue, value = some fieldValue ∧ fieldValue ≠ [] ∧
        ∀ v, v ∈ fieldValue ↔ ∃ token, sending.Sends token ∧ field.TokenFor token v) ∧
      ((∃ value, field.clean sending = .ok value) ↔ ∀ token, sending.Sends token → field.Accepts token) := by
  have hmem : token ∈ sending.items.flatMap (splitItem true) := mem_values.2 htoken
  have hne : sending.items.flatMap (splitItem true) ≠ [] := List.ne_nil_of_mem hmem
  have haccepts : faulty field (sending.items.flatMap (splitItem true)) = [] ↔
      ∀ token, sending.Sends token → field.Accepts token := by
    simp only [faulty_eq_nil_iff, mem_values, inner_isSome_iff hnull]
  rw [MultiValueField.clean, splitValues, hnull, ← haccepts]
  simp only [if_neg hne]
  by_cases hfaulty : faulty field (sending.items.flatMap (splitItem true)) = []
  · simp only [if_pos hfaulty]
    refine ⟨fun value hvalue => ?_, iff_of_true ⟨_, rfl⟩ hfaulty⟩
    obtain rfl := Except.ok.inj hvalue
    refine ⟨_, rfl, ?_, fun v => ?_⟩
    · obtain ⟨v, hv⟩ := Option.isSome_iff_exists.1 (faulty_eq_nil_iff.1 hfaulty token hmem)
      exact List.ne_nil_of_mem (List.mem_filterMap.2 ⟨token, hmem, hv⟩)
    · simp only [List.mem_filterMap, mem_values, inner_eq_some_iff hnull]
  · simp only [if_neg hfaulty]
    exact ⟨fun value hvalue => (nomatch hvalue), iff_of_false nofun hfaulty⟩

/-- One way to send a parameter: what it is accepted for, and what it selects. -/
theorem filterExpression_spec (hnull : field.allowNull = true) {className lookup : String}
    (hlookup : field.lookup className = .ok lookup) (sending : Sending J) :
    ((∃ q, filterExpression field className sending = .ok q) ↔ ∀ token, sending.Sends token → field.Accepts token) ∧
      ∀ q, filterExpression field className sending = .ok q → ∀ row, q.Selects db row ↔
        (∀ token, ¬ sending.Sends token) ∨
          ∃ token, sending.Sends token ∧ field.TokenFor token (db.lookupValue lookup row) := by
  rw [filterExpression]
  by_cases hnone : ∀ token, ¬ sending.Sends token
  · have hexpression : (field.clean sending).bind (resolveFieldExpression field className) = .ok .all := by
      rw [clean_eq_none_of_no_token hnull hnone, Except.bind, resolveFieldExpression, hlookup]
      rfl
    rw [hexpression]
    refine ⟨iff_of_true ⟨_, rfl⟩ fun token htoken => absurd htoken (hnone token), fun q hq row => ?_⟩
    obtain rfl := Except.ok.inj hq
    exact iff_of_true (Q.selects_all db row) (Or.inl hnone)
  · simp only [not_forall, not_not] at hnone
    obtain ⟨token, htoken⟩ := hnone
    obtain ⟨hvalues, haccepts⟩ := clean_of_token hnull htoken
    rw [← haccepts]
    cases hclean : field.clean sending with
    | error e => exact ⟨by simp [Except.bind], fun q hq => (nomatch hq)⟩
    | ok value =>
      obtain ⟨fieldValue, rfl, hne, hmem⟩ := hvalues value hclean
      obtain ⟨q, hq, hselects⟩ := selects_values db hlookup hne
      have hbind : (Except.ok (some fieldValue) : Except FilterError _).bind
          (resolveFieldExpression field className) = .ok q := hq
      rw [hbind]
      refine ⟨iff_of_true ⟨q, rfl⟩ ⟨_, rfl⟩, fun q' hq' row => ?_⟩
      obtain rfl := Except.ok.inj hq'
      rw [hselects row, hmem]
      exact ⟨Or.inr, fun h => h.resolve_left fun hnone => hnone token htoken⟩

/-- **A parameter selects by its tokens alone.** -/
theorem selects_tokens (hnull : field.allowNull = true) {className lookup : String}
    (hlookup : field.lookup className = .ok lookup) (sending : Sending J) :
    FiltersByTokens db field className lookup sending := by
  refine ⟨(filterExpression_spec db hnull hlookup sending).1, (filterExpression_spec db hnull hlookup sending).2, ?_⟩
  intro sending' hsame q q' hq hq' row
  rw [(filterExpression_spec db hnull hlookup sending).2 q hq row,
    (filterExpression_spec db hnull hlookup sending').2 q' hq' row]
  simp only [hsame]

end

/-- Lines, each with its product. -/
def lineRelations : Relations (Option String) String := ⟨fun line name => if name = "product" then line else none,
  fun _ _ => none⟩

def textItem : Item Empty → Option String
  | .text s => some s
  | _ => none

theorem selects_tokens_sample : FiltersByTokens lineRelations ⟨"product", textItem, true, .absent⟩ "LineFilter"
    "product" (.many [.text "hammer, bread,,", .null]) :=
  selects_tokens lineRelations rfl rfl _

end Totem.Api
