import Mathlib.Data.Finset.Preimage
import Mathlib.Data.Set.Finite.Basic
import Totem.Lib.Dict
import Totem.Lib.Fallible
import Totem.Lib.Repr
import Totem.Schemas.Fields

/-!
# Totem.Schemas.Factory — the schemas of models, and their cache

`core/schemas/factory.py`: a schema is built of the selected fields of a model and of custom fields, under a base
class, and kept under a key made of the text of the arguments.  The validation of the options of a field and the class
pydantic makes are functions of what they are given (`Library`); a Python object is only seen through them and its
`repr`.

* `getKey_eq_iff`: the arguments that have one key.
* `createSchema_of_accepted`, `accepted_of_createSchema`: when a schema can be built, and what its fields are.
* `memoSound_iff`: the calls that may be answered with the schema of another one.
-/

namespace Totem.Schemas

open Totem.Lib

/-! ## Calls -/

/-- A class a schema is built on: its own fields, its methods and its validators. -/
structure BaseClass (O : Type) where
  module : String
  fields : Dict String (O × FieldInfo O)
  methods : Dict String O
  validators : Dict String O

/-- What the factory reads of the models, and the functions it calls. -/
structure Library (M O : Type) extends Typing O where
  modelName : M → String
  getFields : M → List (DbField O)
  /-- `computed_fields(model, VIRTUAL)`. -/
  virtual : M → List (DbField O)
  repr : O → String
  isPrintable : Char → Bool
  /-- The validation of one option of `ExtraFieldInfos`. -/
  validateOption : String → O → Option (Info O)
  /-- `create_pydantic_model` makes a class with these definitions. -/
  builds : BaseClass O → Dict String (O × FieldInfo O) → Bool

/-- `optional_fields`: `None`, `"__all__"`, or names. -/
inductive OptionalFields where
  | none
  | all
  | names (names : List String)
  deriving DecidableEq, Repr

/-- The arguments of `create_schema`. -/
structure Call (M O : Type) where
  model : M
  name : String
  fields : Option (List String)
  exclude : Option (List String)
  optionalFields : OptionalFields
  customFields : Option (List (String × O × O))
  baseClass : BaseClass O
  extraFieldsKwargs : Option (Dict String (Dict String O))

inductive ConfigError where
  | text (message : String)
  /-- The names that are not fields of the model. -/
  | invalidFields (names : List String)
  /-- An option is refused, or a field has no conversion. -/
  | invalidOptions (field : String)
  /-- Pydantic makes no class of the definitions. -/
  | notBuilt
  deriving DecidableEq, Repr

/-- The class `create_pydantic_model` makes: what is not defined is that of the base class. -/
structure Schema (O : Type) where
  name : String
  module : String
  definitions : Dict String (O × FieldInfo O)
  baseClass : BaseClass O

/-- The fields of a schema: the definitions, and what the base class has under other names. -/
def Schema.field? {O : Type} (s : Schema O) (name : String) : Option (O × FieldInfo O) :=
  (s.definitions.get name).or (s.baseClass.fields.get name)

section

variable {M O : Type} (lib : Library M O)

/-! ## The key -/

def strText (s : String) : String := String.ofList (reprText lib.isPrintable s.toList)

/-- `str` of a list of names, or of `None`. -/
def strNames : Option (List String) → String
  | none => "None"
  | some names => String.ofList (reprTexts lib.isPrintable (names.map String.toList))

def strOptionalFields : OptionalFields → String
  | .none => "None"
  | .all => "__all__"
  | .names names => strNames lib (some names)

def strCustomFields : Option (List (String × O × O)) → String
  | none => "None"
  | some fields => "[" ++ ", ".intercalate (fields.map fun f =>
      "(" ++ strText lib f.1 ++ ", " ++ lib.repr f.2.1 ++ ", " ++ lib.repr f.2.2 ++ ")") ++ "]"

/-- `str` of a dict, given that of its values. -/
def strDict {V : Type} (strValue : V → String) (d : Dict String V) : String :=
  "\x7b" ++ ", ".intercalate (d.entries.map fun e => strText lib e.1 ++ ": " ++ strValue e.2) ++ "\x7d"

/-- `extra_fields_kwargs or {}`. -/
def Call.extra (c : Call M O) : Dict String (Dict String O) := c.extraFieldsKwargs.getD .empty

/-- `name or model.__name__`. -/
def Call.schemaName (c : Call M O) : String := if c.name = "" then lib.modelName c.model else c.name

structure SchemaKey (M : Type) where
  model : M
  name : String
  fields : String
  exclude : String
  optionalFields : String
  customFields : String
  extraFieldsKwargs : String
  deriving DecidableEq, Repr

/-- `get_key`: the base class is not in it. -/
def getKey (c : Call M O) : SchemaKey M where
  model := c.model
  name := c.schemaName lib
  fields := strNames lib c.fields
  exclude := strNames lib c.exclude
  optionalFields := strOptionalFields lib c.optionalFields
  customFields := strCustomFields lib c.customFields
  extraFieldsKwargs := strDict lib (strDict lib lib.repr) c.extra

/-! ## The fields of the model -/

/-- `_model_fields`. -/
def modelFields (model : M) : List (DbField O) := (lib.getFields model).filter fun fld => !fld.isReverse

def byName (fields : List (DbField O)) : Dict String (DbField O) :=
  fields.foldl (fun d fld => d.set fld.options.name fld) .empty

/-- `fields or []`. -/
def orEmpty (names : Option (List String)) : List String := names.getD []

/-- `_selected_model_fields`. -/
def selectedModelFields (c : Call M O) : Except ConfigError (List (DbField O)) :=
  let allFields := byName (modelFields lib c.model)
  let virtual := byName (lib.virtual c.model)
  if orEmpty c.fields = [] ∧ orEmpty c.exclude = [] then .ok (allFields.entries.map Prod.snd)
  else
    let invalidFields := (orEmpty c.fields ++ orEmpty c.exclude).filter fun name =>
      (allFields.get name).isNone && (virtual.get name).isNone
    if invalidFields ≠ [] then .error (.invalidFields invalidFields)
    else .ok ((orEmpty c.fields).filterMap (fun name => (allFields.get name).or (virtual.get name)) ++
      (if orEmpty c.exclude = [] then []
        else (allFields.entries.map Prod.snd).filter fun fld => decide (fld.options.name ∉ orEmpty c.exclude)))

/-! ## The definitions -/

/-- The fields of `ExtraFieldInfos`. -/
def extraFieldNames : List String := ["alias", "validation_alias", "title", "description", "pattern", "gt", "ge", "lt",
  "le", "min_length", "max_length", "max_digits"]

/-- `ExtraFieldInfos(**infos).model_dump(exclude_unset=True)`: other keys are ignored. -/
def extraFieldInfos (infos : Dict String O) : Option (List (String × Info O)) :=
  (infos.entries.filter fun e => decide (e.1 ∈ extraFieldNames)).mapM fun e =>
    (lib.validateOption e.1 e.2).map fun value => (e.1, value)

/-- The aliases a field is validated with: its public name, its own, and its column's. -/
def aliasChoices (options : FieldOptions O) (publicName : String) : List String :=
  let attname := options.attname.getD options.name
  if attname ≠ options.name then [publicName, options.name, attname] else [publicName, options.name]

/-- `_expand_alias`. -/
def expandAlias (options : FieldOptions O) (kwargs : List (String × Info O)) :
    Except ConfigError (List (String × Info O)) :=
  let rest := kwargs.filter fun e => decide (e.1 ≠ "alias")
  match kwargs.lookup "alias" with
  | some (.str publicName) =>
      if publicName = "" then .ok rest
      else if (rest.lookup "validation_alias").isSome then
        .error (.text ("Field " ++ strText lib options.name ++ ": 'alias' and 'validation_alias' are exclusive. "
          ++ "Use 'alias' on a response schema, 'validation_alias' on a request one."))
      else .ok (rest ++ [("serialization_alias", .str publicName),
        ("validation_alias", .aliasChoices (aliasChoices options publicName))])
  | _ => .ok rest

/-- `optional_fields and (fld.name in optional_fields)`, once `"__all__"` is the names of the selected fields. -/
def isOptional (optionalFields : OptionalFields) (selected : List (DbField O)) (fld : DbField O) : Bool :=
  match optionalFields with
  | .none => false
  | .all => decide (fld.options.name ∈ selected.map fun fld => fld.options.name)
  | .names names => decide (fld.options.name ∈ names)

/-- The options a call has for a field, validated and with the alias expanded. -/
def Call.kwargs (c : Call M O) (fld : DbField O) : Except ConfigError (List (String × Info O)) :=
  match extraFieldInfos lib ((c.extra.get fld.options.name).getD .empty) with
  | none => .error (.invalidOptions fld.options.name)
  | some kwargs => expandAlias lib fld.options kwargs

/-- The definition of a selected field of a call. -/
def Call.convert (c : Call M O) (selected : List (DbField O)) (fld : DbField O) :
    Except ConfigError (O × FieldInfo O) :=
  match c.kwargs lib fld with
  | .error e => .error e
  | .ok kwargs =>
      match convertDbField lib.toTyping fld (isOptional c.optionalFields selected fld) kwargs with
      | some definition => .ok definition
      | none => .error (.invalidOptions fld.options.name)

/-- The custom fields of a call, as definitions. -/
def Call.custom (c : Call M O) : List (String × O × FieldInfo O) :=
  (c.customFields.getD []).map fun f => (f.1, f.2.1, .given f.2.2)

/-- The definitions of a call: those of the selected fields, then the custom ones. -/
def Call.definitions (c : Call M O) : Except ConfigError (Dict String (O × FieldInfo O)) := do
  let selected ← selectedModelFields lib c
  let converted ← selected.mapM fun fld => (c.convert lib selected fld).map fun x => (fld.options.name, x)
  let definitions := converted.foldl (fun d e => d.set e.1 e.2) .empty
  return c.custom.foldl (fun d e => d.set e.1 e.2) definitions

/-! ## The factory -/

structure Factory (M O : Type) where
  schemas : Dict (SchemaKey M) (Schema O)
  schemaNames : List String

def Factory.empty : Factory M O := ⟨.empty, []⟩

theorem exists_unique_name (names : List String) (name : String) : ∃ num, 2 ≤ num ∧ name ++ Nat.repr num ∉ names := by
  have hinj : Function.Injective fun n : ℕ => name ++ Nat.repr (n + 2) := fun n m h => by
    have hrepr := congrArg String.toList ((String.append_right_inj name).1 h)
    rw [Nat.toList_repr, Nat.toList_repr] at hrepr
    have hvalue := congrArg (Nat.ofDigitChars 10 · 0) hrepr
    simpa [Nat.ofDigitChars_toDigits] using hvalue
  obtain ⟨n, hn⟩ := Infinite.exists_notMem_finset ((names.toFinset).preimage _ hinj.injOn)
  rw [Finset.mem_preimage, List.mem_toFinset] at hn
  exact ⟨n + 2, Nat.le_add_left 2 n, hn⟩

/-- `_get_unique_name`. -/
def uniqueName (names : List String) (name : String) : String :=
  name ++ Nat.repr (Nat.find (exists_unique_name names name))

variable [DecidableEq M]

/-- `create_schema`, and the factory it leaves. -/
def createSchema (f : Factory M O) (c : Call M O) : Except ConfigError (Schema O × Factory M O) :=
  if orEmpty c.fields ≠ [] ∧ orEmpty c.exclude ≠ [] then
    .error (.text "Only one of 'fields' or 'exclude' should be set.")
  else
    match f.schemas.get (getKey lib c) with
    | some schema => .ok (schema, f)
    | none =>
        match c.definitions lib with
        | .error e => .error e
        | .ok definitions =>
            if lib.builds c.baseClass definitions then
              let name := c.schemaName lib
              let name := if name ∈ f.schemaNames then uniqueName f.schemaNames name else name
              let schema : Schema O := ⟨name, c.baseClass.module, definitions, c.baseClass⟩
              .ok (schema, ⟨f.schemas.set (getKey lib c) schema, f.schemaNames ++ [name]⟩)
            else .error .notBuilt

/-- A call that raises leaves the factory as it was. -/
def afterCall (f : Factory M O) (c : Call M O) : Factory M O :=
  match createSchema lib f c with
  | .ok x => x.2
  | .error _ => f

/-- One call after the other. -/
def runCalls (f : Factory M O) (calls : List (Call M O)) : Factory M O := calls.foldl (afterCall lib) f

/-! ## What a call gives each field -/

/-- The custom field of a name: the last one. -/
def Call.customField (c : Call M O) (name : String) : Option (O × FieldInfo O) :=
  (c.custom.findRev? fun e => decide (e.1 = name)).map Prod.snd

/-- The selected field of a name. -/
def selectedField (selected : List (DbField O)) (name : String) : Option (DbField O) :=
  selected.findRev? fun fld => decide (fld.options.name = name)

/-- What a call gives a name: a custom field, the field of the model with its options, or that of the base class. -/
def Call.given (c : Call M O) (selected : List (DbField O)) (name : String) : Option (O × FieldInfo O) :=
  match c.customField name with
  | some x => some x
  | none =>
      match selectedField selected name with
      | some fld => (c.convert lib selected fld).toOption
      | none => c.baseClass.fields.get name

/-- The options of a call are valid, and pydantic makes a class of its definitions. -/
structure Call.Fits (c : Call M O) (selected : List (DbField O)) : Prop where
  options : ∀ fld ∈ selected, ∃ kwargs, c.kwargs lib fld = .ok kwargs
  builds : ∀ d, c.definitions lib = .ok d → lib.builds c.baseClass d = true

/-- The call asks for fields of the model that have a conversion, and fits. -/
structure Call.Accepted (c : Call M O) (selected : List (DbField O)) : Prop where
  oneOf : ¬ (orEmpty c.fields ≠ [] ∧ orEmpty c.exclude ≠ [])
  selects : selectedModelFields lib c = .ok selected
  converts : ∀ fld ∈ selected, (convertDbField lib.toTyping fld (isOptional c.optionalFields selected fld) []).isSome
  fits : c.Fits lib selected

/-- The same fields with the same types and requiredness, and the same methods and validators. -/
structure Schema.Equivalent (s s' : Schema O) : Prop where
  fields : ∀ name, (s.field? name).map (kind lib.toTyping) = (s'.field? name).map (kind lib.toTyping)
  methods : ∀ name, s.baseClass.methods.get name = s'.baseClass.methods.get name
  validators : ∀ name, s.baseClass.validators.get name = s'.baseClass.validators.get name

section

omit [DecidableEq M]

variable {lib} {c : Call M O} {selected : List (DbField O)}

/-- What is found last in two lists that go together. -/
theorem forall₂_findRev? {α β : Type} {R : α → β → Prop} {p : α → Bool} {q : β → Bool} {xs : List α} {ys : List β}
    (h : List.Forall₂ R xs ys) (hpq : ∀ x y, R x y → p x = q y) : Option.Rel R (xs.findRev? p) (ys.findRev? q) := by
  induction h with
  | nil => exact .none
  | @cons x y xs ys hxy _ ih =>
    rw [List.findRev?, List.findRev?, hpq x y hxy]
    generalize xs.findRev? p = x? at ih
    generalize ys.findRev? q = y? at ih
    cases ih with
    | some hrest => exact .some hrest
    | none =>
      cases q y with
      | true => exact .some hxy
      | false => exact .none

/-- The conversions of a list of fields, by name. -/
theorem findRev?_converted {f : DbField O → Except ConfigError (O × FieldInfo O)}
    {converted : List (String × O × FieldInfo O)}
    (h : List.Forall₂ (fun fld e => (f fld).map (fun x => (fld.options.name, x)) = .ok e) selected converted)
    (name : String) : (converted.findRev? fun e => decide (e.1 = name)).map Prod.snd =
      (selectedField selected name).bind fun fld => (f fld).toOption := by
  have hvalue (fld : DbField O) (e : String × O × FieldInfo O)
      (he : (f fld).map (fun x => (fld.options.name, x)) = .ok e) :
      e.1 = fld.options.name ∧ (f fld).toOption = some e.2 := by
    cases hx : f fld with
    | error err =>
      rw [hx] at he
      cases he
    | ok x =>
      rw [hx] at he
      obtain rfl : (fld.options.name, x) = e := Except.ok.inj he
      exact ⟨rfl, rfl⟩
  have hfound := forall₂_findRev? (p := fun fld => decide (fld.options.name = name))
    (q := fun e => decide (e.1 = name)) h fun fld e he => by rw [(hvalue fld e he).1]
  rw [selectedField]
  generalize selected.findRev? (fun fld => decide (fld.options.name = name)) = fld? at hfound
  generalize converted.findRev? (fun e => decide (e.1 = name)) = e? at hfound
  cases hfound with
  | none => rfl
  | some he => exact (hvalue _ _ he).2.symm

/-- A field is converted when its options are valid and its class has a conversion. -/
theorem exists_convert_iff {fld : DbField O} : (∃ x, c.convert lib selected fld = .ok x) ↔
    (∃ kwargs, c.kwargs lib fld = .ok kwargs) ∧
      (convertDbField lib.toTyping fld (isOptional c.optionalFields selected fld) []).isSome := by
  rw [Call.convert]
  cases hkwargs : c.kwargs lib fld with
  | error e => simp
  | ok kwargs =>
    have hkind := convertDbField_kind lib.toTyping fld (isOptional c.optionalFields selected fld) kwargs []
    have hsome := congrArg Option.isSome hkind
    rw [Option.isSome_map, Option.isSome_map] at hsome
    cases hconverted : convertDbField lib.toTyping fld (isOptional c.optionalFields selected fld) kwargs with
    | none => simp [← hsome, hconverted]
    | some x => simp [← hsome, hconverted]

/-- What the definitions of a call are. -/
theorem definitions_spec {d : Dict String (O × FieldInfo O)} (h : c.definitions lib = .ok d) :
    ∃ selected, selectedModelFields lib c = .ok selected ∧ (∀ fld ∈ selected, ∃ x, c.convert lib selected fld = .ok x) ∧
      ∀ name, (d.get name).or (c.baseClass.fields.get name) = c.given lib selected name := by
  obtain ⟨selected, hselected, h⟩ := bind_eq_ok.1 h
  obtain ⟨converted, hconverted, h⟩ := bind_eq_ok.1 h
  obtain rfl := Except.ok.inj h
  have hforall := mapM_eq_ok.1 hconverted
  have hconvert : ∀ fld ∈ selected, ∃ x, c.convert lib selected fld = .ok x := by
    intro fld hfld
    obtain ⟨e, -, he⟩ := forall₂_left hforall fld hfld
    cases hx : c.convert lib selected fld with
    | error err =>
      rw [hx] at he
      cases he
    | ok x => exact ⟨x, rfl⟩
  refine ⟨selected, hselected, hconvert, fun name => ?_⟩
  · rw [Dict.get_foldl_set, Dict.get_foldl_set, findRev?_converted hforall, Dict.get_empty, Option.or_none, Call.given]
    rw [← Call.customField]
    cases c.customField name with
    | some x => rfl
    | none =>
      cases hfound : selectedField selected name with
      | none => rfl
      | some fld =>
        obtain ⟨x, hx⟩ := hconvert fld (Dict.of_findRev? hfound).1
        simp only [Option.bind_some, hx]
        rfl

theorem exists_definitions (hselected : selectedModelFields lib c = .ok selected)
    (hconvert : ∀ fld ∈ selected, ∃ x, c.convert lib selected fld = .ok x) : ∃ d, c.definitions lib = .ok d := by
  obtain ⟨converted, hconverted⟩ := (exists_mapM_eq_ok
      (f := fun fld => (c.convert lib selected fld).map fun x => (fld.options.name, x))).2 fun fld hfld => by
    obtain ⟨x, hx⟩ := hconvert fld hfld
    exact ⟨(fld.options.name, x), by rw [hx]; rfl⟩
  exact ⟨_, bind_eq_ok.2 ⟨selected, hselected, bind_eq_ok.2 ⟨converted, hconverted, rfl⟩⟩⟩

end

/-! ## What the text of the arguments tells -/

section

omit [DecidableEq M]

variable {lib} {c c' : Call M O}

theorem head?_strNames (names : List String) : (strNames lib (some names)).toList.head? = some '[' := by
  rw [strNames, String.toList_ofList]
  rfl

theorem strNames_injective : Function.Injective (strNames lib) := by
  have hne (names : List String) : strNames lib (some names) ≠ "None" := fun h => by
    have hhead := @head?_strNames _ _ lib names
    rw [h] at hhead
    cases hhead
  rintro (_ | names) (_ | names') h
  · rfl
  · exact absurd h.symm (hne names')
  · exact absurd h (hne names)
  · have hnames := reprTexts_injective lib.isPrintable (String.ofList_injective h)
    exact congrArg some (List.map_injective_iff.2 (fun _ _ => String.toList_inj.1) hnames)

theorem strOptionalFields_injective : Function.Injective (strOptionalFields lib) := by
  have hall (names : Option (List String)) : strNames lib names ≠ "__all__" := fun h => by
    cases names with
    | none => cases congrArg (fun s : String => s.toList.head?) (show "None" = "__all__" from h)
    | some names =>
      have hhead := @head?_strNames _ _ lib names
      rw [h] at hhead
      cases hhead
  have hnames : ∀ names names', strNames lib names = strNames lib names' → names = names' :=
    fun _ _ h => strNames_injective h
  rintro (_ | _ | names) (_ | _ | names') h
  · rfl
  · exact absurd h (hall none)
  · cases hnames none (some names') h
  · exact absurd h.symm (hall none)
  · rfl
  · exact absurd h.symm (hall (some names'))
  · cases hnames (some names) none h
  · exact absurd h (hall (some names))
  · rw [Option.some_inj.1 (hnames (some names) (some names') h)]

/-- The arguments that `get_key` takes are the same, up to the text of the custom fields and of the options. -/
structure PrintedAlike (lib : Library M O) (c c' : Call M O) : Prop where
  model : c.model = c'.model
  schemaName : c.schemaName lib = c'.schemaName lib
  fields : c.fields = c'.fields
  exclude : c.exclude = c'.exclude
  optionalFields : c.optionalFields = c'.optionalFields
  customFields : strCustomFields lib c.customFields = strCustomFields lib c'.customFields
  extra : strDict lib (strDict lib lib.repr) c.extra = strDict lib (strDict lib lib.repr) c'.extra

theorem getKey_eq_iff : getKey lib c = getKey lib c' ↔ PrintedAlike lib c c' := by
  rw [getKey, getKey, SchemaKey.mk.injEq, strNames_injective.eq_iff, strNames_injective.eq_iff,
    strOptionalFields_injective.eq_iff]
  constructor
  · rintro ⟨hmodel, hname, hfields, hexclude, hoptional, hcustom, hextra⟩
    exact ⟨hmodel, hname, hfields, hexclude, hoptional, hcustom, hextra⟩
  · rintro ⟨hmodel, hname, hfields, hexclude, hoptional, hcustom, hextra⟩
    exact ⟨hmodel, hname, hfields, hexclude, hoptional, hcustom, hextra⟩

theorem PrintedAlike.selectedModelFields_eq (h : PrintedAlike lib c c') :
    selectedModelFields lib c = selectedModelFields lib c' := by
  rw [selectedModelFields, selectedModelFields, h.model, h.fields, h.exclude]

end

/-! ## The factory over a run -/

section

variable {lib} {f f' : Factory M O} {c : Call M O} {s : Schema O}

/-- A call returns the schema of its key, or builds one and keeps it under a new name. -/
theorem createSchema_cases (h : createSchema lib f c = .ok (s, f')) :
    ¬ (orEmpty c.fields ≠ [] ∧ orEmpty c.exclude ≠ []) ∧
      (f.schemas.get (getKey lib c) = some s ∧ f' = f ∨
        f.schemas.get (getKey lib c) = none ∧ c.definitions lib = .ok s.definitions ∧
          lib.builds c.baseClass s.definitions = true ∧ s.baseClass = c.baseClass ∧ s.name ∉ f.schemaNames ∧
            f' = ⟨f.schemas.set (getKey lib c) s, f.schemaNames ++ [s.name]⟩) := by
  rw [createSchema] at h
  by_cases hboth : orEmpty c.fields ≠ [] ∧ orEmpty c.exclude ≠ []
  · rw [if_pos hboth] at h
    cases h
  · rw [if_neg hboth] at h
    refine ⟨hboth, ?_⟩
    cases hget : f.schemas.get (getKey lib c) with
    | some schema =>
      rw [hget] at h
      obtain ⟨rfl, rfl⟩ := Prod.mk.inj (Except.ok.inj h)
      exact Or.inl ⟨rfl, rfl⟩
    | none =>
      cases hdefinitions : c.definitions lib with
      | error e =>
        rw [hget, hdefinitions] at h
        cases h
      | ok d =>
        rw [hget, hdefinitions] at h
        by_cases hbuilds : lib.builds c.baseClass d = true
        case neg =>
          simp only [if_neg hbuilds] at h
          cases h
        simp only [if_pos hbuilds] at h
        obtain ⟨rfl, rfl⟩ := Prod.mk.inj (Except.ok.inj h)
        refine Or.inr ⟨rfl, rfl, hbuilds, rfl, ?_, rfl⟩
        by_cases hname : c.schemaName lib ∈ f.schemaNames
        · simp only [if_pos hname]
          exact (Nat.find_spec (exists_unique_name f.schemaNames (c.schemaName lib))).2
        · simp only [if_neg hname]
          exact hname

/-- Each key has a schema of its own name. -/
structure Factory.Valid (f : Factory M O) : Prop where
  name_mem : ∀ key s, f.schemas.get key = some s → s.name ∈ f.schemaNames
  key_eq : ∀ key key' s s', f.schemas.get key = some s → f.schemas.get key' = some s' → s.name = s'.name → key = key'

theorem Factory.Valid.empty : (Factory.empty : Factory M O).Valid where
  name_mem _ _ h := nomatch h
  key_eq _ _ _ _ h := nomatch h

/-- One call keeps the factory valid, and what it has. -/
theorem Factory.Valid.createSchema (hf : f.Valid) (h : createSchema lib f c = .ok (s, f')) :
    f'.Valid ∧ ∀ key t, f.schemas.get key = some t → f'.schemas.get key = some t := by
  obtain ⟨-, ⟨-, rfl⟩ | ⟨hnone, -, -, -, hfresh, rfl⟩⟩ := createSchema_cases h
  · exact ⟨hf, fun _ _ h => h⟩
  · have hget (key : SchemaKey M) : (f.schemas.set (getKey lib c) s).get key =
        if key = getKey lib c then some s else f.schemas.get key := Dict.get_set ..
    refine ⟨⟨fun key t ht => ?_, fun key key' t t' ht ht' hname => ?_⟩, fun key t ht => ?_⟩
    · rw [hget] at ht
      by_cases hkey : key = getKey lib c
      · rw [if_pos hkey, Option.some_inj] at ht
        exact ht ▸ List.mem_append_right _ (List.mem_singleton_self _)
      · rw [if_neg hkey] at ht
        exact List.mem_append_left _ (hf.name_mem key t ht)
    · rw [hget] at ht ht'
      by_cases hkey : key = getKey lib c <;> by_cases hkey' : key' = getKey lib c
      · rw [hkey, hkey']
      · rw [if_pos hkey, Option.some_inj] at ht
        rw [if_neg hkey'] at ht'
        exact absurd (hf.name_mem key' t' ht') (hname ▸ ht ▸ hfresh)
      · rw [if_neg hkey] at ht
        rw [if_pos hkey', Option.some_inj] at ht'
        exact absurd (hf.name_mem key t ht) (hname ▸ ht' ▸ hfresh)
      · rw [if_neg hkey] at ht
        rw [if_neg hkey'] at ht'
        exact hf.key_eq key key' t t' ht ht' hname
    · have hkey : key ≠ getKey lib c := by
        rintro rfl
        rw [hnone] at ht
        cases ht
      rw [hget, if_neg hkey]
      exact ht

theorem Factory.Valid.runCalls (hf : f.Valid) (calls : List (Call M O)) :
    (runCalls lib f calls).Valid ∧
      ∀ key t, f.schemas.get key = some t → (runCalls lib f calls).schemas.get key = some t := by
  induction calls generalizing f with
  | nil => exact ⟨hf, fun _ _ h => h⟩
  | cons c calls ih =>
    have hstep : (afterCall lib f c).Valid ∧
        ∀ key t, f.schemas.get key = some t → (afterCall lib f c).schemas.get key = some t := by
      rw [afterCall]
      cases hcall : Schemas.createSchema lib f c with
      | error e => exact ⟨hf, fun _ _ h => h⟩
      | ok x => exact hf.createSchema (s := x.1) hcall
    obtain ⟨hvalid, hkept⟩ := ih hstep.1
    exact ⟨hvalid, fun key t ht => hkept key t (hstep.2 key t ht)⟩

end

/-! ## Answers from the cache -/

section

variable {lib} {c c' : Call M O} {selected : List (DbField O)}

/-- Whatever was called before and in between, when the second call returns the schema the first one built, building
it afresh for the second call would give an equivalent one. -/
def MemoSound (lib : Library M O) (c c' : Call M O) : Prop :=
  ∀ (before between : List (Call M O)) (s : Schema O) (f : Factory M O),
    (runCalls lib .empty before).schemas.get (getKey lib c) = none →
    createSchema lib (runCalls lib .empty before) c = .ok (s, f) →
    createSchema lib (runCalls lib f between) c' = .ok (s, runCalls lib f between) →
      ∃ s' f', createSchema lib .empty c' = .ok (s', f') ∧ s.Equivalent lib s'

/-- When a schema is built, and what its fields are. -/
theorem createSchema_of_accepted (h : c.Accepted lib selected) {f : Factory M O}
    (hnone : f.schemas.get (getKey lib c) = none) : ∃ s f', createSchema lib f c = .ok (s, f') := by
  obtain ⟨d, hd⟩ := exists_definitions h.selects fun fld hfld =>
    exists_convert_iff.2 ⟨h.fits.options fld hfld, h.converts fld hfld⟩
  rw [createSchema, if_neg h.oneOf, hnone, hd]
  simp only [if_pos (h.fits.builds d hd)]
  exact ⟨_, _, rfl⟩

theorem accepted_of_createSchema {f f' : Factory M O} {s : Schema O}
    (hnone : f.schemas.get (getKey lib c) = none) (h : createSchema lib f c = .ok (s, f')) :
    s.baseClass = c.baseClass ∧
      ∃ selected, c.Accepted lib selected ∧ ∀ name, s.field? name = c.given lib selected name := by
  obtain ⟨hboth, ⟨hsome, -⟩ | ⟨-, hdefinitions, hbuilds, hbase, -, -⟩⟩ := createSchema_cases h
  · rw [hnone] at hsome
    cases hsome
  · obtain ⟨selected, hselected, hconvert, hgiven⟩ := definitions_spec hdefinitions
    have hfits : c.Fits lib selected := by
      refine ⟨fun fld hfld => (exists_convert_iff.1 (hconvert fld hfld)).1, fun d hd => ?_⟩
      rwa [Except.ok.inj (hd.symm.trans hdefinitions)]
    refine ⟨hbase, selected,
      ⟨hboth, hselected, fun fld hfld => (exists_convert_iff.1 (hconvert fld hfld)).2, hfits⟩, fun name => ?_⟩
    rw [Schema.field?, hbase, hgiven]

theorem get_of_createSchema {f f' : Factory M O} {s : Schema O} (h : createSchema lib f c = .ok (s, f')) :
    f'.schemas.get (getKey lib c) = some s := by
  obtain ⟨-, ⟨hsome, rfl⟩ | ⟨-, -, -, -, -, rfl⟩⟩ := createSchema_cases h
  · exact hsome
  · exact Dict.get_set.trans (if_pos rfl)

/-! ### What the key does not tell -/

section

omit [DecidableEq M]

/-- What a custom field of the name would stand before: a selected field, as it is without options, or a field of the
base class. -/
def Call.behind (lib : Library M O) (c : Call M O) (selected : List (DbField O)) (name : String) : Option (O × Bool) :=
  match selectedField selected name with
  | some fld =>
      (convertDbField lib.toTyping fld (isOptional c.optionalFields selected fld) []).map (kind lib.toTyping)
  | none => (c.baseClass.fields.get name).map (kind lib.toTyping)

/-- The custom field of the name, or what would stand behind one. -/
def Call.standing (lib : Library M O) (c : Call M O) (selected : List (DbField O)) (name : String) :
    Option (O × Bool) :=
  ((c.customField name).map (kind lib.toTyping)).or (c.behind lib selected name)

/-- The base classes, which are not in the key, and the custom fields, of which only the text is, are alike: a name
that is custom in one of the calls only must be one of the same type in the other. -/
structure AlikeBesides (lib : Library M O) (selected : List (DbField O)) (c c' : Call M O) : Prop where
  methods : ∀ name, c.baseClass.methods.get name = c'.baseClass.methods.get name
  validators : ∀ name, c.baseClass.validators.get name = c'.baseClass.validators.get name
  inherited : ∀ name, c.customField name = none → c'.customField name = none → selectedField selected name = none →
    (c.baseClass.fields.get name).map (kind lib.toTyping) = (c'.baseClass.fields.get name).map (kind lib.toTyping)
  custom : ∀ name, (c.customField name).isSome ∨ (c'.customField name).isSome →
    c.standing lib selected name = c'.standing lib selected name

/-- Calls with one base class and the same custom fields are alike, whatever their options are. -/
theorem AlikeBesides.of_same (hoptional : c.optionalFields = c'.optionalFields) (hbase : c.baseClass = c'.baseClass)
    (hcustom : c.customFields = c'.customFields) : AlikeBesides lib selected c c' := by
  have hfield (name : String) : c.customField name = c'.customField name := by
    rw [Call.customField, Call.customField, Call.custom, Call.custom, hcustom]
  refine ⟨fun name => by rw [hbase], fun name => by rw [hbase], fun name _ _ _ => by rw [hbase], fun name _ => ?_⟩
  rw [Call.standing, Call.standing, Call.behind, Call.behind, hfield, hbase, hoptional]

/-- The options of a field do not show in what a call gives it. -/
theorem Call.given_kind (h : ∀ fld ∈ selected, ∃ kwargs, c.kwargs lib fld = .ok kwargs) (name : String) :
    (c.given lib selected name).map (kind lib.toTyping) = c.standing lib selected name := by
  rw [Call.given, Call.standing, Call.behind]
  cases c.customField name with
  | some x => rfl
  | none =>
    cases hfound : selectedField selected name with
    | none => rfl
    | some fld =>
      obtain ⟨kwargs, hkwargs⟩ := h fld (Dict.of_findRev? hfound).1
      simp only [Option.map_none, Option.none_or, Call.convert, hkwargs]
      rw [← convertDbField_kind lib.toTyping fld (isOptional c.optionalFields selected fld) kwargs []]
      cases convertDbField lib.toTyping fld (isOptional c.optionalFields selected fld) kwargs <;> rfl

/-- Calls for the same fields, as optional, give every name alike exactly when they are alike besides. -/
theorem standing_eq_iff (hoptional : c.optionalFields = c'.optionalFields) :
    (∀ name, c.standing lib selected name = c'.standing lib selected name) ↔
      (∀ name, c.customField name = none → c'.customField name = none → selectedField selected name = none →
        (c.baseClass.fields.get name).map (kind lib.toTyping) =
          (c'.baseClass.fields.get name).map (kind lib.toTyping)) ∧
      ∀ name, (c.customField name).isSome ∨ (c'.customField name).isSome →
        c.standing lib selected name = c'.standing lib selected name := by
  constructor
  · intro h
    refine ⟨fun name hcustom hcustom' hselected => ?_, fun name _ => h name⟩
    have hname := h name
    rw [Call.standing, Call.standing, Call.behind, Call.behind, hcustom, hcustom', hselected] at hname
    exact hname
  · rintro ⟨hinherited, hcustom⟩ name
    by_cases hany : (c.customField name).isSome ∨ (c'.customField name).isSome
    · exact hcustom name hany
    · rw [not_or, Option.not_isSome_iff_eq_none, Option.not_isSome_iff_eq_none] at hany
      rw [Call.standing, Call.standing, hany.1, hany.2, Call.behind, Call.behind]
      cases hselected : selectedField selected name with
      | some fld => rw [hoptional]
      | none => exact hinherited name hany.1 hany.2 hselected

/-- Schemas of calls for the same fields are equivalent exactly when the calls are alike besides. -/
theorem equivalent_iff {s s' : Schema O} (hoptional : c.optionalFields = c'.optionalFields)
    (hc : c.Accepted lib selected) (hc' : c'.Accepted lib selected) (hbase : s.baseClass = c.baseClass)
    (hbase' : s'.baseClass = c'.baseClass) (hs : ∀ name, s.field? name = c.given lib selected name)
    (hs' : ∀ name, s'.field? name = c'.given lib selected name) :
    s.Equivalent lib s' ↔ AlikeBesides lib selected c c' := by
  have hfields : (∀ name, (s.field? name).map (kind lib.toTyping) = (s'.field? name).map (kind lib.toTyping)) ↔
      ∀ name, c.standing lib selected name = c'.standing lib selected name := by
    refine forall_congr' fun name => ?_
    rw [hs, hs', Call.given_kind hc.fits.options, Call.given_kind hc'.fits.options]
  rw [standing_eq_iff hoptional] at hfields
  constructor
  · rintro ⟨hall, hmethods, hvalidators⟩
    rw [hbase, hbase'] at hmethods hvalidators
    obtain ⟨hinherited, hcustom⟩ := hfields.1 hall
    exact ⟨hmethods, hvalidators, hinherited, hcustom⟩
  · rintro ⟨hmethods, hvalidators, hinherited, hcustom⟩
    rw [← hbase, ← hbase'] at hmethods hvalidators
    exact ⟨hfields.2 ⟨hinherited, hcustom⟩, hmethods, hvalidators⟩

/-- A call for the fields of an accepted one is accepted when it fits. -/
theorem PrintedAlike.accepted_iff (h : PrintedAlike lib c c') (hc : c.Accepted lib selected) :
    c'.Accepted lib selected ↔ c'.Fits lib selected := by
  refine ⟨fun hc' => hc'.fits, fun hfits => ⟨?_, ?_, ?_, hfits⟩⟩
  · rw [← h.fields, ← h.exclude]
    exact hc.oneOf
  · rw [← h.selectedModelFields_eq]
    exact hc.selects
  · rw [← h.optionalFields]
    exact hc.converts

end

end

/-- **A call may be answered with the schema of another one exactly when the two differ in what the key tells, or the
options of the second are valid and the two are alike in what it does not.** -/
theorem memoSound_iff (lib : Library M O) (c c' : Call M O) : MemoSound lib c c' ↔
    (PrintedAlike lib c c' → ∀ selected, c.Accepted lib selected →
      c'.Fits lib selected ∧ AlikeBesides lib selected c c') := by
  constructor
  · intro h halike selected hc
    obtain ⟨s, f, hcall⟩ := createSchema_of_accepted (f := .empty) hc rfl
    obtain ⟨hbase, selected₁, hc₁, hgiven⟩ := accepted_of_createSchema (f := .empty) rfl hcall
    obtain rfl : selected₁ = selected := Except.ok.inj (hc₁.selects.symm.trans hc.selects)
    have hcached : createSchema lib f c' = .ok (s, f) := by
      have hboth : ¬ (orEmpty c'.fields ≠ [] ∧ orEmpty c'.exclude ≠ []) := by
        rw [← halike.fields, ← halike.exclude]
        exact hc.oneOf
      rw [createSchema, if_neg hboth, ← getKey_eq_iff.2 halike, get_of_createSchema hcall]
    obtain ⟨s', f', hcall', hequivalent⟩ := h [] [] s f rfl hcall hcached
    obtain ⟨hbase', selected', hc', hgiven'⟩ := accepted_of_createSchema (f := .empty) rfl hcall'
    obtain rfl : selected₁ = selected' :=
      Except.ok.inj (hc.selects.symm.trans (halike.selectedModelFields_eq.trans hc'.selects))
    exact ⟨hc'.fits, (equivalent_iff halike.optionalFields hc hc' hbase hbase' hgiven hgiven').1 hequivalent⟩
  · intro h before between s f hnone hcall hcached
    have hvalid := (@Factory.Valid.runCalls _ _ lib _ _ Factory.Valid.empty before).1
    obtain ⟨hvalid', hkept⟩ := (hvalid.createSchema hcall).1.runCalls between
    have halike : PrintedAlike lib c c' := getKey_eq_iff.1 <|
      hvalid'.key_eq _ _ s s (hkept _ s (get_of_createSchema hcall)) (get_of_createSchema hcached) rfl
    obtain ⟨hbase, selected, hc, hgiven⟩ := accepted_of_createSchema hnone hcall
    obtain ⟨hfits, hbesides⟩ := h halike selected hc
    have hc' := (halike.accepted_iff hc).2 hfits
    obtain ⟨s', f', hcall'⟩ := createSchema_of_accepted (f := .empty) hc' rfl
    obtain ⟨hbase', selected', hc₁, hgiven'⟩ := accepted_of_createSchema (f := .empty) rfl hcall'
    obtain rfl : selected = selected' := Except.ok.inj (hc'.selects.symm.trans hc₁.selects)
    exact ⟨s', f', hcall', (equivalent_iff halike.optionalFields hc hc' hbase hbase' hgiven hgiven').2 hbesides⟩

end

/-! ## Two base classes -/

/-- Models without fields, and objects that are their own text. -/
def textLibrary : Library Unit String where
  title text := text
  strip text := text
  str text := text
  upper text := some text
  strType := "str"
  enum name _ _ := name
  annotated type _ := type
  optional type := "Optional[" ++ type ++ "]"
  unwrapOptional type := type
  list type := "List[" ++ type ++ "]"
  isRequired info := info = "Ellipsis"
  modelName _ := "Page"
  getFields _ := []
  virtual _ := []
  repr text := text
  isPrintable _ := true
  validateOption _ _ := none
  builds _ _ := true

/-- `create_schema(Page, name="PageSchema", base_class=...)`, the base class with one method. -/
def pageCall (method : String) : Call Unit String where
  model := ()
  name := "PageSchema"
  fields := none
  exclude := none
  optionalFields := .none
  customFields := none
  baseClass := ⟨"website.schemas", .empty, Dict.empty.set method method, .empty⟩
  extraFieldsKwargs := none

/-- The second class gets the methods of the first one's base. -/
theorem base_class_not_in_key : ¬ ∀ c c' : Call Unit String, MemoSound textLibrary c c' := by
  intro h
  obtain ⟨s, f, hcall⟩ : ∃ s f, createSchema textLibrary .empty (pageCall "title") = .ok (s, f) := ⟨_, _, rfl⟩
  have hcached : createSchema textLibrary f (pageCall "slug") = .ok (s, f) := by
    have hkey : getKey textLibrary (pageCall "slug") = getKey textLibrary (pageCall "title") := rfl
    rw [createSchema, if_neg (fun h => h.1 rfl), hkey, get_of_createSchema hcall]
  obtain ⟨s', f', hcall', hequivalent⟩ := h (pageCall "title") (pageCall "slug") [] [] s f rfl hcall hcached
  have hmethods := hequivalent.methods "title"
  rw [(accepted_of_createSchema (f := .empty) rfl hcall).1, (accepted_of_createSchema (f := .empty) rfl hcall').1]
    at hmethods
  cases hmethods

end Totem.Schemas
