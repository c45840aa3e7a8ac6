import Mathlib.Data.Int.Notation
import Totem.Lib.Dict

/-!
# Totem.Schemas.Fields — the fields of a model as fields of a schema

`core/schemas/fields.py` and `core/schemas/validators.py`: a field of a model is converted to a type and a pydantic
field.  A Python object is opaque; what `typing`, `enum` and pydantic make of objects are parameters (`Typing`).

* `convertDbField_kind`: the options of a field change neither its type nor whether it is required.
-/

namespace Totem.Schemas

open Totem.Lib

/-- A value of a field info. -/
inductive Info (O : Type) where
  | none
  | str (s : String)
  | int (n : ℤ)
  | aliasChoices (names : List String)
  | value (o : O)
  deriving DecidableEq, Repr

/-- What is written for the default of a pydantic field: `...`, `None`, `PydanticUndefined` or a value. -/
inductive Default (O : Type) where
  | required
  | none
  | undefined
  | value (o : O)
  deriving DecidableEq, Repr

/-- The second half of a definition: an object that is given as it is, or a field that `pydantic.Field` makes. -/
inductive FieldInfo (O : Type) where
  | given (info : O)
  | field (default : Default O) (defaultFactory : Option O) (infos : Dict String (Info O))

/-! ## Validators -/

/-- What `convert_django_validator` finds for a validator. -/
inductive Validator (O : Type) where
  | regex (regex : O)
  | minValue (limit : O)
  | maxValue (limit : O)
  | minLength (limit : O)
  | maxLength (limit : O)
  | decimal (decimalPlaces maxDigits : O)
  | other (validator : O)

section

variable {O : Type}

def Validator.isMaxLength : Validator O → Bool
  | .maxLength _ => true
  | _ => false

/-- `convert_validator`: what goes to the field info, and the validator that stays one. -/
def convertValidator : Validator O → List (String × Info O) × Option O
  | .regex regex => ([("pattern", .value regex)], none)
  | .minValue limit => ([("ge", .value limit)], none)
  | .maxValue limit => ([("le", .value limit)], none)
  | .minLength limit => ([("min_length", .value limit)], none)
  | .maxLength limit => ([("max_length", .value limit)], none)
  | .decimal decimalPlaces maxDigits =>
    ([("decimal_places", .value decimalPlaces), ("max_digits", .value maxDigits)], none)
  | .other validator => ([], some validator)

/-- `infos.update(...)`. -/
def update (infos : Dict String (Info O)) (others : List (String × Info O)) : Dict String (Info O) :=
  others.foldl (fun d e => d.set e.1 e.2) infos

/-- `convert_validators`. -/
def convertValidators (validators : List (Validator O)) : List (String × Info O) × List O :=
  ((validators.foldl (fun d v => update d (convertValidator v).1) .empty).entries,
    validators.filterMap fun v => (convertValidator v).2)

end

/-! ## Fields -/

/-- `field.default`. -/
inductive FieldDefault (O : Type) where
  | notProvided
  | value (o : O)
  | callable (factory : O)

/-- What the conversion reads of a field: of `deconstruct()` the `blank` and the `null`. -/
structure FieldOptions (O : Type) where
  name : String
  attname : Option String := none
  verboseName : String := ""
  helpText : String := ""
  primaryKey : Bool := false
  blank : Bool := false
  null : Bool := false
  /-- The values with their labels. -/
  choices : List (O × String) := []
  default : FieldDefault O := .notProvided
  validators : List (Validator O) := []

/-- A field, by the converter that `convert_django_field` finds for it.  `plain` are the converters that have a type of
their own for the field. -/
inductive DbField (O : Type) where
  | plain (options : FieldOptions O) (pythonType : O)
  /-- `ComputedField` and `GeneratedField`. -/
  | derived (options : FieldOptions O) (outputField : DbField O)
  /-- `ForeignKey` and `OneToOneField`, with the primary key of the related model. -/
  | manyToOne (options : FieldOptions O) (pk : DbField O)
  | manyToMany (options : FieldOptions O)
  | array (options : FieldOptions O) (baseField : DbField O)
  /-- `ManyToOneRel` and `ManyToManyRel`. -/
  | reverse (options : FieldOptions O)
  /-- A class that no converter is registered for. -/
  | unknown (options : FieldOptions O)

def DbField.options {O : Type} : DbField O → FieldOptions O
  | .plain options _ => options
  | .derived options _ => options
  | .manyToOne options _ => options
  | .manyToMany options => options
  | .array options _ => options
  | .reverse options => options
  | .unknown options => options

/-- `isinstance(fld, (ManyToOneRel, ManyToManyRel))`. -/
def DbField.isReverse {O : Type} : DbField O → Bool
  | .reverse _ => true
  | _ => false

/-! ## The conversion -/

/-- The functions on strings, types and field infos that the conversion calls. -/
structure Typing (O : Type) where
  /-- `str.title`. -/
  title : String → String
  /-- `str.strip`. -/
  strip : String → String
  /-- `str`. -/
  str : O → String
  /-- `value.upper()`; `none` where the value has no such method. -/
  upper : O → Option String
  /-- `str` itself. -/
  strType : O
  /-- `Enum(name, named_choices, type=python_type)`. -/
  enum : String → List (String × O) → O → O
  /-- `Annotated[python_type, *validators]`, each one wrapped. -/
  annotated : O → List O → O
  /-- `Optional[python_type]`. -/
  optional : O → O
  /-- `_unwrap_optional`. -/
  unwrapOptional : O → O
  /-- `List[python_type]`. -/
  list : O → O
  /-- `field_info.is_required()` of what is given as a field info. -/
  isRequired : O → Bool

section

variable {O : Type} (lib : Typing O)

/-- `_get_enum_choices`. -/
def enumChoices (choices : List (O × String)) : Option (List (String × O)) :=
  choices.mapM fun choice => (lib.upper choice.1).map fun name =>
    (String.ofList (name.toList.map fun c => if c = '-' then '_' else c), choice.1)

/-- The type of a field with choices is their enumeration. -/
def choicesType (options : FieldOptions O) (pythonType : O) : Option O :=
  if options.choices = [] then some pythonType
  else (enumChoices lib options.choices).map fun named =>
    lib.enum (String.ofList ((lib.title options.name).toList.filter (· ≠ '_')) ++ "Enum") named pythonType

/-- `MaxLen` cannot be applied to an enumeration. -/
def choicesValidators (options : FieldOptions O) : List (Validator O) :=
  if options.choices = [] then options.validators else options.validators.filter fun v => !v.isMaxLength

def description (options : FieldOptions O) : String :=
  lib.strip (lib.title options.helpText) ++
    "\n".intercalate (options.choices.map fun choice => "* `" ++ lib.str choice.1 ++ "` - " ++ choice.2)

/-- The default of the field, and its `default_factory`. -/
def fieldDefault (options : FieldOptions O) (optional : Bool) : Default O × Option O :=
  match options.default with
  | .notProvided =>
      (if options.primaryKey || options.blank || options.null || optional then .none else .required, none)
  | .value o => (.value o, none)
  | .callable factory => (.undefined, some factory)

/-- `_get_pydantic_fieldinfo_from_field`; no info that is updated is called `default` or `default_factory`. -/
def getPydanticFieldinfoFromField (pythonType : O) (options : FieldOptions O) (optional : Bool)
    (extraKwargs : List (String × Info O)) : Option (O × FieldInfo O) :=
  (choicesType lib options pythonType).map fun pythonType =>
    let converted := convertValidators (choicesValidators options)
    let pythonType := if converted.2 = [] then pythonType else lib.annotated pythonType converted.2
    let pythonType := if options.primaryKey || options.null then lib.optional pythonType else pythonType
    let text := description lib options
    let title := if options.verboseName = "" then options.name else lib.title options.verboseName
    let infos := update .empty [("description", if text = "" then .none else .str text), ("title", .str title)]
    (pythonType, .field (fieldDefault options optional).1 (fieldDefault options optional).2
      (update (update infos converted.1) extraKwargs))

/-- The output field of a derived one, as `convert_derived_field` describes it. -/
def describe (options output : FieldOptions O) : FieldOptions O :=
  { output with
    name := options.name, attname := some options.name, verboseName := options.verboseName,
    helpText := options.helpText, null := true, blank := true }

/-- `convert_django_field`, of a field that has these options; `none` where it raises. -/
def convertDjangoField : DbField O → FieldOptions O → Bool → List (String × Info O) → Option (O × FieldInfo O)
  | .plain _ pythonType, options, optional, extraKwargs =>
      getPydanticFieldinfoFromField lib pythonType options optional extraKwargs
  | .derived _ outputField, options, optional, extraKwargs =>
      convertDjangoField outputField (describe options outputField.options) optional extraKwargs
  | .manyToOne _ pk, options, optional, extraKwargs =>
      (convertDjangoField pk pk.options false []).bind fun converted =>
        getPydanticFieldinfoFromField lib (lib.unwrapOptional converted.1) options optional
          ((convertValidators pk.options.validators).1 ++ extraKwargs)
  | .manyToMany _, options, optional, extraKwargs =>
      (getPydanticFieldinfoFromField lib lib.strType options optional extraKwargs).map fun converted =>
        (lib.list converted.1, converted.2)
  | .array _ baseField, options, optional, extraKwargs =>
      (convertDjangoField baseField baseField.options false []).bind fun converted =>
        getPydanticFieldinfoFromField lib (lib.list converted.1) options optional extraKwargs
  | .reverse _, _, _, _ => none
  | .unknown _, _, _, _ => none

/-- `convert_db_field`. -/
def convertDbField (field : DbField O) (optional : Bool) (extraKwargs : List (String × Info O)) :
    Option (O × FieldInfo O) :=
  convertDjangoField lib field field.options optional extraKwargs

/-! ## What the options of a field change -/

/-- `field_info.is_required()`. -/
def FieldInfo.isRequired : FieldInfo O → Bool
  | .given info => lib.isRequired info
  | .field .required defaultFactory _ => defaultFactory.isNone
  | .field .undefined defaultFactory _ => defaultFactory.isNone
  | .field _ _ _ => false

/-- The type of a field, and whether it is required. -/
def kind (x : O × FieldInfo O) : O × Bool := (x.1, x.2.isRequired lib)

theorem isRequired_field (default : Default O) (defaultFactory : Option O) (infos infos' : Dict String (Info O)) :
    (FieldInfo.field default defaultFactory infos).isRequired lib =
      (FieldInfo.field default defaultFactory infos').isRequired lib := by
  cases default <;> rfl

theorem getPydanticFieldinfo_kind (pythonType : O) (options : FieldOptions O) (optional : Bool)
    (extra extra' : List (String × Info O)) :
    (getPydanticFieldinfoFromField lib pythonType options optional extra).map (kind lib) =
      (getPydanticFieldinfoFromField lib pythonType options optional extra').map (kind lib) := by
  rw [getPydanticFieldinfoFromField, getPydanticFieldinfoFromField, Option.map_map, Option.map_map]
  refine congrArg (fun f => (choicesType lib options pythonType).map f) (funext fun type => ?_)
  exact congrArg (Prod.mk _) (isRequired_field lib _ _ _ _)

/-- **What a field is given besides changes neither its type nor whether it is required.** -/
theorem convertDjangoField_kind (field : DbField O) (options : FieldOptions O) (optional : Bool)
    (extra extra' : List (String × Info O)) :
    (convertDjangoField lib field options optional extra).map (kind lib) =
      (convertDjangoField lib field options optional extra').map (kind lib) := by
  induction field generalizing options with
  | plain _ pythonType => exact getPydanticFieldinfo_kind lib pythonType options optional extra extra'
  | derived _ outputField ih => exact ih (describe options outputField.options)
  | manyToOne _ pk =>
    simp only [convertDjangoField, Option.map_bind]
    refine Option.bind_congr fun converted _ => ?_
    exact getPydanticFieldinfo_kind lib (lib.unwrapOptional converted.1) options optional _ _
  | manyToMany _ =>
    have hkind := getPydanticFieldinfo_kind lib lib.strType options optional extra extra'
    have hlist := congrArg (Option.map fun k : O × Bool => (lib.list k.1, k.2)) hkind
    rw [Option.map_map, Option.map_map] at hlist
    rw [convertDjangoField, convertDjangoField, Option.map_map, Option.map_map]
    exact hlist
  | array _ baseField =>
    simp only [convertDjangoField, Option.map_bind]
    refine Option.bind_congr fun converted _ => ?_
    exact getPydanticFieldinfo_kind lib (lib.list converted.1) options optional extra extra'
  | reverse _ => rfl
  | unknown _ => rfl

theorem convertDbField_kind (field : DbField O) (optional : Bool) (extra extra' : List (String × Info O)) :
    (convertDbField lib field optional extra).map (kind lib) =
      (convertDbField lib field optional extra').map (kind lib) :=
  convertDjangoField_kind lib field field.options optional extra extra'

end

end Totem.Schemas
