import Mathlib.Data.Rat.Defs
import Mathlib.Data.List.Dedup

/-!
# Totem.Website.Theme — themes and the schemas of their options

`website/theme.py`: a theme is a class, registered under its id by the metaclass, which refuses an option without a
default.  A theme validates the options stored beside it with its `option_schema`.

* `register`: the checks of `ThemeMetaclass`; what they establish is carried by `Theme` and `Registry`.
* `OptionSchema.plain_errors_nil`: a schema without validators of its own accepts no options, if none is required.
* `getTheme_register`: a class is registered under its id, and no other id is touched.
-/

namespace Totem.Website

variable {V : Type}

/-! ## Options -/

/-- A JSON value as python has it; what lists and dicts hold is seen by the option schemas only. -/
inductive Json (V : Type)
  | null
  | bool (b : Bool)
  | number (q : ℚ)
  | string (s : String)
  | array (values : List V)
  | object (entries : List (String × V))

/-- `bool(value)`. -/
def Json.isTruthy : Json V → Bool
  | .null => false
  | .bool b => b
  | .number q => decide (q ≠ 0)
  | .string s => decide (s ≠ "")
  | .array values => !values.isEmpty
  | .object entries => !entries.isEmpty

/-- A field of an option schema. -/
structure OptionField where
  name : String
  required : Bool

/-- An error of pydantic. -/
structure FieldError where
  loc : List String
  msg : String
  deriving DecidableEq

/-- A model of pydantic. -/
structure OptionSchema (V : Type) where
  /-- `model_fields`. -/
  fields : List OptionField
  /-- The errors of `option_schema(**entries)`, whose validators may look at all options together, and at the
  defaults of those that are not given. -/
  errors : List (String × V) → List FieldError

/-- A field, and what its type says against a value. -/
structure TypedField (V : Type) extends OptionField where
  check : V → List (List String × String)

/-- A model without validators of its own; `forbidExtra` is `extra="forbid"`.  The errors of the fields come first. -/
def OptionSchema.plain (fields : List (TypedField V)) (forbidExtra : Bool) : OptionSchema V where
  fields := fields.map TypedField.toOptionField
  errors entries :=
    fields.flatMap (fun field =>
      match entries.lookup field.name with
      | some value => (field.check value).map fun e => FieldError.mk (field.name :: e.1) e.2
      | none => if field.required = true then [⟨[field.name], "Field required"⟩] else [])
    ++ if forbidExtra = true then
      (entries.filter fun entry => decide (entry.1 ∉ fields.map fun field => field.name)).map fun entry =>
        FieldError.mk [entry.1] "Extra inputs are not permitted"
      else []

/-- What `validate_options` raises: `**` of a value that is not a mapping, or the errors of pydantic. -/
inductive OptionsError
  | typeError
  | invalid (errors : List FieldError)
  deriving DecidableEq

/-! ## Themes -/

/-- A theme: the instance the metaclass registers. -/
structure Theme (V : Type) where
  id : String
  title : String
  templateDir : String
  layouts : List String
  defaultLayout : String
  optionSchema : OptionSchema V
  defaultLayout_mem : defaultLayout ∈ layouts
  /-- Every option has a default. -/
  optional : ∀ field ∈ optionSchema.fields, field.required = false

/-- `validate_options`. -/
def Theme.validateOptions (theme : Theme V) (rawOptions : Json V) : Except OptionsError Unit :=
  let check := fun entries =>
    let errors := theme.optionSchema.errors entries
    if errors = [] then .ok () else .error (.invalid errors)
  if rawOptions.isTruthy = false then check []
  else
    match rawOptions with
    | .object entries => check entries
    | _ => .error .typeError

/-- `_REGISTRY`, in the order of registration. -/
structure Registry (V : Type) where
  themes : List (Theme V)
  ids_nodup : (themes.map Theme.id).Nodup

def Registry.empty : Registry V := ⟨[], List.nodup_nil⟩

def getTheme (reg : Registry V) (themeId : String) : Option (Theme V) :=
  reg.themes.find? fun theme => decide (theme.id = themeId)

/-- `get_themes`: ordered by id. -/
def getThemes (reg : Registry V) : List (Theme V) := reg.themes.mergeSort fun a b => decide (a.id ≤ b.id)

/-! ## Registration -/

/-- `LAYOUTS`, by id. -/
def layoutIds : List String := ["full-width", "landing", "narrow", "sidebar-left", "sidebar-right"]

/-- The attributes of a class whose metaclass is `ThemeMetaclass`. -/
structure ThemeClass (V : Type) where
  id : Option String
  title : Option String
  templateDir : Option String
  layouts : List String
  defaultLayout : String
  optionSchema : OptionSchema V

def sortIds (ids : List String) : List String := ids.dedup.mergeSort fun a b => decide (a ≤ b)

/-- `template_dir.rstrip("/").endswith(f"/{id}")`. -/
def endsWithId (templateDir id : String) : Bool :=
  ("/" ++ id).toList.isSuffixOf (templateDir.toList.reverse.dropWhile (· = '/')).reverse

/-- `ThemeMetaclass.__new__`; `repr` prints a string as python's `!r` does. -/
def register (repr : String → String) (reg : Registry V) (cls : ThemeClass V) : Except String (Registry V) :=
  match cls.id with
  -- the abstract base
  | none => .ok reg
  | some id =>
      let title := cls.title.getD ""
      let templateDir := cls.templateDir.getD ""
      let unknown := cls.layouts.filter fun layout => decide (layout ∉ layoutIds)
      let required := cls.optionSchema.fields.filter OptionField.required
      if title = "" then
        .error ("Theme " ++ repr id ++ " must have a title: it is what the editor shows in the list of themes.")
      else if hnew : id ∈ reg.themes.map Theme.id then .error (id ++ " is a theme already defined.")
      else if templateDir = "" then .error ("Theme " ++ repr id ++ " must declare a `template_dir`.")
      else if endsWithId templateDir id = false then
        .error ("Theme " ++ repr id ++ " has template_dir " ++ repr templateDir ++ ", which must end with '/" ++ id
          ++ "' so that two themes cannot resolve to the same templates.")
      else if unknown ≠ [] then
        .error ("Theme " ++ repr id ++ " declares layouts not in the shared vocabulary: "
          ++ ", ".intercalate (sortIds unknown) ++ ". Known layouts: " ++ ", ".intercalate layoutIds ++ ".")
      else if hdefault : cls.defaultLayout ∉ cls.layouts then
        .error ("Theme " ++ repr id ++ " has default_layout " ++ repr cls.defaultLayout
          ++ ", which is not among the layouts it implements (" ++ ", ".intercalate (sortIds cls.layouts)
          ++ "). It is the fallback every unimplemented layout lands on, so it must exist.")
      else if hrequired : required ≠ [] then
        .error ("Theme " ++ repr id ++ " declares option(s) with no default: "
          ++ ", ".intercalate (required.map OptionField.name)
          ++ ". Every option must have one, so that the read path can always fall back to `option_schema()`.")
      else
        .ok {
          themes := reg.themes ++ [{
            id := id
            title := title
            templateDir := templateDir
            layouts := cls.layouts
            defaultLayout := cls.defaultLayout
            optionSchema := cls.optionSchema
            defaultLayout_mem := not_not.1 hdefault
            optional := fun field hfield => by
              simpa using List.filter_eq_nil_iff.1 (not_not.1 hrequired) field hfield }]
          ids_nodup := by
            rw [List.map_append, List.map_singleton]
            exact List.Nodup.append reg.ids_nodup (List.nodup_singleton _) (by simpa using hnew) }

/-! ## What the checks give -/

/-- No options are options of every registered theme: `option_schema()` does not raise. -/
def Registry.DefaultsValidate (reg : Registry V) : Prop :=
  ∀ theme ∈ reg.themes, theme.optionSchema.errors [] = []

instance (reg : Registry V) : Decidable reg.DefaultsValidate :=
  inferInstanceAs (Decidable (∀ theme ∈ reg.themes, _))

/-- Without required fields, and without validators, no options have no errors. -/
theorem OptionSchema.plain_errors_nil {fields : List (TypedField V)} (forbidExtra : Bool)
    (h : ∀ field ∈ fields, field.required = false) : (OptionSchema.plain fields forbidExtra).errors [] = [] := by
  have hfields : fields.flatMap (fun field =>
      if field.required = true then [FieldError.mk [field.name] "Field required"] else []) = [] := by
    rw [List.flatMap_eq_nil_iff]
    intro field hfield
    rw [if_neg (by simp [h field hfield])]
  simp [OptionSchema.plain, hfields]

theorem mem_of_getTheme {reg : Registry V} {themeId : String} {theme : Theme V} (h : getTheme reg themeId = some theme) :
    theme ∈ reg.themes := List.mem_of_find?_eq_some h

theorem Theme.validateOptions_empty {theme : Theme V} (h : theme.optionSchema.errors [] = []) :
    theme.validateOptions (.object []) = .ok () := by
  unfold Theme.validateOptions
  simp [Json.isTruthy, h]

/-- **A class is registered under its id**, and the other ids are left as they are. -/
theorem getTheme_register {repr : String → String} {reg reg' : Registry V} {cls : ThemeClass V} {id : String}
    (hid : cls.id = some id) (h : register repr reg cls = .ok reg') :
    (getTheme reg id = none ∧ (getTheme reg' id).map Theme.optionSchema = some cls.optionSchema) ∧
      ∀ themeId, themeId ≠ id → getTheme reg' themeId = getTheme reg themeId := by
  unfold register at h
  simp only [hid] at h
  split_ifs at h with htitle hnew hdir hends hunknown hdefault hrequired
  obtain rfl := Except.ok.inj h
  have hnone : getTheme reg id = none := by
    rw [getTheme, List.find?_eq_none]
    intro theme htheme heq
    exact hnew (List.mem_map.2 ⟨theme, htheme, by simpa using heq⟩)
  refine ⟨⟨hnone, ?_⟩, fun themeId hne => ?_⟩
  · unfold getTheme at hnone
    simp only [getTheme, List.find?_append, hnone, List.find?_cons, decide_true, Option.none_or, Option.map_some]
  · have hne' : ¬ id = themeId := fun heq => hne heq.symm
    simp only [getTheme, List.find?_append, List.find?_cons, hne', decide_false, List.find?_nil, Option.or_none]

end Totem.Website
