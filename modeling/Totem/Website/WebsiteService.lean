import Totem.Services.Relations
import Totem.Website.Theme

/-!
# Totem.Website.WebsiteService — the theme of the website and its options

`WebsiteService` and `WebsiteQuerySet`: an update takes a theme, options, both or neither.  The service validates the
options against the theme of the payload or of the record; the queryset drops them when the theme is written alone.

* `Coherent`: the theme of a record is registered, and its options are options of that theme.
* `coherent_assign`: what an update writes to a record it has validated.
* `theme_coherent`: over any run of updates.
-/

namespace Totem.Website

open Totem.Lib Totem.Services

/-! ## Payloads and records -/

/-- The value of a column that is no relation. -/
inductive Plain (V : Type)
  | text (s : Option String)
  | json (value : Json V)

/-- The fields set on an update schema. -/
structure WebsiteUpdate (Raw V : Type) where
  name : Option (Option String)
  headline : Option (Option String)
  metaAuthors : Option (Option String)
  metaDescription : Option (Option String)
  menu : Option (Option Raw)
  homepage : Option (Option Raw)
  coverMedia : Option (Option Raw)
  footer : Option (Option String)
  sideBarContent : Option (Option String)
  theme : Option (Option String)
  themeOptions : Option (Json V)

variable {Model User Raw V Pk R Rel J Rel' J' : Type}

def WebsiteUpdate.fields (payload : WebsiteUpdate Raw V) : List (String × Option (Input Raw (Plain V))) :=
  [("name", payload.name.map fun s => .plain (.text s)),
    ("headline", payload.headline.map fun s => .plain (.text s)),
    ("meta_authors", payload.metaAuthors.map fun s => .plain (.text s)),
    ("meta_description", payload.metaDescription.map fun s => .plain (.text s)),
    ("menu", payload.menu.map .key),
    ("homepage", payload.homepage.map .key),
    ("cover_media", payload.coverMedia.map .key),
    ("footer", payload.footer.map fun s => .plain (.text s)),
    ("side_bar_content", payload.sideBarContent.map fun s => .plain (.text s)),
    ("theme", payload.theme.map fun s => .plain (.text s)),
    ("theme_options", payload.themeOptions.map fun value => .plain (.json value))]

/-- `_input_values` with `exclude_unset`. -/
def WebsiteUpdate.inputValues (payload : WebsiteUpdate Raw V) : List (String × Input Raw (Plain V)) :=
  payload.fields.filterMap fun field => field.2.map fun value => (field.1, value)

/-- A row of the table; `columns` are those the theme has nothing to do with, by name. -/
structure WebsiteRow (R V : Type) where
  id : String
  theme : String
  themeOptions : Json V
  columns : String → Internal R (Plain V)

/-- The values of an update in internal form. -/
abbrev Values (R V : Type) := List (String × Internal R (Plain V))

/-- `WebsiteQuerySet.update`: the values it passes on. -/
def WebsiteQuerySet.values (kwargs : Values R V) : Values R V :=
  if (kwargs.lookup "theme").isSome = true ∧ kwargs.lookup "theme_options" = none then
    kwargs ++ [("theme_options", .plain (.json (.object [])))]
  else kwargs

/-- What `QuerySet.update` writes to a row. -/
def WebsiteRow.assign (kwargs : Values R V) (w : WebsiteRow R V) : WebsiteRow R V :=
  let values := WebsiteQuerySet.values kwargs
  { id := w.id
    theme :=
      match values.lookup "theme" with
      | some (.plain (.text (some theme))) => theme
      | _ => w.theme
    themeOptions :=
      match values.lookup "theme_options" with
      | some (.plain (.json options)) => options
      | _ => w.themeOptions
    columns := fun name => (values.lookup name).getD (w.columns name) }

/-! ## Checks of the values -/

/-- What a text field of the model says against a value. -/
structure TextField where
  maxLength : Option ℕ
  null : Bool
  blank : Bool
  validators : String → List String

/-- `run_validators`, then `validate`. -/
def TextField.errors (field : TextField) : Option String → List String
  | none =>
      if field.null = false then ["This field cannot be null."]
      else if field.blank = false then ["This field cannot be blank."] else []
  | some value =>
      if value = "" then (if field.blank = false then ["This field cannot be blank."] else [])
      else (match field.maxLength with
        | some limit =>
            if limit < value.length then
              ["Ensure this value has at most " ++ toString limit ++ " characters (it has " ++ toString value.length
                ++ ")."]
            else []
        | none => []) ++ field.validators value

/-- The text fields of the model; `html` is the validator of `HtmlField(allow_widget=True)`. -/
def textField (html : String → List String) : String → Option TextField
  | "name" => some ⟨some 256, false, false, fun _ => []⟩
  | "headline" => some ⟨some 256, false, false, fun _ => []⟩
  | "meta_authors" => some ⟨some 256, true, true, fun _ => []⟩
  | "meta_description" => some ⟨none, true, true, fun _ => []⟩
  | "footer" => some ⟨none, true, true, html⟩
  | "side_bar_content" => some ⟨none, true, true, html⟩
  | "theme" => some ⟨some 64, false, false, fun _ => []⟩
  | _ => none

/-- The checks of one value in `to_internal_values`; the relations are nullable.  `str` of the error is the list of
its messages as python prints it. -/
def fieldErrors (repr : String → String) (html : String → List String) (fname : String) :
    Input Raw (Plain V) → List String
  | .plain (.text value) =>
      match textField html fname with
      | none => []
      | some field =>
          let errors := field.errors value
          if errors = [] then [] else ["[" ++ ", ".intercalate (errors.map repr) ++ "]"]
  | .plain (.json .null) => ["[" ++ repr "This field cannot be null." ++ "]"]
  | .plain (.json _) => []
  | .key _ => []
  | .keys _ => []

/-! ## The service -/

/-- What `validate_data` raises. -/
inductive Refusal
  | invalid (key : String) (messages : List String)
  /-- Options that are not a mapping. -/
  | typeError
  deriving DecidableEq

/-- How an update ends. -/
inductive Outcome
  /-- `invalid_data`, by the index of the payload and by field. -/
  | invalidData (errors : List (ℕ × List (String × List String)))
  /-- `update_invalid_data`, by primary key. -/
  | refused (errors : List (String × Refusal))
  | typeError
  | updated (count : ℕ)
  deriving DecidableEq

namespace WebsiteService

/-- What the service is set up with: the registered themes, the printing of strings, the validator of the html fields
and the mimetype of a media. -/
structure Setup (R V : Type) where
  registry : Registry V
  repr : String → String
  html : String → List String
  mimetype : R → Option String

variable (setup : Setup R V)

/-- `Website.validate_cover_media`. -/
def validateCoverMedia : Option (Internal R (Plain V)) → Option String
  | some (.record media) =>
      let mimetype := (setup.mimetype media).getD ""
      if "image/".toList.isPrefixOf mimetype.toList then none
      else some ("The cover must be an image, not " ++ (if mimetype = "" then "an unknown type" else mimetype) ++ ".")
  | _ => none

/-- `data.get("theme") or instance.theme`. -/
def themeId (data : Values R V) (record : WebsiteRow R V) : String :=
  match data.lookup "theme" with
  | some (.plain (.text (some theme))) => if theme = "" then record.theme else theme
  | _ => record.theme

/-- `', '.join(theme.id for theme in get_themes()) or 'none'`. -/
def available : String :=
  let ids := ", ".intercalate ((getThemes setup.registry).map Theme.id)
  if ids = "" then "none" else ids

/-- An error of pydantic as the service words it. -/
def optionMessage (error : FieldError) : String :=
  let loc := ".".intercalate error.loc
  (if loc = "" then "__all__" else loc) ++ ": " ++ error.msg

/-- `validate_data`, on one record. -/
def validateData (data : Values R V) (record : WebsiteRow R V) : Option Refusal :=
  match validateCoverMedia setup (data.lookup "cover_media") with
  | some message => some (.invalid "cover_media" [message])
  | none =>
      let theme := getTheme setup.registry (themeId data record)
      if (data.lookup "theme").isSome = true ∧ theme.isNone = true then
        some (.invalid "theme" [setup.repr (themeId data record) ++ " is not a known theme. Available: "
          ++ available setup ++ "."])
      else
        match data.lookup "theme_options" with
        | some (.plain (.json options)) =>
            match theme with
            | none => some (.invalid "theme" ["The current theme " ++ setup.repr (themeId data record)
                ++ " no longer exists: select a theme before setting its options."])
            | some theme =>
                match theme.validateOptions options with
                | .ok () => none
                | .error .typeError => some .typeError
                | .error (.invalid errors) => some (.invalid "theme_options" (errors.map optionMessage))
        | _ => none

variable [DecidableEq Model] [DecidableEq Pk] [DecidableEq Raw]

/-- The rows of the table. -/
structure Websites (R V : Type) where
  rows : List (WebsiteRow R V)
  id_nodup : (rows.map WebsiteRow.id).Nodup

/-- The table as the queries see it, with what the rows lead to. -/
def Websites.store (table : Websites R V) (joins : Joins (WebsiteRow R V) Rel J) :
    Store String (WebsiteRow R V) Rel J where
  pk := WebsiteRow.id
  table := table.rows
  joins := joins
  pk_nodup := table.id_nodup

/-- One update, by some user, with the rest of the database as it is by then. -/
structure Request (Model User Raw V Pk R Rel J Rel' J' : Type) where
  model : Model
  env : Environment Model User (WebsiteRow R V) Rel J
  joins : Joins (WebsiteRow R V) Rel J
  filters : Option (Cond (WebsiteRow R V) Rel J)
  relatedEnv : Environment Model User R Rel' J'
  related : String → Related Model User Pk R Rel' J' Raw
  str : Raw → String
  payload : WebsiteUpdate Raw V

/-- `to_internal_values` of a payload. -/
def internalValues (request : Request Model User Raw V Pk R Rel J Rel' J') :
    Except (List (ℕ × List (String × List String))) (List (Values R V)) :=
  toInternalValues request.relatedEnv request.related (fieldErrors setup.repr setup.html) request.str
    [request.payload.inputValues]

/-- The transaction of an update. -/
def atomicUpdate (table : Websites R V) (request : Request Model User Raw V Pk R Rel J Rel' J') (data : Values R V) :
    Except (List (String × Refusal)) (ℕ × List (WebsiteRow R V)) :=
  Services.updateAtomic (table.store request.joins) request.env request.model request.filters (validateData setup data)
    (WebsiteRow.assign data)

omit [DecidableEq Pk] [DecidableEq Raw] in
/-- An update keeps the keys. -/
theorem atomicUpdate_ids {setup : Setup R V} {table : Websites R V}
    {request : Request Model User Raw V Pk R Rel J Rel' J'} {data : Values R V} {n : ℕ} {rows : List (WebsiteRow R V)}
    (h : atomicUpdate setup table request data = .ok (n, rows)) :
    rows.map WebsiteRow.id = table.rows.map WebsiteRow.id := by
  obtain ⟨-, rfl⟩ := updateAtomic_ok h
  rw [List.map_map]
  refine List.map_congr_left fun w _ => ?_
  rw [Function.comp_apply]
  split_ifs <;> rfl

/-- `update`: how it ends, and the table it leaves. -/
def update (table : Websites R V) (request : Request Model User Raw V Pk R Rel J Rel' J') :
    Outcome × Websites R V :=
  match internalValues setup request with
  | .error errors => (.invalidData errors, table)
  | .ok data =>
      let values := data.headD []
      match h : atomicUpdate setup table request values with
      -- what is raised rolls the transaction back; a `TypeError` is not collected
      | .error errors => (if errors.any fun e => decide (e.2 = .typeError) then .typeError else .refused errors, table)
      | .ok (count, rows) => (.updated count, ⟨rows, atomicUpdate_ids h ▸ table.id_nodup⟩)

/-- A run of updates. -/
def run (table : Websites R V) (requests : List (Request Model User Raw V Pk R Rel J Rel' J')) : Websites R V :=
  requests.foldl (fun table request => (update setup table request).2) table

end WebsiteService

/-! ## The values that reach the row -/

/-- Named values, those left out dropped, are looked up by name. -/
theorem lookup_given {α : Type} {fields : List (String × Option α)} (h : (fields.map Prod.fst).Nodup) (name : String) :
    (fields.filterMap fun field => field.2.map fun value => (field.1, value)).lookup name
      = (fields.lookup name).join := by
  induction fields with
  | nil => rfl
  | cons field fields ih =>
    obtain ⟨n, value⟩ := field
    obtain ⟨hnot, hnodup⟩ := List.nodup_cons.1 h
    have hrest := ih hnodup
    by_cases hn : name = n
    · subst hn
      cases value with
      | none =>
        have hnone : fields.lookup name = none := by
          rw [List.lookup_eq_none_iff]
          intro field hfield
          rw [bne_iff_ne]
          rintro rfl
          exact hnot (List.mem_map.2 ⟨field, hfield, rfl⟩)
        rw [hnone] at hrest
        simpa using hrest
      | some value => simp
    · have hbeq : (name == n) = false := beq_eq_false_iff_ne.2 hn
      cases value with
      | none => simpa [List.lookup_cons, hbeq] using hrest
      | some value => simpa [List.lookup_cons, hbeq] using hrest

/-- The values carry the theme and the options of a payload, the theme a name. -/
structure Carries (payload : WebsiteUpdate Raw V) (values : Values R V) : Prop where
  theme : values.lookup "theme" = payload.theme.map fun s => .plain (.text s)
  themeOptions : values.lookup "theme_options" = payload.themeOptions.map fun options => .plain (.json options)
  named : ∀ s, payload.theme = some s → ∃ theme, s = some theme ∧ theme ≠ ""

theorem WebsiteUpdate.lookup_inputValues (payload : WebsiteUpdate Raw V) (name : String) :
    payload.inputValues.lookup name = (payload.fields.lookup name).join :=
  lookup_given (by simp [WebsiteUpdate.fields]) name

/-- A theme is not null and not blank. -/
theorem named_of_fieldErrors {repr : String → String} {html : String → List String} {s : Option String}
    (h : fieldErrors repr html "theme" (.plain (.text s) : Input Raw (Plain V)) = []) :
    ∃ theme, s = some theme ∧ theme ≠ "" := by
  cases s with
  | none => simp [fieldErrors, textField, TextField.errors] at h
  | some theme =>
    refine ⟨theme, rfl, ?_⟩
    rintro rfl
    simp [fieldErrors, textField, TextField.errors] at h

section

variable [DecidableEq Model] [DecidableEq Pk] [DecidableEq Raw] {setup : WebsiteService.Setup R V}

/-- **What `to_internal_values` passes on.** -/
theorem carries_of_internalValues {request : WebsiteService.Request Model User Raw V Pk R Rel J Rel' J'}
    {data : List (Values R V)} (h : WebsiteService.internalValues setup request = .ok data) :
    Carries request.payload (data.headD []) := by
  obtain ⟨hchecks, values, rfl, hlookup⟩ := toInternalValues_single h
  have htheme := request.payload.lookup_inputValues "theme"
  have hoptions := request.payload.lookup_inputValues "theme_options"
  simp only [WebsiteUpdate.fields, List.lookup_cons] at htheme hoptions
  refine ⟨?_, ?_, fun s hs => ?_⟩
  · cases hpayload : request.payload.theme with
    | none => exact (hlookup "theme").1 (by simpa [hpayload] using htheme)
    | some s => exact (hlookup "theme").2 _ (by simpa [hpayload] using htheme)
  · cases hpayload : request.payload.themeOptions with
    | none => exact (hlookup "theme_options").1 (by simpa [hpayload] using hoptions)
    | some options => exact (hlookup "theme_options").2 _ (by simpa [hpayload] using hoptions)
  · have hmem : ("theme", (.plain (.text s) : Input Raw (Plain V))) ∈ request.payload.inputValues :=
      List.mem_filterMap.2 ⟨("theme", some (.plain (.text s))), by simp [WebsiteUpdate.fields, hs], rfl⟩
    exact named_of_fieldErrors (hchecks _ hmem)

end

/-! ## A record that is written -/

/-- The theme of a record is registered, and its options validate against it. -/
def Coherent (reg : Registry V) (w : WebsiteRow R V) : Prop :=
  ∃ theme, getTheme reg w.theme = some theme ∧ theme.validateOptions w.themeOptions = .ok ()

section

variable {setup : WebsiteService.Setup R V} {payload : WebsiteUpdate Raw V} {values : Values R V} {w : WebsiteRow R V}

/-- The theme an update validates against is the one it leaves. -/
theorem assign_theme (h : Carries payload values) : (w.assign values).theme = WebsiteService.themeId values w := by
  have hlookup : (WebsiteQuerySet.values values).lookup "theme" = values.lookup "theme" := by
    unfold WebsiteQuerySet.values
    split_ifs with hset
    · obtain ⟨v, hv⟩ := Option.isSome_iff_exists.1 hset.1
      rw [List.lookup_append, hv, Option.some_or]
    · rfl
  unfold WebsiteRow.assign WebsiteService.themeId
  simp only [hlookup, h.theme]
  cases hpayload : payload.theme with
  | none => rfl
  | some s =>
    obtain ⟨theme, rfl, hne⟩ := h.named s hpayload
    simp [hne]

/-- The options an update leaves: those given, none with a theme alone, else those of the record. -/
theorem assign_themeOptions (h : Carries payload values) :
    (w.assign values).themeOptions = payload.themeOptions.getD
      (if payload.theme.isSome = true then .object [] else w.themeOptions) := by
  unfold WebsiteRow.assign WebsiteQuerySet.values
  rw [h.theme, h.themeOptions]
  cases hoptions : payload.themeOptions with
  | some options =>
    have hlookup := h.themeOptions
    rw [hoptions] at hlookup
    simp [hlookup]
  | none =>
    have hlookup := h.themeOptions
    rw [hoptions] at hlookup
    cases htheme : payload.theme with
    | none => simp [hlookup]
    | some s => simp [List.lookup_append, hlookup]

/-- The cover is checked first. -/
theorem cover_of_validateData (hvalid : WebsiteService.validateData setup values w = none) :
    WebsiteService.validateCoverMedia setup (values.lookup "cover_media") = none := by
  unfold WebsiteService.validateData at hvalid
  cases hcover : WebsiteService.validateCoverMedia setup (values.lookup "cover_media") with
  | some message => simp [hcover] at hvalid
  | none => rfl

/-- A theme of the payload is registered, or the record is refused. -/
theorem getTheme_of_validateData (h : Carries payload values)
    (hvalid : WebsiteService.validateData setup values w = none)
    (htheme : payload.theme.isSome = true) :
    ∃ theme, getTheme setup.registry (WebsiteService.themeId values w) = some theme := by
  rw [← Option.isSome_iff_exists]
  by_contra hnone
  have hset : (values.lookup "theme").isSome = true := by rw [h.theme, Option.isSome_map, htheme]
  have hisNone : (getTheme setup.registry (WebsiteService.themeId values w)).isNone = true := by simpa using hnone
  have hcover := cover_of_validateData hvalid
  unfold WebsiteService.validateData at hvalid
  simp only [hcover] at hvalid
  rw [if_pos ⟨hset, hisNone⟩] at hvalid
  cases hvalid

/-- Options of the payload validate against that theme, or the record is refused. -/
theorem validateOptions_of_validateData (h : Carries payload values)
    (hvalid : WebsiteService.validateData setup values w = none) {options : Json V}
    (hoptions : payload.themeOptions = some options) :
    ∃ theme, getTheme setup.registry (WebsiteService.themeId values w) = some theme ∧
      theme.validateOptions options = .ok () := by
  have hlookup := h.themeOptions
  rw [hoptions] at hlookup
  have hcover := cover_of_validateData hvalid
  unfold WebsiteService.validateData at hvalid
  simp only [hcover, hlookup, Option.map_some] at hvalid
  split_ifs at hvalid
  cases htheme : getTheme setup.registry (WebsiteService.themeId values w) with
  | none => simp [htheme] at hvalid
  | some theme =>
    refine ⟨theme, rfl, ?_⟩
    cases hresult : theme.validateOptions options with
    | ok u => rfl
    | error e => cases e <;> simp [htheme, hresult] at hvalid

/-- **A record an update has validated stays coherent**: the options are those of the theme it leaves. -/
theorem coherent_assign (hdefaults : setup.registry.DefaultsValidate) (h : Carries payload values)
    (hw : Coherent setup.registry w)
    (hvalid : WebsiteService.validateData setup values w = none) : Coherent setup.registry (w.assign values) := by
  unfold Coherent
  rw [assign_theme h, assign_themeOptions h]
  cases hoptions : payload.themeOptions with
  | some options => exact validateOptions_of_validateData h hvalid hoptions
  | none =>
    cases htheme : payload.theme with
    | some s =>
      obtain ⟨theme, hregistered⟩ := getTheme_of_validateData h hvalid (by rw [htheme]; rfl)
      exact ⟨theme, hregistered, Theme.validateOptions_empty (hdefaults theme (mem_of_getTheme hregistered))⟩
    | none =>
      have hid : WebsiteService.themeId values w = w.theme := by
        simp [WebsiteService.themeId, h.theme, htheme]
      rw [hid]
      exact hw

/-- **A theme written alone leaves no options.** -/
theorem themeOptions_of_switch (h : Carries payload values) (hoptions : payload.themeOptions = none)
    (hswitch : w.theme ≠ (w.assign values).theme) : (w.assign values).themeOptions = .object [] := by
  rw [assign_themeOptions h, hoptions]
  cases htheme : payload.theme with
  | some s => rfl
  | none =>
    refine absurd ?_ hswitch
    rw [assign_theme h]
    simp [WebsiteService.themeId, h.theme, htheme]

end

/-! ## Runs of updates -/

namespace WebsiteService

variable [DecidableEq Model] [DecidableEq Pk] [DecidableEq Raw] {setup : Setup R V} {table : Websites R V}
  {request : Request Model User Raw V Pk R Rel J Rel' J'}

/-- **An update, by cases**: it leaves the table as it is, or it writes to records it has validated. -/
theorem update_cases (setup : Setup R V) (table : Websites R V)
    (request : Request Model User Raw V Pk R Rel J Rel' J') :
    (update setup table request).2 = table ∨
      (∃ n, (update setup table request).1 = .updated n) ∧ ∃ values, Carries request.payload values ∧
        ∀ w' ∈ (update setup table request).2.rows, ∃ w ∈ table.rows,
          w' = w ∨ validateData setup values w = none ∧ w' = w.assign values := by
  unfold update
  cases hdata : internalValues setup request with
  | error errors => exact .inl rfl
  | ok data =>
    simp only
    split
    · exact .inl rfl
    · next count rows hrows =>
      refine .inr ⟨⟨count, rfl⟩, data.headD [], carries_of_internalValues hdata, fun w' hw' => ?_⟩
      obtain ⟨hvalid, rfl⟩ := updateAtomic_ok hrows
      obtain ⟨w, hw, rfl⟩ := List.mem_map.1 hw'
      refine ⟨w, hw, ?_⟩
      split_ifs with hmatched
      · obtain ⟨v, hv, hid⟩ := List.mem_map.1 hmatched
        have hvw : v = w := (table.store request.joins).eq_of_pk (mem_select.1 hv).1 hw hid
        exact .inr ⟨hvalid w (hvw ▸ hv), rfl⟩
      · exact .inl rfl

/-- **Updates keep the records coherent.** -/
theorem coherent_update (hdefaults : setup.registry.DefaultsValidate)
    (h : ∀ w ∈ table.rows, Coherent setup.registry w) :
    ∀ w ∈ (update setup table request).2.rows, Coherent setup.registry w := by
  rcases update_cases setup table request with htable | ⟨-, values, hcarries, hrows⟩
  · rw [htable]
    exact h
  · intro w' hw'
    obtain ⟨w, hw, rfl | ⟨hvalid, rfl⟩⟩ := hrows w' hw'
    · exact h _ hw
    · exact coherent_assign hdefaults hcarries (h w hw) hvalid

theorem coherent_run (hdefaults : setup.registry.DefaultsValidate)
    (requests : List (Request Model User Raw V Pk R Rel J Rel' J')) {table : Websites R V}
    (h : ∀ w ∈ table.rows, Coherent setup.registry w) :
    ∀ w ∈ (run setup table requests).rows, Coherent setup.registry w := by
  induction requests generalizing table with
  | nil => exact h
  | cons request requests ih => exact ih (coherent_update hdefaults h)

/-- **The theme and the options of the website**, with themes whose options can all be left out.  After any updates
every record is coherent; an update that is not
done leaves the table as it is, and one that switches the theme of a record without options leaves it none. -/
theorem theme_coherent (setup : Setup R V) (hdefaults : setup.registry.DefaultsValidate) {table : Websites R V}
    (h : ∀ w ∈ table.rows, Coherent setup.registry w)
    (requests : List (Request Model User Raw V Pk R Rel J Rel' J')) :
    (∀ w ∈ (run setup table requests).rows, Coherent setup.registry w) ∧
    ∀ request : Request Model User Raw V Pk R Rel J Rel' J',
      ((∀ n, (update setup (run setup table requests) request).1 ≠ .updated n) →
        (update setup (run setup table requests) request).2 = run setup table requests) ∧
      (request.payload.themeOptions = none → ∀ w ∈ (run setup table requests).rows,
        ∀ w' ∈ (update setup (run setup table requests) request).2.rows, w.id = w'.id → w.theme ≠ w'.theme →
          w'.themeOptions = .object []) := by
  refine ⟨coherent_run hdefaults requests h, fun request =>
    ⟨fun hrefused => ?_, fun hoptions w hw w' hw' hid hswitch => ?_⟩⟩
  · rcases update_cases setup (run setup table requests) request with htable | ⟨⟨n, hn⟩, -⟩
    · exact htable
    · exact absurd hn (hrefused n)
  · have hsame : ∀ v ∈ (run setup table requests).rows, v.id = w.id → v = w := fun v hv hvw =>
      List.inj_on_of_nodup_map (run setup table requests).id_nodup hv hw hvw
    rcases update_cases setup (run setup table requests) request with htable | ⟨-, values, hcarries, hrows⟩
    · rw [htable] at hw'
      exact absurd (congrArg WebsiteRow.theme (hsame w' hw' hid.symm).symm) hswitch
    · obtain ⟨v, hv, rfl | ⟨-, rfl⟩⟩ := hrows w' hw'
      · exact absurd (congrArg WebsiteRow.theme (hsame _ hv hid.symm).symm) hswitch
      · obtain rfl := hsame v hv hid.symm
        exact themeOptions_of_switch hcarries hoptions hswitch

end WebsiteService

/-! ## Two themes -/

/-- A colour that may be left out. -/
def colorField (name : String) : TypedField String where
  name := name
  required := false
  check value := if value.toList.head? = some '#' then [] else [([], "String should match pattern")]

def themeClass (id : String) (options : List String) : ThemeClass String where
  id := some id
  title := some id
  templateDir := some ("website/themes/" ++ id)
  layouts := layoutIds
  defaultLayout := "full-width"
  optionSchema := .plain (options.map colorField) true

/-- The themes `default` and `furni`, of which the second alone has an accent colour. -/
def twoThemes : Registry String :=
  ((register (fun s => s) .empty (themeClass "default" ["color_primary"])).bind fun reg =>
    register (fun s => s) reg (themeClass "furni" ["color_primary", "color_accent"])).toOption.getD .empty

def sampleSetup : WebsiteService.Setup Unit String := ⟨twoThemes, fun s => s, fun _ => [], fun _ => none⟩

def sampleWebsites : WebsiteService.Websites Unit String := ⟨[⟨"w", "default", .object [], fun _ => .null⟩], by simp⟩

def sampleRequest (theme : Option String) (options : Option (Json String)) :
    WebsiteService.Request Unit Unit Unit String Unit Unit Unit Unit Unit Unit where
  model := ()
  env := ⟨[], none, []⟩
  joins := ⟨fun _ _ => [()], fun _ => rfl⟩
  filters := none
  relatedEnv := ⟨[], none, []⟩
  related _ := ⟨⟨fun _ => (), [], ⟨fun _ _ => [()], fun _ => rfl⟩, by simp⟩, (), fun _ => none⟩
  str _ := ""
  payload := ⟨none, none, none, none, none, none, none, none, none, theme.map some, options⟩

/-- The theme alone, options of it, options it does not have, and back. -/
def sampleRequests : List (WebsiteService.Request Unit Unit Unit String Unit Unit Unit Unit Unit Unit) :=
  [sampleRequest (some "furni") none, sampleRequest none (some (.object [("color_accent", "#fff")])),
    sampleRequest none (some (.object [("nope", "#fff")])), sampleRequest (some "default") none]

theorem theme_coherent_sample :
    (∀ w ∈ (WebsiteService.run sampleSetup sampleWebsites sampleRequests).rows, Coherent twoThemes w) ∧
      ((WebsiteService.run sampleSetup sampleWebsites sampleRequests).rows.map fun w =>
        (w.theme, w.themeOptions.isTruthy)) = [("default", false)] ∧
      ((WebsiteService.run sampleSetup sampleWebsites (sampleRequests.take 3)).rows.map fun w =>
        (w.theme, w.themeOptions.isTruthy)) = [("furni", true)] := by
  have hsome : (getTheme twoThemes "default").isSome = true := by decide +kernel
  obtain ⟨theme, htheme⟩ := Option.isSome_iff_exists.1 hsome
  have hdefaults : twoThemes.DefaultsValidate := by decide +kernel
  refine ⟨(WebsiteService.theme_coherent sampleSetup hdefaults ?_ sampleRequests).1, by decide +kernel, by decide +kernel⟩
  intro w hw
  rw [List.mem_singleton.1 hw]
  exact ⟨theme, htheme, Theme.validateOptions_empty (hdefaults theme (mem_of_getTheme htheme))⟩

end Totem.Website
