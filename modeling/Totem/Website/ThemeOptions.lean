import Totem.Website.WebsiteService

/-!
# Totem.Website.ThemeOptions — options that are stored, and options that are given

`AbstractTheme.resolve_options` reads whatever the column holds, `WebsiteService.update` writes whatever it is given.
Both go through the option schema; both take the raw value for a mapping first.

* `Theme.resolveOptions`: the read path, into an instance that carries its validity.
* `update_typeError`: an update raises a `TypeError` only for options that are no mapping.
* `options_never_break_iff`: neither path raises anything else, exactly for mappings and empty values that validate
  together, or can fall back to defaults that do.
-/

namespace Totem.Website

open Totem.Lib Totem.Services

variable {V : Type}

/-! ## Reading -/

/-- An instance of an option schema: the options that are set.  The others have their defaults. -/
structure Options (schema : OptionSchema V) where
  entries : List (String × V)
  valid : schema.errors entries = []

/-- What `resolve_options` raises: `.items()` of a value that is not a mapping, or the errors of the defaults. -/
inductive ResolveError
  | attributeError
  | invalid (errors : List FieldError)
  deriving DecidableEq

/-- `option_schema()`. -/
def Theme.defaultOptions (theme : Theme V) : Except ResolveError (Options theme.optionSchema) :=
  if h : theme.optionSchema.errors [] = [] then .ok ⟨[], h⟩ else .error (.invalid (theme.optionSchema.errors []))

/-- `(value or {}).items()`; `none` where the value has no `items`. -/
def Json.items (value : Json V) : Option (List (String × V)) :=
  if value.isTruthy = false then some []
  else
    match value with
    | .object entries => some entries
    | _ => none

/-- The entries of a raw value that the schema declares. -/
def OptionSchema.known (schema : OptionSchema V) (entries : List (String × V)) : List (String × V) :=
  entries.filter fun entry => decide (entry.1 ∈ schema.fields.map OptionField.name)

/-- `resolve_options`. -/
def Theme.resolveOptions (theme : Theme V) (rawOptions : Json V) : Except ResolveError (Options theme.optionSchema) :=
  match rawOptions.items with
  | none => .error .attributeError
  | some entries =>
    let known := theme.optionSchema.known entries
    if h : theme.optionSchema.errors known = [] then .ok ⟨known, h⟩ else theme.defaultOptions

/-- A mapping, or a value that counts as an empty one. -/
def Json.IsMapping (value : Json V) : Prop := (∃ entries, value = .object entries) ∨ value.isTruthy = false

/-- The entries of an object; any other value has none. -/
def Json.entries : Json V → List (String × V)
  | .object entries => entries
  | _ => []

theorem Json.items_eq {value : Json V} (h : value.IsMapping) : value.items = some value.entries := by
  rcases h with ⟨entries, rfl⟩ | hfalsy
  · unfold items
    cases entries with
    | nil => rfl
    | cons entry entries => rfl
  · unfold items
    rw [if_pos hfalsy]
    cases value with
    | object entries =>
      obtain rfl : entries = [] := by simpa [isTruthy] using hfalsy
      rfl
    | _ => rfl

theorem Json.items_eq_none {value : Json V} (h : ¬ value.IsMapping) : value.items = none := by
  have htruthy : ¬ value.isTruthy = false := fun hfalsy => h (.inr hfalsy)
  unfold items
  rw [if_neg htruthy]
  cases value with
  | object entries => exact absurd (.inl ⟨entries, rfl⟩) h
  | _ => rfl

/-- The options that the value has validate together. -/
def Theme.Validates (theme : Theme V) (raw : Json V) : Prop :=
  theme.optionSchema.errors (theme.optionSchema.known raw.entries) = []

instance (theme : Theme V) (raw : Json V) : Decidable (theme.Validates raw) :=
  inferInstanceAs (Decidable (theme.optionSchema.errors _ = []))

/-- The read path gives the options that are stored when they validate together, all the defaults otherwise. -/
def Reads (theme : Theme V) (raw : Json V) : Prop :=
  ∃ options, theme.resolveOptions raw = .ok options ∧
    (theme.Validates raw → options.entries = theme.optionSchema.known raw.entries) ∧
    (¬ theme.Validates raw → options.entries = [])

/-- A value that can be read: a mapping, or one that counts as empty; it validates, or the defaults do. -/
def Theme.Readable (theme : Theme V) (raw : Json V) : Prop :=
  raw.IsMapping ∧ (theme.Validates raw ∨ theme.optionSchema.errors [] = [])

theorem Theme.resolveOptions_eq {theme : Theme V} {raw : Json V} (hraw : raw.IsMapping) :
    theme.resolveOptions raw =
      if h : theme.Validates raw then .ok ⟨theme.optionSchema.known raw.entries, h⟩ else theme.defaultOptions := by
  rw [Theme.resolveOptions, Json.items_eq hraw]
  rfl

/-- **What is read is a valid instance, exactly for the readable values.** -/
theorem reads_iff {theme : Theme V} {raw : Json V} : Reads theme raw ↔ theme.Readable raw := by
  constructor
  · rintro ⟨options, hoptions, -⟩
    have hraw : raw.IsMapping := by
      by_contra hraw
      rw [Theme.resolveOptions, Json.items_eq_none hraw] at hoptions
      cases hoptions
    refine ⟨hraw, or_iff_not_imp_left.2 fun hinvalid => ?_⟩
    rw [Theme.resolveOptions_eq hraw, dif_neg hinvalid, Theme.defaultOptions] at hoptions
    split_ifs at hoptions with hdefaults
    exact hdefaults
  · rintro ⟨hraw, hvalid⟩
    by_cases hvalidates : theme.Validates raw
    · refine ⟨⟨theme.optionSchema.known raw.entries, hvalidates⟩, ?_, fun _ => rfl, fun h => absurd hvalidates h⟩
      rw [Theme.resolveOptions_eq hraw, dif_pos hvalidates]
    · have hdefaults := hvalid.resolve_left hvalidates
      refine ⟨⟨[], hdefaults⟩, ?_, fun h => absurd h hvalidates, fun _ => rfl⟩
      rw [Theme.resolveOptions_eq hraw, dif_neg hvalidates, Theme.defaultOptions, dif_pos hdefaults]

/-! ## Writing -/

/-- `**` takes a mapping. -/
theorem Theme.validateOptions_ne_typeError {theme : Theme V} {raw : Json V} (h : raw.IsMapping) :
    theme.validateOptions raw ≠ .error .typeError := by
  have hcheck : ∀ entries : List (String × V), (if theme.optionSchema.errors entries = [] then Except.ok ()
      else .error (.invalid (theme.optionSchema.errors entries))) ≠ .error OptionsError.typeError := by
    intro entries
    split_ifs <;> simp
  unfold Theme.validateOptions
  by_cases hfalsy : raw.isTruthy = false
  · dsimp only
    rw [if_pos hfalsy]
    exact hcheck []
  · obtain ⟨entries, rfl⟩ := h.resolve_right hfalsy
    dsimp only
    rw [if_neg hfalsy]
    exact hcheck entries

namespace WebsiteService

variable {Model User Raw Pk R Rel J Rel' J' : Type} {setup : Setup R V}

/-- A record is refused with a `TypeError` only for options that are no mapping. -/
theorem validateData_typeError {payload : WebsiteUpdate Raw V} {values : Values R V} (h : Carries payload values)
    {w : WebsiteRow R V} (hw : validateData setup values w = some .typeError) {raw : Json V}
    (hraw : payload.themeOptions = some raw) : ¬ raw.IsMapping := by
  have hlookup := h.themeOptions
  rw [hraw] at hlookup
  unfold validateData at hw
  cases hcover : validateCoverMedia setup (values.lookup "cover_media") with
  | some message => simp [hcover] at hw
  | none =>
    simp only [hcover, hlookup, Option.map_some] at hw
    split_ifs at hw
    · simp at hw
    · cases htheme : getTheme setup.registry (themeId values w) with
      | none => simp [htheme] at hw
      | some theme =>
        intro hmapping
        have hne := theme.validateOptions_ne_typeError hmapping
        cases hresult : theme.validateOptions raw with
        | ok u => simp [htheme, hresult] at hw
        | error e =>
          cases e with
          | typeError => exact hne hresult
          | invalid errors => simp [htheme, hresult] at hw

variable [DecidableEq Model] [DecidableEq Pk] [DecidableEq Raw] {table : Websites R V}
  {request : Request Model User Raw V Pk R Rel J Rel' J'}

/-- The records an update is about. -/
def Matched (table : Websites R V) (request : Request Model User Raw V Pk R Rel J Rel' J') (id : String) : Prop :=
  id ∈ (validated (table.store request.joins) request.env request.model request.filters).map WebsiteRow.id

/-- Options given to an update are stored on every record it is about and valid there, or they are reported and
nothing is written. -/
structure StoredOrReported (setup : Setup R V) (table : Websites R V)
    (request : Request Model User Raw V Pk R Rel J Rel' J') (raw : Json V) : Prop where
  noTypeError : (update setup table request).1 ≠ .typeError
  stored : ∀ n, (update setup table request).1 = .updated n → ∀ w ∈ (update setup table request).2.rows,
    Matched table request w.id → w.themeOptions = raw ∧ Coherent setup.registry w
  reported : (∀ n, (update setup table request).1 ≠ .updated n) → (update setup table request).2 = table

omit [DecidableEq Pk] [DecidableEq Raw] in
/-- No record of an update with a mapping is refused with a `TypeError`. -/
theorem atomicUpdate_errors {values : Values R V} (hcarries : Carries request.payload values) {raw : Json V}
    (hraw : raw.IsMapping) (hpayload : request.payload.themeOptions = some raw) {errors : List (String × Refusal)}
    (h : atomicUpdate setup table request values = .error errors) : ∀ e ∈ errors, e.2 ≠ .typeError := by
  rintro ⟨id, e⟩ he rfl
  unfold atomicUpdate Services.updateAtomic at h
  simp only at h
  split_ifs at h
  obtain rfl := Except.error.inj h
  obtain ⟨w, -, hw⟩ := List.mem_filterMap.1 he
  obtain ⟨e, he, hpair⟩ := Option.map_eq_some_iff.1 hw
  obtain rfl : e = .typeError := congrArg Prod.snd hpair
  exact validateData_typeError hcarries he hpayload hraw

/-- **An update with a mapping raises no `TypeError`.** -/
theorem update_ne_typeError {raw : Json V} (hraw : raw.IsMapping) (hpayload : request.payload.themeOptions = some raw) :
    (update setup table request).1 ≠ .typeError := by
  unfold update
  cases hdata : internalValues setup request with
  | error errors => simp
  | ok data =>
    simp only
    split
    · next errors herrors =>
      have hnone : ¬ (errors.any fun e => decide (e.2 = .typeError)) = true := by
        rw [List.any_eq_true]
        rintro ⟨e, he, htype⟩
        exact atomicUpdate_errors (carries_of_internalValues hdata) hraw hpayload herrors e he (of_decide_eq_true htype)
      simp [hnone]
    · simp

/-- **The options an update is given are stored, and valid**, on the records it is about. -/
theorem update_stored {raw : Json V} (hpayload : request.payload.themeOptions = some raw) {n : ℕ}
    (hupdated : (update setup table request).1 = .updated n) :
    ∀ w ∈ (update setup table request).2.rows, Matched table request w.id →
      w.themeOptions = raw ∧ Coherent setup.registry w := by
  unfold update at hupdated ⊢
  cases hdata : internalValues setup request with
  | error errors => simp [hdata] at hupdated
  | ok data =>
    have hcarries := carries_of_internalValues hdata
    simp only [hdata] at hupdated ⊢
    split
    · next errors herrors =>
      split at hupdated
      · split_ifs at hupdated
      · next hrows =>
        rw [hrows] at herrors
        cases herrors
    · next count rows hrows =>
      obtain ⟨hvalid, rfl⟩ := updateAtomic_ok hrows
      intro w' hw' hmatched
      obtain ⟨w, hw, rfl⟩ := List.mem_map.1 hw'
      split_ifs at hmatched ⊢ with hin
      · obtain ⟨v, hv, hid⟩ := List.mem_map.1 hin
        obtain rfl : v = w := (table.store request.joins).eq_of_pk (mem_select.1 hv).1 hw hid
        have hoptions : (v.assign (data.headD [])).themeOptions = raw := by
          rw [assign_themeOptions hcarries, hpayload]
          rfl
        obtain ⟨theme, htheme, hvalidates⟩ := validateOptions_of_validateData hcarries (hvalid v hv) hpayload
        refine ⟨hoptions, theme, ?_, ?_⟩
        · rw [assign_theme hcarries, htheme]
        · rw [hoptions, hvalidates]
      · exact absurd hmatched hin

/-- **What becomes of the options of an update** that are a mapping. -/
theorem storedOrReported (setup : Setup R V) (table : Websites R V)
    (request : Request Model User Raw V Pk R Rel J Rel' J') {raw : Json V} (hraw : raw.IsMapping)
    (hpayload : request.payload.themeOptions = some raw) : StoredOrReported setup table request raw where
  noTypeError := update_ne_typeError hraw hpayload
  stored _ hupdated := update_stored hpayload hupdated
  reported hnot := by
    rcases update_cases setup table request with htable | ⟨⟨n, hn⟩, -⟩
    · exact htable
    · exact absurd hn (hnot n)

end WebsiteService

/-! ## Both paths -/

section

variable (Model User Raw Pk R Rel J Rel' J' : Type) [DecidableEq Model] [DecidableEq Pk] [DecidableEq Raw]

/-- A value of the column is read by every page, and is stored or reported by every update it is given to. -/
structure NeverBreaks (theme : Theme V) (raw : Json V) : Prop where
  reads : Reads theme raw
  writes : ∀ (setup : WebsiteService.Setup R V) (table : WebsiteService.Websites R V)
    (request : WebsiteService.Request Model User Raw V Pk R Rel J Rel' J'),
    request.payload.themeOptions = some raw → WebsiteService.StoredOrReported setup table request raw

/-- **Theme options never break a page nor an update, exactly where they are a mapping or an empty value**, and
validate together or leave a page the defaults. -/
theorem options_never_break_iff (theme : Theme V) (raw : Json V) :
    NeverBreaks Model User Raw Pk R Rel J Rel' J' theme raw ↔ theme.Readable raw := by
  constructor
  · intro h
    exact reads_iff.1 h.reads
  · intro hreadable
    exact ⟨reads_iff.2 hreadable, fun setup table request hpayload =>
      WebsiteService.storedOrReported setup table request hreadable.1 hpayload⟩

end

/-! ## A list in the column -/

/-- A theme whose options all have defaults, which its validator refuses. -/
def columnsClass : ThemeClass String where
  id := some "columns"
  title := some "Columns"
  templateDir := some "website/themes/columns"
  layouts := layoutIds
  defaultLayout := "full-width"
  optionSchema := {
    fields := [⟨"left", false⟩, ⟨"right", false⟩]
    errors := fun entries =>
      if entries.lookup "left" = entries.lookup "right" then [⟨[], "Value error, the columns must differ"⟩] else [] }

def columnsRegistry : Registry String :=
  (register (fun s => s) .empty columnsClass).toOption.getD .empty

/-- Options that are a list: the page raises, and so does the update that is given them.  And with a registered theme
whose defaults are refused, the page raises for an empty object. -/
theorem list_of_options_raises :
    (∃ theme, getTheme twoThemes "default" = some theme ∧
      theme.resolveOptions (.array ["color_primary"]) = .error .attributeError ∧
      (WebsiteService.update sampleSetup sampleWebsites (sampleRequest none (some (.array ["color_primary"])))).1 =
        .typeError ∧
      ¬ NeverBreaks Unit Unit Unit Unit Unit Unit Unit Unit Unit theme (.array ["color_primary"])) ∧
    ∃ theme, getTheme columnsRegistry "columns" = some theme ∧
      ¬ NeverBreaks Unit Unit Unit Unit Unit Unit Unit Unit Unit theme (.object []) := by
  constructor
  · have hsome : (getTheme twoThemes "default").isSome = true := by decide +kernel
    obtain ⟨theme, htheme⟩ := Option.isSome_iff_exists.1 hsome
    refine ⟨theme, htheme, rfl, by decide +kernel, fun h => ?_⟩
    obtain ⟨options, hoptions, -⟩ := h.reads
    cases hoptions
  · have hsome : ((getTheme columnsRegistry "columns").any fun theme =>
        !(theme.optionSchema.errors []).isEmpty && !(theme.optionSchema.errors (theme.optionSchema.known [])).isEmpty)
          = true := by decide +kernel
    obtain ⟨theme, htheme, hrefused⟩ := (Option.any_eq_true _ _).1 hsome
    refine ⟨theme, htheme, fun h => ?_⟩
    obtain ⟨-, hvalidates | hdefaults⟩ := reads_iff.1 h.reads
    · rw [Theme.Validates, Json.entries] at hvalidates
      simp [hvalidates] at hrefused
    · simp [hdefaults] at hrefused

end Totem.Website
