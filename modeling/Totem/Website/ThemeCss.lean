import Totem.Website.ThemeOptions
import Totem.Lib.Dict
import Totem.Lib.Css
import Totem.Lib.Regex

/-!
# Totem.Website.ThemeCss — the style sheet of a theme's options

`css_variables` and `render_css_variables` of `website/theme.py`: each option that is set becomes a custom property of
one `:root` rule.  A value is written as it is, if each of its characters is one of those that values are made of.

* `parseSheet_rule_iff`: the values with which a rule of this form is read back as it was written.
* `independent_iff`: the options that are declared each on its own, whatever one of them is changed to.
* `default_declaresEach_iff`: in the default theme that depends on the font stack only.
-/

namespace Totem.Website

open Lib

/-! ## Rendering -/

/-- What python makes of the values of options. -/
structure OptionValues (V : Type) where
  /-- The default of an option. -/
  default : String → V
  isNone : V → Bool
  str : V → String

section

variable {V : Type} (values : OptionValues V) {schema : OptionSchema V}

/-- `getattr(options, name)`. -/
def Options.value (options : Options schema) (name : String) : V :=
  (options.entries.lookup name).getD (values.default name)

/-- `options.model_dump()`. -/
def Options.modelDump (options : Options schema) : List (String × V) :=
  schema.fields.map fun field => (field.name, options.value values field.name)

/-- `f"--t-{name.replace('_', '-')}"`. -/
def variableName (name : String) : String :=
  "--t-" ++ String.ofList (name.toList.map fun c => if c = '_' then '-' else c)

/-- `css_variables`. -/
def cssVariables (options : Options schema) : Dict String V :=
  (options.modelDump values).foldl (fun d item =>
    (((if values.isNone item.2 then none else some item.2).map fun v => (variableName item.1, v)).map
      fun e => d.set e.1 e.2).getD d) .empty

/-- `[A-Za-z0-9 #%,.()_'\"+-]`. -/
def isCssValueChar (c : Char) : Bool := c.isAlphanum || decide (c ∈ " #%,.()_'\"+-".toList)

/-- `CSS_VALUE_RE.match`; `$` matches before a newline at the end, too. -/
def matchesCssValue (text : String) : Bool :=
  let body := text.toList.takeWhile isCssValueChar
  decide (1 ≤ body.length ∧ body.length ≤ 256) &&
    (text.toList.drop body.length = [] || text.toList.drop body.length = ['\n'])

def renderCssVariables (options : Options schema) : String :=
  let declarations := (cssVariables values options).entries.filterMap fun entry =>
    let text := values.str entry.2
    if matchesCssValue text then some ("  " ++ entry.1 ++ ": " ++ text ++ ";") else none
  if declarations = [] then "" else ":root \x7b\n" ++ "\n".intercalate declarations ++ "\n\x7d"

end

/-! ## The constrained types and the default theme -/

/-- `^#(?:[0-9a-fA-F]{3}|[0-9a-fA-F]{6}|[0-9a-fA-F]{8})$`. -/
def cssColor : Regex Char :=
  let hex := Regex.cls fun c => (Css.hexDigit c).isSome
  .seq (.cls fun c => c = '#') (.alt (.times 3 hex) (.alt (.times 6 hex) (.times 8 hex)))

/-- `^-?\d+(?:\.\d+)?(?:px|rem|em|%|vh|vw)$`; `digit` is the class of decimal digits. -/
def cssLength (digit : Char → Bool) : Regex Char :=
  .seq (.opt (.cls fun c => c = '-')) (.seq (.plus (.cls digit))
    (.seq (.opt (.seq (.cls fun c => c = '.') (.plus (.cls digit))))
      (.alt (.word ['p', 'x']) (.alt (.word ['r', 'e', 'm']) (.alt (.word ['e', 'm']) (.alt (.word ['%'])
        (.alt (.word ['v', 'h']) (.word ['v', 'w']))))))))

/-- `^[A-Za-z0-9 ,'\"-]{1,128}$`. -/
def isCssFontStack (w : List Char) : Bool :=
  decide (1 ≤ w.length ∧ w.length ≤ 128) && w.all fun c => c.isAlphanum || decide (c ∈ " ,'\"-".toList)

/-- An optional string with a pattern. -/
def patternField (name : String) (accepts : List Char → Bool) (pattern : String) : TypedField (Option String) where
  name := name
  required := false
  check value :=
    match value with
    | none => []
    | some text => if accepts text.toList then [] else [([], "String should match pattern '" ++ pattern ++ "'")]

def colorPattern : String := "^#(?:[0-9a-fA-F]\x7b3\x7d|[0-9a-fA-F]\x7b6\x7d|[0-9a-fA-F]\x7b8\x7d)$"

def lengthPattern : String := "^-?\\d+(?:\\.\\d+)?(?:px|rem|em|%|vh|vw)$"

def fontStackPattern : String := "^[A-Za-z0-9 ,'\\\"-]\x7b1,128\x7d$"

def defaultOptionFields (digit : Char → Bool) : List (TypedField (Option String)) :=
  [patternField "color_primary" cssColor.fullmatch colorPattern,
    patternField "color_body_bg" cssColor.fullmatch colorPattern,
    patternField "font_family_base" isCssFontStack fontStackPattern,
    patternField "content_max_width" (cssLength digit).fullmatch lengthPattern]

/-- `DefaultTheme.Options`. -/
def defaultOptionSchema (digit : Char → Bool) : OptionSchema (Option String) := .plain (defaultOptionFields digit) true

/-- The values of optional strings; every default is `None`. -/
def optionalStrings : OptionValues (Option String) where
  default _ := none
  isNone := Option.isNone
  str text := text.getD ""

/-! ## A rule that is written line by line -/

/-- What stands between the semicolons of a rule: a line without its end. -/
def lineSegment (entry : List Char × List Char) : List Char := ['\n', ' ', ' '] ++ (entry.1 ++ ':' :: (' ' :: entry.2))

/-- A variable name and a value as they may be written. -/
structure WritableEntry (entry : List Char × List Char) : Prop where
  starts : Css.startsName entry.1 = true
  name : ∀ c ∈ entry.1, Css.isNameChar c = true
  text : ∀ c ∈ entry.2, isCssValueChar c = true ∨ c = '\n'

/-- The body of a rule up to `tail`, which comes after its last semicolon. -/
def ruleBody (entries : List (List Char × List Char)) (tail : List Char) : List Char :=
  [';'].intercalate (entries.map lineSegment ++ [tail])

/-- An entry as it should be read back. -/
def readBack (entry : List Char × List Char) : List Char × List Char := (entry.1, Css.trim entry.2)

section

variable {entry : List Char × List Char}

theorem WritableEntry.notMem (h : WritableEntry entry) {c : Char} (hname : Css.isNameChar c = false)
    (hvalue : isCssValueChar c = false) (hnewline : c ≠ '\n') (hblank : c ≠ ' ') (hcolon : c ≠ ':') :
    c ∉ lineSegment entry := by
  intro hmem
  simp only [lineSegment, List.mem_append, List.mem_cons, List.not_mem_nil, or_false] at hmem
  rcases hmem with (hc | hc | hc) | hc | hc | hc | hc
  · exact hnewline hc
  · exact hblank hc
  · exact hblank hc
  · rw [h.name c hc] at hname
    cases hname
  · exact hcolon hc
  · exact hblank hc
  · rcases h.text c hc with hc | hc
    · rw [hc] at hvalue
      cases hvalue
    · exact hnewline hc

theorem isNeutral_of_isNameChar {c : Char} (h : Css.isNameChar c = true) : Css.IsNeutral c := by
  refine ⟨?_, ?_, ?_, ?_, ?_, ?_, ?_, ?_, ?_, ?_⟩ <;>
    · rintro rfl
      exact absurd h (by decide)

theorem WritableEntry.run_lineSegment (h : WritableEntry entry) :
    Css.Reader.run {} (lineSegment entry) = Css.Reader.run {} entry.2 := by
  have hlead : Css.Reader.run {} ['\n', ' ', ' '] = {} := by decide
  have hname : Css.Reader.run {} entry.1 = {} :=
    Css.Reader.run_neutral fun c hc => isNeutral_of_isNameChar (h.name c hc)
  have hgap : Css.Reader.run {} [':', ' '] = {} := by decide
  rw [lineSegment, Css.Reader.run_append, hlead, Css.Reader.run_append, hname]
  exact congrArg (fun r => Css.Reader.run r entry.2) hgap

/-- What is read of the line of an entry. -/
def readEntry (entry : List Char × List Char) : Option (List Char × List Char) :=
  if (Css.Reader.run {} entry.2).bad = false then some (readBack entry) else none

theorem readDeclaration_lineSegment (h : WritableEntry entry) :
    Css.readDeclaration (lineSegment entry) = readEntry entry := by
  have hlead : ∀ c ∈ ['\n', ' ', ' '], Css.isBlank c = true := by simp [Css.isBlank, Css.isNewline]
  have hparse := Css.parseDeclaration_of_name hlead h.name h.starts (' ' :: entry.2)
  rw [Css.readDeclaration, lineSegment, hparse, Option.bind_some]
  rfl

/-- The text is balanced when the reader is at the top level after it, and it has no brackets that close nothing. -/
theorem balanced_iff {w : List Char} (hslash : '/' ∉ w) :
    Css.Balanced w ↔ (Css.Reader.run {} w).AtTop ∧ (Css.Reader.run {} w).bad = false := by
  have hmode : (Css.Reader.run {} w).mode ≠ .slash := Css.Reader.run_mode (by simp) hslash
  unfold Css.Balanced Css.Reader.AtTop
  constructor
  · intro h
    rw [h]
    exact ⟨⟨rfl, Or.inl rfl⟩, rfl⟩
  · rintro ⟨⟨hclosers, hmode' | hmode'⟩, hbad⟩
    · generalize Css.Reader.run {} w = r at hclosers hmode' hbad ⊢
      obtain ⟨mode, closers, bad⟩ := r
      cases hclosers
      cases hmode'
      cases hbad
      rfl
    · exact absurd hmode' hmode

end

section

variable {entries : List (List Char × List Char)} {tail : List Char}

theorem notMem_ruleBody {c : Char} (hentries : ∀ entry ∈ entries, c ∉ lineSegment entry) (htail : c ∉ tail)
    (hc : c ≠ ';') : c ∉ ruleBody entries tail := by
  refine Css.notMem_intercalate hc fun x hx => ?_
  rcases List.mem_append.1 hx with hx | hx
  · obtain ⟨entry, hentry, rfl⟩ := List.mem_map.1 hx
    exact hentries entry hentry
  · rw [List.mem_singleton] at hx
    exact hx ▸ htail

/-- **The declarations of a rule are read back as they were written exactly when every value is balanced.** -/
theorem read_ruleBody_iff (hentries : ∀ entry ∈ entries, WritableEntry entry)
    (htail : tail = ['\n'] ∨ tail = ['\n', '}']) :
    (Css.splitTop ';' {} (ruleBody entries tail)).filterMap Css.readDeclaration = entries.map readBack ↔
      ∀ entry ∈ entries, Css.Balanced entry.2 := by
  have hsemi : ∀ p ∈ entries.map lineSegment, ';' ∉ p := by
    intro p hp
    obtain ⟨entry, hentry, rfl⟩ := List.mem_map.1 hp
    exact (hentries entry hentry).notMem (by decide) (by decide) (by decide) (by decide) (by decide)
  have htailSemi : ';' ∉ tail := by rcases htail with rfl | rfl <;> decide
  have htailNone : Css.readDeclaration tail = none := by rcases htail with rfl | rfl <;> rfl
  have hslash : ∀ entry ∈ entries, '/' ∉ entry.2 := fun entry hentry hmem => by
    have hno := (hentries entry hentry).notMem (c := '/') (by decide) (by decide) (by decide) (by decide) (by decide)
    exact hno (by simp [lineSegment, hmem])
  have hnoSlash : '/' ∉ ruleBody entries tail := notMem_ruleBody
    (fun entry hentry => (hentries entry hentry).notMem (by decide) (by decide) (by decide) (by decide) (by decide))
    (by rcases htail with rfl | rfl <;> decide) (by decide)
  have hnoEscape : '\\' ∉ ruleBody entries tail := notMem_ruleBody
    (fun entry hentry => (hentries entry hentry).notMem (by decide) (by decide) (by decide) (by decide) (by decide))
    (by rcases htail with rfl | rfl <;> decide) (by decide)
  -- what is read when the reader is at the top level at every semicolon
  have hread (htop : ∀ p ∈ entries.map lineSegment, (Css.Reader.run {} p).AtTop) :
      (Css.splitTop ';' {} (ruleBody entries tail)).filterMap Css.readDeclaration = entries.filterMap readEntry := by
    rw [ruleBody, Css.splitTop_pieces (fun p hp => ⟨hsemi p hp, htop p hp⟩) htailSemi, List.filterMap_append,
      List.filterMap_cons_none htailNone, List.filterMap_nil, List.append_nil, List.filterMap_map]
    exact List.filterMap_congr fun entry hentry => readDeclaration_lineSegment (hentries entry hentry)
  constructor
  · intro h
    -- a segment that is read is one of the entries, and has no semicolon as they have none
    have hfree : ∀ x ∈ Css.splitTop ';' {} (ruleBody entries tail), (Css.readDeclaration x).isSome → ';' ∉ x := by
      intro x hx hsome hmem
      obtain ⟨read, hreadx⟩ := Option.isSome_iff_exists.1 hsome
      have hback : read ∈ entries.map readBack := h ▸ List.mem_filterMap.2 ⟨x, hx, hreadx⟩
      obtain ⟨entry, hentry, hback⟩ := List.mem_map.1 hback
      obtain ⟨d, hparse, -, hd⟩ := Css.readDeclaration_eq_some hreadx
      have hnone (c : Char) (hc : c ∉ ruleBody entries tail) : c ∉ x := fun hcx => hc (Css.mem_of_mem_segment hx hcx)
      have hvalue := Css.mem_value_of_mem hparse (hnone '/' hnoSlash) (hnone '\\' hnoEscape) hmem
        (by decide) (by decide) (by decide)
      have htrim : Css.trim entry.2 = Css.trim d.value := congrArg Prod.snd (hback.trans hd)
      have htext : ';' ∈ entry.2 := Css.mem_of_mem_trim (htrim ▸ Css.mem_trim hvalue (by decide))
      exact hsemi _ (List.mem_map_of_mem hentry) (by simp [lineSegment, htext])
    have htop : ∀ p ∈ entries.map lineSegment, (Css.Reader.run {} p).AtTop :=
      Css.atTop_of_length hsemi htailSemi (by rw [← ruleBody, h, List.length_map, List.length_map]) hfree
    intro entry hentry
    rw [hread htop] at h
    rw [balanced_iff (hslash entry hentry), ← (hentries entry hentry).run_lineSegment]
    refine ⟨htop _ (List.mem_map_of_mem hentry), ?_⟩
    have hall : ∀ entry ∈ entries, (readEntry entry).isSome := by
      rw [← List.filterMap_length_eq_length, h, List.length_map]
    have hsome := hall entry hentry
    unfold readEntry at hsome
    split_ifs at hsome with hgood
    · rwa [(hentries entry hentry).run_lineSegment]
    · cases hsome
  · intro h
    have htop : ∀ p ∈ entries.map lineSegment, (Css.Reader.run {} p).AtTop := by
      intro p hp
      obtain ⟨entry, hentry, rfl⟩ := List.mem_map.1 hp
      rw [(hentries entry hentry).run_lineSegment]
      exact ((balanced_iff (hslash entry hentry)).1 (h entry hentry)).1
    rw [hread htop, ← List.filterMap_eq_map]
    refine List.filterMap_congr fun entry hentry => ?_
    rw [readEntry, if_pos ((balanced_iff (hslash entry hentry)).1 (h entry hentry)).2]
    rfl

/-- `:root \x7b`, the body, and the brace that closes it. -/
def ruleText (entries : List (List Char × List Char)) : List Char :=
  ":root ".toList ++ '{' :: (ruleBody entries ['\n'] ++ ['}'])

theorem ruleBody_append (entries : List (List Char × List Char)) (tail w : List Char) :
    ruleBody entries tail ++ w = ruleBody entries (tail ++ w) := by
  unfold ruleBody
  induction entries with
  | nil => simp
  | cons entry entries ih =>
    rw [List.map_cons, Css.intercalate_cons_append, Css.intercalate_cons_append, ← ih, List.append_assoc,
      List.cons_append]

/-- A line of a rule. -/
def lineText (entry : List Char × List Char) : List Char := [' ', ' '] ++ (entry.1 ++ ':' :: ' ' :: (entry.2 ++ [';']))

theorem intercalate_lineText (hne : entries ≠ []) :
    '\n' :: (['\n'].intercalate (entries.map lineText) ++ ['\n']) = ruleBody entries ['\n'] := by
  induction entries with
  | nil => exact absurd rfl hne
  | cons entry entries ih =>
    rw [ruleBody, List.map_cons, List.map_cons, Css.intercalate_cons_append]
    cases entries with
    | nil => simp [lineText, lineSegment]
    | cons entry' entries =>
      have hrest := ih (by simp)
      rw [ruleBody] at hrest
      rw [← hrest, List.map_cons, List.intercalate_cons_cons]
      simp [lineText, lineSegment]

/-- **A rule of this form is read back as one rule with its entries exactly when every value is balanced.** -/
theorem parseSheet_rule_iff (hentries : ∀ entry ∈ entries, WritableEntry entry) :
    Css.parseSheet (ruleText entries) = [⟨":root".toList, entries.map readBack⟩] ↔
      ∀ entry ∈ entries, Css.Balanced entry.2 := by
  have hselector : Css.cut '{' {} (ruleText entries) = some (":root ".toList, ruleBody entries ['\n'] ++ ['}']) :=
    Css.cut_append (by decide) _ (by decide)
  have hbrace : '}' ∉ ruleBody entries ['\n'] := notMem_ruleBody
    (fun entry hentry => (hentries entry hentry).notMem (by decide) (by decide) (by decide) (by decide) (by decide))
    (by decide) (by decide)
  have htrim : Css.trim ":root ".toList = ":root".toList := by decide
  obtain ⟨n, hn⟩ : ∃ n, (ruleText entries).length = n + 1 :=
    ⟨_, (Nat.succ_pred_eq_of_pos (by simp [ruleText])).symm⟩
  rw [Css.parseSheet, hn, Css.parseRules, hselector]
  simp only [htrim, Css.cut_concat _ hbrace]
  split_ifs
  · simp only [Css.parseRules_nil, List.cons.injEq, Css.Rule.mk.injEq, true_and, and_true]
    exact read_ruleBody_iff hentries (Or.inl rfl)
  · simp only [List.cons.injEq, Css.Rule.mk.injEq, true_and, and_true, ruleBody_append]
    exact read_ruleBody_iff hentries (Or.inr rfl)

end

/-! ## What a theme declares -/

/-- The fields of a class: identifiers, each once. -/
def isIdentifierChar (c : Char) : Bool := c.isAlphanum || c = '_' || decide (128 ≤ c.toNat)

structure IdentifierNames {V : Type} (schema : OptionSchema V) : Prop where
  nodup : (schema.fields.map OptionField.name).Nodup
  identifier : ∀ field ∈ schema.fields, ∀ c ∈ field.name.toList, isIdentifierChar c = true

section

variable {V : Type} (values : OptionValues V) {schema : OptionSchema V}

/-- The text of an option that is rendered: it is set, and not refused. -/
def Options.text (options : Options schema) (name : String) : Option String :=
  if values.isNone (options.value values name) then none
  else if matchesCssValue (values.str (options.value values name)) then some (values.str (options.value values name))
  else none

/-- The variables that are rendered, in the order of the fields. -/
def Options.rendered (options : Options schema) : List (List Char × List Char) :=
  schema.fields.filterMap fun field =>
    (options.text values field.name).map fun text => ((variableName field.name).toList, text.toList)

/-- Nothing, or one `:root` rule with each entry. -/
def expectedSheet (entries : List (List Char × List Char)) : List Css.Rule :=
  if entries = [] then [] else [⟨":root".toList, entries.map readBack⟩]

/-- What is rendered is read back as the options that are rendered, each once. -/
structure DeclaresEach (options : Options schema) : Prop where
  sheet : Css.parseSheet (renderCssVariables values options).toList = expectedSheet (options.rendered values)
  once : ((options.rendered values).map Prod.fst).Nodup

/-- Every value that is rendered is balanced. -/
def BalancedValues (options : Options schema) : Prop :=
  ∀ field ∈ schema.fields, ∀ text ∈ options.text values field.name, Css.Balanced text.toList

instance (options : Options schema) : Decidable (BalancedValues values options) :=
  inferInstanceAs (Decidable (∀ field ∈ schema.fields, ∀ text ∈ options.text values field.name, _))

variable {values}

theorem ne_hyphen_of_identifier {c : Char} (h : isIdentifierChar c = true) : c ≠ '-' := by
  rintro rfl
  exact absurd h (by decide)

theorem variableName_inj {name name' : String} (h : ∀ c ∈ name.toList, isIdentifierChar c = true)
    (h' : ∀ c ∈ name'.toList, isIdentifierChar c = true) (heq : variableName name = variableName name') :
    name = name' := by
  have hback : ∀ w : List Char, (∀ c ∈ w, isIdentifierChar c = true) →
      (w.map fun c => if c = '_' then '-' else c).map (fun c => if c = '-' then '_' else c) = w := by
    intro w hw
    induction w with
    | nil => rfl
    | cons c w ih =>
      obtain ⟨hc, hw⟩ := List.forall_mem_cons.1 hw
      rw [List.map_cons, List.map_cons, ih hw]
      congr 1
      by_cases hunderscore : c = '_'
      · rw [if_pos hunderscore, if_pos rfl, hunderscore]
      · rw [if_neg hunderscore, if_neg (ne_hyphen_of_identifier hc)]
  have hlist := congrArg String.toList heq
  simp only [variableName, String.toList_append, String.toList_ofList, List.append_cancel_left_eq] at hlist
  refine String.toList_inj.1 ?_
  rw [← hback _ h, ← hback _ h', hlist]

theorem IdentifierNames.nodup_variables (hnames : IdentifierNames schema) :
    (schema.fields.map fun field => variableName field.name).Nodup := by
  have hmap := List.Nodup.map_on (f := variableName) (fun name hname name' hname' heq => by
    obtain ⟨field, hfield, rfl⟩ := List.mem_map.1 hname
    obtain ⟨field', hfield', rfl⟩ := List.mem_map.1 hname'
    exact variableName_inj (hnames.identifier field hfield) (hnames.identifier field' hfield') heq) hnames.nodup
  rwa [List.map_map] at hmap

/-- The variables of the options that are set, in the order of the fields. -/
theorem cssVariables_entries (hnames : IdentifierNames schema) (options : Options schema) :
    (cssVariables values options).entries = schema.fields.filterMap fun field =>
      (if values.isNone (options.value values field.name) then none else some (options.value values field.name)).map
        fun v => (variableName field.name, v) := by
  have hnodup : ((options.modelDump values).map fun item => variableName item.1).Nodup := by
    rw [Options.modelDump, List.map_map]
    exact hnames.nodup_variables
  have hentries := Dict.entries_foldl_keys (fun item : String × V => variableName item.1)
    (fun item => if values.isNone item.2 then none else some item.2) (options.modelDump values) hnodup
  unfold cssVariables
  rw [hentries, Options.modelDump, List.filterMap_map]
  rfl

theorem rendered_nodup (hnames : IdentifierNames schema) (options : Options schema) :
    ((options.rendered values).map Prod.fst).Nodup := by
  have hmap : ((schema.fields.map fun field => variableName field.name).map String.toList).Nodup :=
    hnames.nodup_variables.map fun s t h => String.toList_inj.1 h
  rw [List.map_map] at hmap
  have hfst := Dict.map_fst_filterMap (fun field : OptionField => (variableName field.name).toList)
    (fun field => (options.text values field.name).map String.toList) schema.fields
  simp only [Option.map_map] at hfst
  rw [Options.rendered]
  refine Eq.symm hfst ▸ ?_
  exact hmap.sublist (List.filter_sublist.map _)

/-- The lines that are rendered. -/
theorem declarations_eq (hnames : IdentifierNames schema) (options : Options schema) :
    ((cssVariables values options).entries.filterMap fun entry =>
      let text := values.str entry.2
      if matchesCssValue text then some ("  " ++ entry.1 ++ ": " ++ text ++ ";") else none) =
    schema.fields.filterMap fun field => (options.text values field.name).map fun text =>
      "  " ++ variableName field.name ++ ": " ++ text ++ ";" := by
  rw [cssVariables_entries hnames, List.filterMap_filterMap]
  refine List.filterMap_congr fun field _ => ?_
  by_cases hnone : values.isNone (options.value values field.name) = true
  · simp [Options.text, hnone]
  · by_cases hmatch : matchesCssValue (values.str (options.value values field.name)) = true <;>
      simp [Options.text, hnone, hmatch]

theorem renderCssVariables_toList (hnames : IdentifierNames schema) (options : Options schema) :
    (renderCssVariables values options).toList =
      if options.rendered values = [] then [] else ruleText (options.rendered values) := by
  have hlines : (schema.fields.filterMap fun field => (options.text values field.name).map fun text =>
      "  " ++ variableName field.name ++ ": " ++ text ++ ";").map String.toList =
        (options.rendered values).map lineText := by
    rw [Options.rendered, List.map_filterMap, List.map_filterMap]
    refine List.filterMap_congr fun field _ => ?_
    cases options.text values field.name with
    | none => rfl
    | some text => simp [lineText]
  rw [renderCssVariables, declarations_eq hnames]
  generalize (schema.fields.filterMap fun field => (options.text values field.name).map fun text =>
      "  " ++ variableName field.name ++ ": " ++ text ++ ";") = declarations at hlines ⊢
  by_cases hempty : options.rendered values = []
  · rw [hempty, List.map_nil, List.map_eq_nil_iff] at hlines
    rw [if_pos hlines, if_pos hempty]
    rfl
  · have hne : declarations ≠ [] := fun hnil => by
      rw [hnil, List.map_nil] at hlines
      exact hempty (List.map_eq_nil_iff.1 hlines.symm)
    rw [if_neg hne, if_neg hempty, ruleText, ← intercalate_lineText hempty, ← hlines]
    simp [String.toList_intercalate]

theorem mem_of_matchesCssValue {text : String} (h : matchesCssValue text = true) :
    ∀ c ∈ text.toList, isCssValueChar c = true ∨ c = '\n' := by
  have hdrop : text.toList.drop (text.toList.takeWhile isCssValueChar).length =
      text.toList.dropWhile isCssValueChar := by
    have hsplit := List.takeWhile_append_dropWhile (p := isCssValueChar) (l := text.toList)
    exact (congrArg (List.drop _) hsplit.symm).trans List.drop_left
  simp only [matchesCssValue, hdrop, Bool.and_eq_true, Bool.or_eq_true, decide_eq_true_eq] at h
  intro c hc
  rw [← List.takeWhile_append_dropWhile (p := isCssValueChar) (l := text.toList), List.mem_append] at hc
  rcases hc with hc | hc
  · exact Or.inl (List.mem_takeWhile_imp hc)
  · rcases h.2 with hend | hend
    · rw [hend] at hc
      cases hc
    · rw [hend, List.mem_singleton] at hc
      exact Or.inr hc

theorem Options.text_eq_some {options : Options schema} {name text : String}
    (h : options.text values name = some text) : values.isNone (options.value values name) = false ∧
      values.str (options.value values name) = text ∧ matchesCssValue text = true := by
  unfold Options.text at h
  split_ifs at h with hnone hmatch
  obtain rfl := Option.some.inj h
  exact ⟨by simpa using hnone, rfl, hmatch⟩

theorem isNameChar_variableName {name : String} (h : ∀ c ∈ name.toList, isIdentifierChar c = true) :
    ∀ c ∈ (variableName name).toList, Css.isNameChar c = true := by
  intro c hc
  simp only [variableName, String.toList_append, String.toList_ofList, List.mem_append] at hc
  rcases hc with hc | hc
  · have hlead : "--t-".toList = ['-', '-', 't', '-'] := by decide
    rw [hlead] at hc
    simp only [List.mem_cons, List.not_mem_nil, or_false] at hc
    rcases hc with rfl | rfl | rfl | rfl <;> decide
  · obtain ⟨d, hd, rfl⟩ := List.mem_map.1 hc
    by_cases hunderscore : d = '_'
    · rw [if_pos hunderscore]
      decide
    · have hident := h d hd
      rw [if_neg hunderscore]
      simp only [isIdentifierChar, Char.isAlphanum, Bool.or_eq_true, decide_eq_true_eq] at hident
      simp only [Css.isNameChar, Css.isNameStart, Bool.or_eq_true, decide_eq_true_eq]
      tauto

theorem writable_of_rendered (hnames : IdentifierNames schema) (options : Options schema) :
    ∀ entry ∈ options.rendered values, WritableEntry entry := by
  intro entry hentry
  obtain ⟨field, hfield, hentry⟩ := List.mem_filterMap.1 hentry
  obtain ⟨text, htext, rfl⟩ := Option.map_eq_some_iff.1 hentry
  obtain ⟨-, -, hmatch⟩ := Options.text_eq_some htext
  refine ⟨?_, isNameChar_variableName (hnames.identifier field hfield), mem_of_matchesCssValue hmatch⟩
  simp [variableName, Css.startsName]

theorem balanced_rendered_iff (options : Options schema) :
    (∀ entry ∈ options.rendered values, Css.Balanced entry.2) ↔ BalancedValues values options := by
  constructor
  · intro h field hfield text htext
    exact h _ (List.mem_filterMap.2 ⟨field, hfield, Option.map_eq_some_iff.2 ⟨text, htext, rfl⟩⟩)
  · intro h entry hentry
    obtain ⟨field, hfield, hentry⟩ := List.mem_filterMap.1 hentry
    obtain ⟨text, htext, rfl⟩ := Option.map_eq_some_iff.1 hentry
    exact h field hfield text htext

/-- **The options of a theme are declared each once, and nothing else, exactly when their values are balanced.** -/
theorem declaresEach_iff_balanced (hnames : IdentifierNames schema) (options : Options schema) :
    DeclaresEach values options ↔ BalancedValues values options := by
  have hsheet : Css.parseSheet (renderCssVariables values options).toList = expectedSheet (options.rendered values) ↔
      BalancedValues values options := by
    rw [← balanced_rendered_iff, renderCssVariables_toList hnames, expectedSheet]
    by_cases hempty : options.rendered values = []
    · rw [if_pos hempty, if_pos hempty, hempty]
      exact ⟨fun _ entry hentry => (List.not_mem_nil hentry).elim, fun _ => rfl⟩
    · rw [if_neg hempty, if_neg hempty]
      exact parseSheet_rule_iff (writable_of_rendered hnames options)
  exact ⟨fun h => hsheet.1 h.sheet, fun h => ⟨hsheet.2 h, rendered_nodup hnames options⟩⟩

theorem Options.text_congr {options options' : Options schema} {name : String}
    (h : options.value values name = options'.value values name) :
    options.text values name = options'.text values name := by
  rw [Options.text, Options.text, h]

theorem declaredValues_expectedSheet (entries : List (List Char × List Char)) (name : List Char) :
    Css.declaredValues (expectedSheet entries) name =
      ((entries.filter fun entry => decide (entry.1 = name)).map fun entry => Css.trim entry.2) := by
  unfold expectedSheet
  by_cases hempty : entries = []
  · rw [if_pos hempty, hempty]
    rfl
  · rw [if_neg hempty, Css.declaredValues, List.flatMap_singleton, List.filter_map, List.map_map]
    rfl

/-- An option with the same value is declared with the same values. -/
theorem declaredValues_congr (hnames : IdentifierNames schema) {options options' : Options schema}
    {field : OptionField} (hfield : field ∈ schema.fields)
    (hsame : options.value values field.name = options'.value values field.name) :
    Css.declaredValues (expectedSheet (options.rendered values)) (variableName field.name).toList =
      Css.declaredValues (expectedSheet (options'.rendered values)) (variableName field.name).toList := by
  rw [declaredValues_expectedSheet, declaredValues_expectedSheet, Options.rendered, Options.rendered,
    List.filter_filterMap, List.filter_filterMap]
  congr 1
  refine List.filterMap_congr fun other hother => ?_
  by_cases hname : variableName other.name = variableName field.name
  · have hother : other.name = field.name :=
      variableName_inj (hnames.identifier other hother) (hnames.identifier field hfield) hname
    rw [hother, Options.text_congr hsame]
  · have hne : (variableName other.name).toList ≠ (variableName field.name).toList :=
      fun h => hname (String.toList_inj.1 h)
    have hfilter (text : Option String) :
        ((text.map fun text => ((variableName other.name).toList, text.toList)).filter fun entry =>
          decide (entry.1 = (variableName field.name).toList)) = none := by
      cases text with
      | none => rfl
      | some text => simp [Option.filter, hne]
    rw [hfilter, hfilter]

/-- **Two lists of options that differ in one of them are each declared as they are, and the others read the same,
exactly when the values of both are balanced.** -/
theorem independent_iff (hnames : IdentifierNames schema) {options options' : Options schema} {option : String}
    (hsame : ∀ name, name ≠ option → options.value values name = options'.value values name) :
    (DeclaresEach values options ∧ DeclaresEach values options' ∧
      ∀ field ∈ schema.fields, field.name ≠ option →
        Css.declaredValues (Css.parseSheet (renderCssVariables values options).toList)
            (variableName field.name).toList =
          Css.declaredValues (Css.parseSheet (renderCssVariables values options').toList)
            (variableName field.name).toList) ↔
      BalancedValues values options ∧ BalancedValues values options' := by
  constructor
  · rintro ⟨h, h', -⟩
    exact ⟨(declaresEach_iff_balanced hnames options).1 h, (declaresEach_iff_balanced hnames options').1 h'⟩
  · rintro ⟨h, h'⟩
    have hdeclares := (declaresEach_iff_balanced hnames options).2 h
    have hdeclares' := (declaresEach_iff_balanced hnames options').2 h'
    refine ⟨hdeclares, hdeclares', fun field hfield hne => ?_⟩
    rw [hdeclares.sheet, hdeclares'.sheet]
    exact declaredValues_congr hnames hfield (hsame field.name hne)

end

/-! ## The default theme -/

/-- A character of a colour or a length. -/
theorem isNeutral_of_digit {c : Char} (h : c.isDigit = true ∨ 128 ≤ c.toNat) : Css.IsNeutral c := by
  refine isNeutral_of_isNameChar ?_
  simp only [Css.isNameChar, Css.isNameStart, Bool.or_eq_true, decide_eq_true_eq]
  tauto

theorem isNeutral_of_hexDigit {c : Char} (h : (Css.hexDigit c).isSome = true) : Css.IsNeutral c := by
  refine isNeutral_of_isNameChar ?_
  delta Css.isNameChar Css.isNameStart Char.isAlpha Char.isUpper Char.isLower
  simp only [Bool.or_eq_true, Bool.and_eq_true, decide_eq_true_eq, ge_iff_le, UInt32.le_iff_toNat_le]
  unfold Css.hexDigit at h
  simp only [Char.le_def, UInt32.le_iff_toNat_le] at h
  split_ifs at h with hdigit hlower hupper
  · tauto
  · exact Or.inl (Or.inl (Or.inl (Or.inl (Or.inl (Or.inr ⟨hlower.1, hlower.2.trans (by decide)⟩)))))
  · exact Or.inl (Or.inl (Or.inl (Or.inl (Or.inl (Or.inl ⟨hupper.1, hupper.2.trans (by decide)⟩)))))
  · cases h

theorem balanced_of_cssColor {w : List Char} (h : cssColor.fullmatch w = true) : Css.Balanced w := by
  have hhex : (Regex.cls fun c => (Css.hexDigit c).isSome).Within Css.IsNeutral := fun c hc => isNeutral_of_hexDigit hc
  have hcolor : cssColor.Within Css.IsNeutral :=
    ⟨fun c hc => of_decide_eq_true hc ▸ by decide, Regex.within_times hhex 3, Regex.within_times hhex 6,
      Regex.within_times hhex 8⟩
  exact Css.Reader.run_neutral (Regex.forall_mem_of_within hcolor (Regex.fullmatch_iff.1 h))

theorem balanced_of_cssLength {digit : Char → Bool} (hdigit : ∀ c, digit c = true → c.isDigit = true ∨ 128 ≤ c.toNat)
    {w : List Char} (h : (cssLength digit).fullmatch w = true) : Css.Balanced w := by
  have hone (d : Char) (hd : Css.IsNeutral d) : (Regex.cls fun c => decide (c = d)).Within Css.IsNeutral :=
    fun c hc => of_decide_eq_true hc ▸ hd
  have hdigits : (Regex.plus (.cls digit)).Within Css.IsNeutral :=
    ⟨fun c hc => isNeutral_of_digit (hdigit c hc), fun c hc => isNeutral_of_digit (hdigit c hc)⟩
  have hlength : (cssLength digit).Within Css.IsNeutral :=
    ⟨Regex.within_opt (hone '-' (by decide)), hdigits, Regex.within_opt ⟨hone '.' (by decide), hdigits⟩,
      Regex.within_word (by simp [Css.IsNeutral]), Regex.within_word (by simp [Css.IsNeutral]),
      Regex.within_word (by simp [Css.IsNeutral]), Regex.within_word (by simp [Css.IsNeutral]),
      Regex.within_word (by simp [Css.IsNeutral]), Regex.within_word (by simp [Css.IsNeutral])⟩
  exact Css.Reader.run_neutral (Regex.forall_mem_of_within hlength (Regex.fullmatch_iff.1 h))

/-- An optional string that is set has the pattern of its field. -/
theorem accepted_of_value {fields : List (TypedField (Option String))} {forbidExtra : Bool}
    (options : Options (.plain fields forbidExtra)) {name pattern text : String} {accepts : List Char → Bool}
    (hfield : patternField name accepts pattern ∈ fields)
    (h : options.value optionalStrings name = some text) : accepts text.toList = true := by
  have hlookup : options.entries.lookup name = some (some text) := by
    unfold Options.value at h
    cases hentry : options.entries.lookup name with
    | none =>
      rw [hentry] at h
      cases h
    | some value =>
      rw [hentry] at h
      exact congrArg some h
  have hcheck := List.flatMap_eq_nil_iff.1 (List.append_eq_nil_iff.1 options.valid).1 _ hfield
  by_contra hnot
  simp [patternField, hlookup, hnot] at hcheck

theorem identifierNames_default (digit : Char → Bool) : IdentifierNames (defaultOptionSchema digit) where
  nodup := by simp [defaultOptionSchema, OptionSchema.plain, defaultOptionFields, patternField]
  identifier := by simp [defaultOptionSchema, OptionSchema.plain, defaultOptionFields, patternField, isIdentifierChar]

/-- Its defaults validate. -/
theorem default_errors_nil (digit : Char → Bool) : (defaultOptionSchema digit).errors [] = [] :=
  OptionSchema.plain_errors_nil true (by simp [defaultOptionFields, patternField])

/-- **Of the options of the default theme only the font stack can break the others.** -/
theorem default_declaresEach_iff {digit : Char → Bool} (hdigit : ∀ c, digit c = true → c.isDigit = true ∨ 128 ≤ c.toNat)
    (options : Options (defaultOptionSchema digit)) : DeclaresEach optionalStrings options ↔
      ∀ text ∈ options.text optionalStrings "font_family_base", Css.Balanced text.toList := by
  have hvalue {name text : String} (h : options.text optionalStrings name = some text) :
      options.value optionalStrings name = some text := by
    obtain ⟨hnone, hstr, -⟩ := Options.text_eq_some h
    cases hoption : options.value optionalStrings name with
    | none =>
      rw [hoption] at hnone
      cases hnone
    | some set =>
      rw [hoption] at hstr
      exact congrArg some hstr
  rw [declaresEach_iff_balanced (identifierNames_default digit)]
  constructor
  · intro h
    exact h _ (List.mem_map.2 ⟨patternField "font_family_base" isCssFontStack fontStackPattern,
      by simp [defaultOptionFields], rfl⟩)
  · intro h field hfield text htext
    obtain ⟨typed, hmem, rfl⟩ : ∃ typed ∈ defaultOptionFields digit, typed.toOptionField = field :=
      List.mem_map.1 hfield
    have hfields := hmem
    simp only [defaultOptionFields, List.mem_cons, List.not_mem_nil, or_false] at hfields
    rcases hfields with rfl | rfl | rfl | rfl
    · exact balanced_of_cssColor (accepted_of_value options hmem (hvalue htext))
    · exact balanced_of_cssColor (accepted_of_value options hmem (hvalue htext))
    · exact h text htext
    · exact balanced_of_cssLength hdigit (accepted_of_value options hmem (hvalue htext))

section Sample

/-- A font stack with a quoted name, and a width. -/
def fontAndWidth : Options (defaultOptionSchema Char.isDigit) where
  entries := [("font_family_base", some "\"Helvetica Neue\", sans-serif"), ("content_max_width", some "60rem")]
  valid := by decide

def widthOnly : Options (defaultOptionSchema Char.isDigit) where
  entries := [("content_max_width", some "60rem")]
  valid := by decide

/-- A font stack with a quote that is not closed. -/
def openQuote : Options (defaultOptionSchema Char.isDigit) where
  entries := [("font_family_base", some "\"Arial"), ("content_max_width", some "60rem")]
  valid := by decide

theorem value_fontAndWidth (name : String) (hne : name ≠ "font_family_base") :
    fontAndWidth.value optionalStrings name = widthOnly.value optionalStrings name := by
  have hfont : (name == "font_family_base") = false := by simpa using hne
  simp [Options.value, fontAndWidth, widthOnly, List.lookup_cons, hfont]

theorem independent_iff_sample : DeclaresEach optionalStrings fontAndWidth ∧ DeclaresEach optionalStrings widthOnly ∧
    ∀ field ∈ (defaultOptionSchema Char.isDigit).fields, field.name ≠ "font_family_base" →
      Css.declaredValues (Css.parseSheet (renderCssVariables optionalStrings fontAndWidth).toList)
          (variableName field.name).toList =
        Css.declaredValues (Css.parseSheet (renderCssVariables optionalStrings widthOnly).toList)
          (variableName field.name).toList :=
  (independent_iff (identifierNames_default Char.isDigit) value_fontAndWidth).2 ⟨by decide, by decide⟩

/-- The string takes the semicolon of its line, and the line after it is no declaration of its own. -/
theorem open_quote_breaks : ¬ ∀ options : Options (defaultOptionSchema Char.isDigit),
    DeclaresEach optionalStrings options := by
  intro h
  have hbalanced := (default_declaresEach_iff (fun c hc => Or.inl hc) openQuote).1 (h openQuote) "\"Arial" (by decide)
  revert hbalanced
  decide

end Sample

end Totem.Website
