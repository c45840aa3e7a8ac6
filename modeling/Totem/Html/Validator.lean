import Mathlib.Data.List.Dedup
import Totem.Html.Widgets
import Totem.Lib.MarkupText

/-!
# Totem.Html.Validator — what a content is checked for when it is saved

`HTMLValidator` of `core.orm.validators`, and how it agrees with `expand_widgets` about the markers.  The
validator walks the parsed tree; the renderer looks for the tag in the string first.

* `accepted_widgets`: in an accepted content every marker names a registered widget, its parameters validate,
  and none is inside another one.
* `markers_agree_iff`: the renderer makes the calls the validator checked exactly when the string spells the
  tag as the tree does, and no rendering but the last is refused by the parser.
-/

namespace Totem.Html

open Lib

/-! ## The validator -/

/-- `_style_whitelist`, as extended at the end of its list. -/
def styleWhitelist : List String :=
  ["font-size", "font-family", "font-weight", "font-style", "background-color", "color", "text-align",
    "line-height", "letter-spacing", "text-transform", "text-decoration", "text-decoration", "opacity", "float",
    "vertical-align", "display", "object-fit", "padding", "padding-top", "padding-left", "padding-bottom",
    "padding-right", "margin", "margin-top", "margin-left", "margin-bottom", "margin-right", "white-space",
    -- appearance
    "background-image", "background-position", "background-size", "background-repeat", "background-origin",
    -- box model
    "border", "border-color", "border-radius", "border-style", "border-width", "border-top", "border-bottom",
    "height", "width", "max-width", "min-width", "min-height",
    -- tables
    "border-collapse", "border-spacing", "caption-side", "empty-cells", "table-layout"]
  ++ ["top", "bottom", "left", "right"].flatMap fun position =>
    ["style", "color", "width", "left-radius", "right-radius"].map fun name => "border-" ++ position ++ "-" ++ name

structure HTMLValidator where
  allowStyleAttr : Bool
  allowClassAttr : Bool
  allowWidget : Bool
  allowedTags : List String
  allowedAttrs : List String

/-- `__init__`; `eventAttrs` are lxml's. -/
def HTMLValidator.init (eventAttrs : List String) (allowJavascript allowStyleAttr allowClassAttr allowWidget : Bool)
    (allowedTags allowedAttrs : List String) : HTMLValidator where
  allowStyleAttr := allowStyleAttr
  allowClassAttr := allowClassAttr
  allowWidget := allowWidget
  allowedTags := allowedTags ++ (if allowJavascript then ["script"] else [])
    ++ (if allowWidget then [widgetTag] else [])
  allowedAttrs := allowedAttrs ++ (if allowJavascript then eventAttrs else [])
    ++ (if allowStyleAttr then ["style"] else []) ++ (if allowWidget then [widgetAttrsAttr] else [])

/-- `",".join(sorted(set))`. -/
def joinSorted (names : List String) : String :=
  ",".intercalate (names.dedup.mergeSort fun a b => decide (a ≤ b))

def tagOf : Node → String
  | .element tag _ _ _ _ => tag
  | .other _ _ => ""

def attribOf : Node → List (String × String)
  | .element _ attrib _ _ _ => attrib
  | .other _ _ => []

/-- What `_validate_widgets` has found so far. -/
structure WidgetProblems where
  isNested : Bool := false
  missesName : Bool := false
  unknownNames : List String := []
  invalidAttrs : List String := []

section

variable {J D A : Type} (lxml : LxmlHtml) (site : Site J D A)

/-- One turn of the loop of `_validate_widgets`; `visit` is the marker with the tags of its ancestors. -/
def checkWidget (problems : WidgetProblems) (visit : Node × List String) : WidgetProblems :=
  let problems :=
    if visit.2.any fun ancestor => decide (ancestor = widgetTag) then { problems with isNested := true } else problems
  let name := strip ((nodeGet visit.1 widgetNameAttr).getD "")
  if name = "" then { problems with missesName := true }
  else
    match getWidget site name with
    | none => { problems with unknownNames := problems.unknownNames ++ [name] }
    | some widget =>
        match loadAttributes site widget visit.1 with
        | none => { problems with invalidAttrs := problems.invalidAttrs ++ [name] }
        | some _ => problems

def validateWidgets (nodes : List (Node × List String)) : List String :=
  let problems := nodes.foldl (checkWidget site) {}
  (if nodes.length > widgetMaxCount then
    ["Too many widgets: " ++ toString nodes.length ++ ", the maximum is " ++ toString widgetMaxCount ++ "."] else [])
  ++ (if problems.isNested then ["A widget can not be placed inside another widget."] else [])
  ++ (if problems.missesName then ["A widget must have a non-empty 'name'."] else [])
  ++ (if problems.unknownNames ≠ [] then ["Unknown widget: " ++ joinSorted problems.unknownNames] else [])
  ++ (if problems.invalidAttrs ≠ [] then ["Invalid widget parameters: " ++ joinSorted problems.invalidAttrs] else [])

/-- The elements of a parsed content, without the synthetic root, with the tags of their ancestors. -/
def descendants (root : Fragment) : List (Node × List String) := visitsAll ["div"] root.children

/-- `widget_nodes` of `_validate_etree`. -/
def widgetNodes (root : Fragment) : List (Node × List String) :=
  (descendants root).filter fun v => v.1.hasTag widgetTag

/-- `styleNames` are the properties `_style_re` finds in a style attribute, in lower case. -/
def HTMLValidator.validateEtree (v : HTMLValidator) (styleNames : String → List String) (root : Fragment) :
    List String :=
  let nodes := (descendants root).map Prod.fst
  let rejectedTags := (nodes.map tagOf).filter fun tag => tag ∉ v.allowedTags
  let rejectedAttrs := (nodes.flatMap fun node => (attribOf node).map Prod.fst).filter (· ∉ v.allowedAttrs)
  let rejectedStyleItems :=
    if v.allowStyleAttr then
      (nodes.flatMap fun node => styleNames ((nodeGet node "style").getD "")).filter (· ∉ styleWhitelist)
    else []
  let hasRejectedClass := !v.allowClassAttr && nodes.any fun node => (nodeGet node "class").isSome
  (if rejectedTags ≠ [] then ["Invalid tags: " ++ joinSorted rejectedTags] else [])
  ++ (if rejectedAttrs ≠ [] then ["Invalid attributes: " ++ joinSorted rejectedAttrs] else [])
  ++ (if rejectedStyleItems ≠ [] then ["Invalid style (attribute): " ++ joinSorted rejectedStyleItems] else [])
  ++ (if hasRejectedClass then ["'class' attribute is not allowed here."] else [])
  ++ (if v.allowWidget then validateWidgets site (widgetNodes root) else [])

/-- `__call__`: the messages of the `ValidationError`. -/
def HTMLValidator.call (v : HTMLValidator) (styleNames : String → List String) (value : String) :
    Except (List String) Unit :=
  if value = "" then .ok ()
  else
    match lxml.fragmentFromstring value with
    | none => .error ["Syntax error, this is not a parsable HTML code."]
    | some root =>
        let messages := v.validateEtree site styleNames root
        if messages ≠ [] then .error messages else .ok ()

end

/-! ## What an accepted content has -/

section

variable {J D A : Type} {lxml : LxmlHtml} {site : Site J D A}

/-- The widget of a marker with the attributes it was checked with; `none` where the marker is refused. -/
def checkedCall (site : Site J D A) (node : Node) : Option (Call A) :=
  let name := strip ((nodeGet node widgetNameAttr).getD "")
  if name = "" then none
  else do
    let widget ← getWidget site name
    let attributes ← loadAttributes site widget node
    some ⟨widget.id, attributes⟩

/-- A marker nothing is said about. -/
def ValidMarker (site : Site J D A) (visit : Node × List String) : Prop :=
  widgetTag ∉ visit.2 ∧ (checkedCall site visit.1).isSome

theorem checkWidget_eq_empty {problems : WidgetProblems} {visit : Node × List String} :
    checkWidget site problems visit = {} ↔ problems = {} ∧ ValidMarker site visit := by
  obtain ⟨isNested, missesName, unknownNames, invalidAttrs⟩ := problems
  obtain ⟨node, ancestors⟩ := visit
  have hany : (ancestors.any fun ancestor => decide (ancestor = widgetTag)) = decide (widgetTag ∈ ancestors) := by
    rw [Bool.eq_iff_iff]
    simp
  unfold checkWidget ValidMarker checkedCall
  simp only [hany]
  by_cases hnested : widgetTag ∈ ancestors <;>
    by_cases hname : strip ((nodeGet node widgetNameAttr).getD "") = ""
  · simp [hnested, hname]
  · cases hwidget : getWidget site (strip ((nodeGet node widgetNameAttr).getD "")) with
    | none => simp [hnested, hname]
    | some widget => cases hattrs : loadAttributes site widget node <;> simp [hnested, hname, hattrs]
  · simp [hnested, hname]
  · cases hwidget : getWidget site (strip ((nodeGet node widgetNameAttr).getD "")) with
    | none => simp [hnested, hname]
    | some widget => cases hattrs : loadAttributes site widget node <;> simp [hnested, hname, hattrs]

theorem foldl_checkWidget_eq_empty {nodes : List (Node × List String)} {problems : WidgetProblems} :
    nodes.foldl (checkWidget site) problems = {} ↔ problems = {} ∧ ∀ visit ∈ nodes, ValidMarker site visit := by
  induction nodes generalizing problems with
  | nil => simp
  | cons visit nodes ih =>
    rw [List.foldl_cons, ih, checkWidget_eq_empty]
    simp [and_assoc]

theorem validateWidgets_eq_nil {nodes : List (Node × List String)} (h : validateWidgets site nodes = []) :
    ∀ visit ∈ nodes, ValidMarker site visit := by
  have hempty : nodes.foldl (checkWidget site) {} = {} := by
    unfold validateWidgets at h
    generalize nodes.foldl (checkWidget site) {} = problems at h
    obtain ⟨isNested, missesName, unknownNames, invalidAttrs⟩ := problems
    simp only [List.append_eq_nil_iff] at h
    obtain ⟨⟨⟨⟨-, h1⟩, h2⟩, h3⟩, h4⟩ := h
    simp at h1 h2 h3 h4
    simp [h1, h2, h3, h4]
  exact (foldl_checkWidget_eq_empty.1 hempty).2

theorem HTMLValidator.call_ok {v : HTMLValidator} {styleNames : String → List String} {value : String}
    (h : v.call lxml site styleNames value = .ok ()) (hne : value ≠ "") :
    ∃ root, lxml.fragmentFromstring value = some root ∧ v.validateEtree site styleNames root = [] := by
  rw [HTMLValidator.call, if_neg hne] at h
  cases hroot : lxml.fragmentFromstring value with
  | none =>
    rw [hroot] at h
    cases h
  | some root =>
    rw [hroot] at h
    by_cases hmessages : v.validateEtree site styleNames root = []
    · exact ⟨root, rfl, hmessages⟩
    · simp [hmessages] at h

/-- **In an accepted content every marker is usable, and none is inside another one.** -/
theorem accepted_widgets {v : HTMLValidator} (hwidget : v.allowWidget = true) {styleNames : String → List String}
    {value : String} (h : v.call lxml site styleNames value = .ok ()) (hne : value ≠ "") :
    ∃ root, lxml.fragmentFromstring value = some root ∧ ∀ visit ∈ widgetNodes root, ValidMarker site visit := by
  obtain ⟨root, hroot, hmessages⟩ := HTMLValidator.call_ok h hne
  refine ⟨root, hroot, validateWidgets_eq_nil ?_⟩
  unfold HTMLValidator.validateEtree at hmessages
  simp only [List.append_eq_nil_iff, hwidget, if_true] at hmessages
  exact hmessages.2

/-! ## What the renderer does with it -/

theorem topLevelMarkers_eq {root : Fragment} (h : ∀ visit ∈ widgetNodes root, ValidMarker site visit) :
    topLevelMarkers root = (widgetNodes root).map Prod.fst := by
  unfold topLevelMarkers widgetNodes descendants
  congr 1
  refine List.filter_congr fun visit hvisit => ?_
  by_cases htag : visit.1.hasTag widgetTag = true
  · have hvalid := (h visit (List.mem_filter.2 ⟨hvisit, htag⟩)).1
    have hany : (visit.2.any fun ancestor => decide (ancestor = widgetTag)) = false := by
      rw [← Bool.not_eq_true]
      simpa using hvalid
    simp [htag, hany]
  · simp [htag]

theorem renderMarker_eq {node : Node} {call : Call A} (h : checkedCall site node = some call) (render : Render A)
    (k : ℕ) : renderMarker site render k node = (some call, (render k call).getD "") := by
  unfold checkedCall at h
  unfold renderMarker
  simp only at h
  split_ifs at h
  simp only [Option.bind_eq_bind, Option.bind_eq_some_iff, Option.some.injEq] at h
  obtain ⟨widget, hwidget, attributes, hattributes, rfl⟩ := h
  simp [hwidget, hattributes]

/-- The k-th rendering. -/
def rendering (render : Render A) (k : ℕ) (call : Call A) : String := (render k call).getD ""

/-- The markers are rendered until one rendering does not parse. -/
theorem renderMarkers_calls {markers : List Node} {calls : List (Call A)}
    (h : markers.map (checkedCall site) = calls.map some) (render : Render A) (k : ℕ) :
    (renderMarkers lxml site render k markers).1 = calls ↔
      ∀ (i : ℕ) (hi : i + 1 < calls.length),
        (lxml.fragmentFromstring (rendering render (k + i) (calls[i]))).isSome := by
  induction markers generalizing calls k with
  | nil =>
    have hcalls : calls = [] := by simpa using h.symm
    subst hcalls
    simp [renderMarkers]
  | cons node markers ih =>
    obtain ⟨call, calls, rfl⟩ : ∃ call calls', calls = call :: calls' := by
      cases calls with
      | nil => simp at h
      | cons call calls => exact ⟨call, calls, rfl⟩
    simp only [List.map_cons, List.cons.injEq] at h
    rw [renderMarkers]
    simp only [renderMarker_eq h.1]
    cases hparse : lxml.fragmentFromstring ((render k call).getD "") with
    | none =>
      cases calls with
      | nil => simp
      | cons call' calls =>
        simp only [Option.toList_some, List.cons.injEq, true_and]
        refine iff_of_false (by simp) fun hall => ?_
        have h0 := hall 0 (by simp)
        simp [rendering, hparse] at h0
    | some fragment =>
      simp only [Option.toList_some, List.cons_append, List.nil_append, List.cons.injEq, true_and]
      rw [ih h.2]
      constructor
      · intro hall i hi
        cases i with
        | zero => simp [rendering, hparse]
        | succ i =>
          have hi' := hall i (by simpa using hi)
          rw [Nat.add_right_comm, Nat.add_assoc] at hi'
          simpa using hi'
      · intro hall i hi
        have hi' := hall (i + 1) (by simpa using hi)
        rw [Nat.add_right_comm, Nat.add_assoc]
        simpa using hi'

/-- The markers the validator looks at. -/
def validatedMarkers (lxml : LxmlHtml) (content : String) : List (Node × List String) :=
  if content = "" then [] else (lxml.fragmentFromstring content).elim [] widgetNodes

/-- The calls the validator has checked the attributes of. -/
def validatedCalls (lxml : LxmlHtml) (site : Site J D A) (content : String) : List (Call A) :=
  (validatedMarkers lxml content).filterMap fun visit => checkedCall site visit.1

/-- Validator and renderer agree on the markers of a content. -/
structure Agree (lxml : LxmlHtml) (site : Site J D A) (render : Render A) (content : String) : Prop where
  /-- The renderer finds the elements the validator looked at. -/
  markers : (expandWidgets lxml site render content).markers = (validatedMarkers lxml content).map Prod.fst
  /-- Each of them reaches its widget's `render` with the attributes that were checked. -/
  calls : (expandWidgets lxml site render content).calls = validatedCalls lxml site content
  shortCircuit : mentionsWidget content = false → validatedMarkers lxml content = []

/-- In an accepted content every marker has been checked. -/
theorem checkedCalls_eq {nodes : List (Node × List String)} (h : ∀ visit ∈ nodes, ValidMarker site visit) :
    (nodes.map Prod.fst).map (checkedCall site)
      = (nodes.filterMap fun visit => checkedCall site visit.1).map some := by
  induction nodes with
  | nil => rfl
  | cons visit nodes ih =>
    obtain ⟨call, hcall⟩ := Option.isSome_iff_exists.1 (h visit (List.mem_cons_self ..)).2
    simp [hcall, ih fun v hv => h v (List.mem_cons_of_mem _ hv)]

/-- An empty content has no marker for either. -/
theorem agree_of_empty (render : Render A) : Agree lxml site render "" := by
  have hmarkers : validatedMarkers lxml "" = [] := if_pos rfl
  have hexpand : expandWidgets lxml site render "" = ⟨[], [], some ""⟩ := if_pos rfl
  refine ⟨?_, ?_, fun _ => hmarkers⟩
  · rw [hexpand, hmarkers]
    rfl
  · rw [hexpand, validatedCalls, hmarkers]
    rfl

/-- A content that does not spell the tag is not even parsed by the renderer. -/
theorem agree_iff_of_not_mentioned {content : String} (hne : content ≠ "") (hmentions : mentionsWidget content = false)
    (render : Render A) : Agree lxml site render content ↔ validatedMarkers lxml content = [] := by
  have hexpand : expandWidgets lxml site render content = ⟨[], [], some content⟩ := by
    simp [expandWidgets, hne, hmentions]
  constructor
  · exact fun hagree => hagree.shortCircuit hmentions
  · intro hnil
    refine ⟨?_, ?_, fun _ => hnil⟩
    · rw [hexpand, hnil]
      rfl
    · rw [hexpand, validatedCalls, hnil]
      rfl

/-- In a content that spells the tag the renderer finds the markers that were checked, and calls them as long as the
parser takes what is rendered. -/
theorem agree_iff_of_mentioned {content : String} {root : Fragment} (hne : content ≠ "")
    (hmentions : mentionsWidget content = true) (hroot : lxml.fragmentFromstring content = some root)
    (hvalid : ∀ visit ∈ widgetNodes root, ValidMarker site visit) (render : Render A) :
    Agree lxml site render content ↔ ∀ (i : ℕ) (hi : i + 1 < (validatedCalls lxml site content).length),
      (lxml.fragmentFromstring (rendering render i (validatedCalls lxml site content)[i])).isSome := by
  have hmarkers : validatedMarkers lxml content = widgetNodes root := by
    rw [validatedMarkers, if_neg hne, hroot]
    rfl
  have hvalidated : validatedCalls lxml site content
      = (widgetNodes root).filterMap fun visit => checkedCall site visit.1 := by
    rw [validatedCalls, hmarkers]
  have hcalls := checkedCalls_eq hvalid
  rw [← hvalidated] at hcalls
  have htop := topLevelMarkers_eq hvalid
  have hfound : (expandWidgets lxml site render content).markers = (widgetNodes root).map Prod.fst := by
    simp [expandWidgets, hne, hmentions, hroot, htop]
  have hmade : (expandWidgets lxml site render content).calls
      = (renderMarkers lxml site render 0 ((widgetNodes root).map Prod.fst)).1 := by
    simp [expandWidgets, hne, hmentions, hroot, htop]
  have hexpand := @renderMarkers_calls _ _ _ lxml site _ _ hcalls render 0
  simp only [Nat.zero_add] at hexpand
  rw [← hexpand, ← hmade]
  constructor
  · exact fun hagree => hagree.calls
  · exact fun hcalled => ⟨by rw [hfound, hmarkers], hcalled, by simp [hmentions]⟩

/-- **Validator and renderer agree on an accepted content exactly when the content spells the tag as the parser
does or has no marker, and no rendering but the last is one the parser refuses.** -/
theorem markers_agree_iff {v : HTMLValidator} (hwidget : v.allowWidget = true) {styleNames : String → List String}
    {content : String} (haccepted : v.call lxml site styleNames content = .ok ()) (render : Render A) :
    Agree lxml site render content ↔
      (mentionsWidget content = true ∨ validatedMarkers lxml content = []) ∧
      ∀ (i : ℕ) (hi : i + 1 < (validatedCalls lxml site content).length),
        (lxml.fragmentFromstring (rendering render i (validatedCalls lxml site content)[i])).isSome := by
  have hsilent : validatedMarkers lxml content = [] →
      ∀ (i : ℕ) (hi : i + 1 < (validatedCalls lxml site content).length),
        (lxml.fragmentFromstring (rendering render i (validatedCalls lxml site content)[i])).isSome := by
    intro hnil i hi
    simp [validatedCalls, hnil] at hi
  by_cases hne : content = ""
  · have hnil : validatedMarkers lxml content = [] := if_pos hne
    exact iff_of_true (hne ▸ agree_of_empty render) ⟨.inr hnil, hsilent hnil⟩
  · obtain ⟨root, hroot, hvalid⟩ := accepted_widgets hwidget haccepted hne
    cases hmentions : mentionsWidget content with
    | false =>
      rw [agree_iff_of_not_mentioned hne hmentions]
      exact ⟨fun hnil => ⟨.inr hnil, hsilent hnil⟩, fun h => h.1.resolve_left (by simp)⟩
    | true =>
      rw [agree_iff_of_mentioned hne hmentions hroot hvalid]
      exact ⟨fun h => ⟨.inl rfl, h⟩, And.right⟩

end

/-! ## On a small language -/

/-- A parser and a serializer of elements, attributes and texts. -/
def plainHtml : LxmlHtml := ⟨Markup.parse, Markup.escape, Markup.tostring⟩

/-- One widget, without parameters. -/
def clockSite : Site Unit Unit Unit where
  registry := [⟨"clock", some⟩]
  loads s := if s = "{}" then some () else none
  asDict := some
  emptyDict := ()

def clockValidator : HTMLValidator := .init [] false false true true ["p", "b"] ["name", "class"]

def clockContent : String := "<p>It is <t-widget name=\"clock\"></t-widget></p>"

theorem markers_agree_iff_sample :
    Agree plainHtml clockSite (fun _ _ => some "<b>12:00</b>") clockContent := by
  have hlength : (validatedCalls plainHtml clockSite clockContent).length = 1 := by decide +kernel
  have haccepted : clockValidator.call plainHtml clockSite (fun _ => []) clockContent = .ok () := by decide +kernel
  refine (markers_agree_iff rfl haccepted _).2
    ⟨Or.inl (by decide +kernel), fun i hi => ?_⟩
  rw [hlength] at hi
  omega

def upperContent : String := "<T-WIDGET name=\"clock\"></T-WIDGET>"

/-- A marker in upper case is accepted, and its checked call is never made. -/
theorem marker_missed :
    clockValidator.call plainHtml clockSite (fun _ => []) upperContent = .ok () ∧
    (validatedCalls plainHtml clockSite upperContent).length = 1 ∧
    ∀ render, (expandWidgets plainHtml clockSite render upperContent).result = some upperContent ∧
      ¬ Agree plainHtml clockSite render upperContent := by
  have hlength : (validatedMarkers plainHtml upperContent).length = 1 := by decide +kernel
  have hmentions : mentionsWidget upperContent = false := by decide +kernel
  have hne : upperContent ≠ "" := by decide
  refine ⟨by decide +kernel, by decide +kernel, fun render => ⟨?_, fun h => ?_⟩⟩
  · simp [expandWidgets, hne, hmentions]
  · rw [h.shortCircuit hmentions] at hlength
    cases hlength

end Totem.Html
