import Totem.Html.Validator

/-!
# Totem.Html.Script — no script in an accepted content

`HTMLValidator` with the default lists and without javascript.  The lists are made of the tables of `lxml.html.defs`;
the validator looks at the tag and at the names of the attributes of every element, and at the value of `style` only.

* `mem_descendants`: the walk passes by every element of the tree.
* `accepted_without_script`: no script element and no event attribute.
* `javascript_url_accepted`: a link may run a script.
-/

namespace Totem.Html

open Lib

/-! ## The default lists -/

/-- The tables of `lxml.html.defs` that are used. -/
structure Defs where
  safeAttrs : List String
  eventAttrs : List String
  tags : List String
  fontStyleTags : List String
  headTags : List String
  frameTags : List String
  deprecatedTags : List String
  nonstandardTags : List String
  topLevelTags : List String

/-- `HTML_DEFAULT_ATTRS`. -/
def Defs.defaultAttrs (defs : Defs) : List String := defs.safeAttrs

/-- `HTML_DEFAULT_TAGS`. -/
def Defs.defaultTags (defs : Defs) : List String :=
  (defs.tags ++ defs.fontStyleTags).filter fun tag =>
    tag ∉ ["style", "meta", "mark", "samp", "ruby", "cite", "map", "dir", "rp", "dfn", "bdo", "kbd"]
      && tag ∉ defs.headTags && tag ∉ defs.frameTags && tag ∉ defs.deprecatedTags && tag ∉ defs.nonstandardTags
      && tag ∉ defs.topLevelTags

/-- A name in lower case. -/
def lower (name : String) : List Char := name.toList.map Char.toLower

/-- A tag a browser takes for `script`. -/
def isScript (tag : String) : Bool := decide (lower tag = "script".toList)

/-- An event attribute: `onclick`, `onLoad`. -/
def isEventAttr (name : String) : Bool := "on".toList.isPrefixOf (lower name)

/-- What lxml documents about its tables: `script` is a tag of the head, the tags are in lower case, and the safe
attributes have no events. -/
structure Defs.Documented (defs : Defs) : Prop where
  script : "script" ∈ defs.headTags
  lower : ∀ tag ∈ defs.tags ++ defs.fontStyleTags, lower tag = tag.toList
  safe : ∀ name ∈ defs.safeAttrs, isEventAttr name = false

theorem Defs.Documented.not_script {defs : Defs} (h : defs.Documented) {tag : String} (htag : tag ∈ defs.defaultTags) :
    isScript tag = false := by
  obtain ⟨hmem, hkept⟩ := List.mem_filter.1 htag
  simp only [Bool.and_eq_true, decide_eq_true_eq] at hkept
  rw [isScript, h.lower tag hmem, decide_eq_false_iff_not]
  intro hscript
  rw [String.toList_inj.1 hscript] at hkept
  exact hkept.1.1.1.1.2 h.script

/-! ## The elements of a tree -/

/-- The node stands among the others, or inside one of them. -/
inductive Under : List Node → Node → Prop
  | here {nodes : List Node} {node : Node} (h : node ∈ nodes) : Under nodes node
  | inside {nodes : List Node} {node : Node} {tag : String} {attrib : List (String × String)} {text : String}
      {children : List Node} {tail : String} (h : .element tag attrib text children tail ∈ nodes)
      (hin : Under children node) : Under nodes node

theorem visits_subset {nodes : List Node} {node : Node} (h : node ∈ nodes) (ancestors : List String) :
    node.visits ancestors ⊆ visitsAll ancestors nodes := by
  induction nodes with
  | nil => cases h
  | cons n nodes ih =>
    rw [visitsAll]
    rcases List.mem_cons.1 h with rfl | h
    · exact List.subset_append_left ..
    · exact List.Subset.trans (ih h) (List.subset_append_right ..)

theorem mem_visitsAll {nodes : List Node} {tag : String} {attrib : List (String × String)} {text : String}
    {children : List Node} {tail : String} (h : Under nodes (.element tag attrib text children tail))
    (ancestors : List String) :
    ∃ above, (.element tag attrib text children tail, above) ∈ visitsAll ancestors nodes := by
  generalize hnode : Node.element tag attrib text children tail = node at h
  induction h generalizing ancestors with
  | here h =>
    subst hnode
    refine ⟨ancestors, visits_subset h ancestors ?_⟩
    rw [Node.visits]
    exact List.mem_cons_self ..
  | @inside nodes node tag' attrib' text' children' tail' h hin ih =>
    obtain ⟨above, habove⟩ := ih (tag' :: ancestors) hnode
    refine ⟨above, visits_subset h ancestors ?_⟩
    rw [Node.visits]
    exact List.mem_cons_of_mem _ habove

/-- **The walk passes by every element**, at any depth. -/
theorem mem_descendants {root : Fragment} {tag : String} {attrib : List (String × String)} {text : String}
    {children : List Node} {tail : String} (h : Under root.children (.element tag attrib text children tail)) :
    .element tag attrib text children tail ∈ (descendants root).map Prod.fst := by
  obtain ⟨above, habove⟩ := mem_visitsAll h ["div"]
  exact List.mem_map_of_mem (f := Prod.fst) habove

/-! ## What is accepted -/

section

variable {J D A : Type} {site : Site J D A} {v : HTMLValidator} {styleNames : String → List String} {root : Fragment}

/-- Every element of an accepted tree has an allowed tag and allowed attributes. -/
theorem allowed_of_accepted (h : v.validateEtree site styleNames root = []) {tag : String}
    {attrib : List (String × String)} {text : String} {children : List Node} {tail : String}
    (hunder : Under root.children (.element tag attrib text children tail)) :
    tag ∈ v.allowedTags ∧ ∀ a ∈ attrib, a.1 ∈ v.allowedAttrs := by
  have hmem := mem_descendants hunder
  unfold HTMLValidator.validateEtree at h
  simp only [List.append_eq_nil_iff] at h
  obtain ⟨⟨⟨⟨htags, hattrs⟩, -⟩, -⟩, -⟩ := h
  constructor
  · by_contra htag
    have hrejected : tag ∈ (((descendants root).map Prod.fst).map tagOf).filter fun tag => tag ∉ v.allowedTags :=
      List.mem_filter.2 ⟨List.mem_map.2 ⟨_, hmem, rfl⟩, by simpa using htag⟩
    rw [if_pos (List.ne_nil_of_mem hrejected)] at htags
    cases htags
  · intro a ha
    by_contra hattr
    have hrejected : a.1 ∈ (((descendants root).map Prod.fst).flatMap fun node =>
        (attribOf node).map Prod.fst).filter (· ∉ v.allowedAttrs) :=
      List.mem_filter.2 ⟨List.mem_flatMap.2 ⟨_, hmem, List.mem_map_of_mem ha⟩, by simpa using hattr⟩
    rw [if_pos (List.ne_nil_of_mem hrejected)] at hattrs
    cases hattrs

variable {defs : Defs} {allowStyleAttr allowClassAttr allowWidget : Bool}

/-- **With the default lists and without javascript, an accepted tree holds no script element and no event
attribute.** -/
theorem accepted_without_script (hdefs : defs.Documented)
    (h : (HTMLValidator.init defs.eventAttrs false allowStyleAttr allowClassAttr allowWidget defs.defaultTags
      defs.defaultAttrs).validateEtree site styleNames root = []) :
    ∀ tag attrib text children tail, Under root.children (.element tag attrib text children tail) →
      isScript tag = false ∧ ∀ a ∈ attrib, isEventAttr a.1 = false := by
  intro tag attrib text children tail hunder
  obtain ⟨htag, hattrs⟩ := allowed_of_accepted h hunder
  have hwidgetTag : isScript widgetTag = false := by decide
  have hstyle : isEventAttr "style" = false := by decide
  have hwidgetAttrs : isEventAttr widgetAttrsAttr = false := by decide
  simp only [HTMLValidator.init, Bool.false_eq_true, if_false, List.append_nil, List.mem_append] at htag hattrs
  constructor
  · rcases htag with htag | htag
    · exact hdefs.not_script htag
    · cases allowWidget with
      | false => cases htag
      | true => rwa [List.mem_singleton.1 htag]
  · intro a ha
    rcases hattrs a ha with (hname | hname) | hname
    · exact hdefs.safe a.1 hname
    · cases allowStyleAttr with
      | false => cases hname
      | true => rwa [List.mem_singleton.1 hname]
    · cases allowWidget with
      | false => cases hname
      | true => rwa [List.mem_singleton.1 hname]

end

/-! ## A link -/

section Sample

/-- Attributes whose value is an URL. -/
def urlAttrs : List String :=
  ["action", "background", "cite", "data", "formaction", "href", "longdesc", "poster", "src", "usemap"]

/-- A browser reads the value as an URL of the scheme `javascript:`. -/
def runsScript (value : String) : Bool :=
  let url := (value.toList.dropWhile fun c => c.toNat ≤ 32).filter fun c => c ∉ ['\t', '\n', '\r']
  "javascript:".toList.isPrefixOf (url.map Char.toLower)

/-- Tags and attributes of lxml's tables. -/
def someDefs : Defs where
  safeAttrs := ["abbr", "action", "align", "alt", "class", "height", "href", "id", "name", "src", "title", "width"]
  eventAttrs := ["onblur", "onchange", "onclick", "onload", "onmouseover", "onsubmit"]
  tags := ["a", "article", "blink", "body", "div", "em", "form", "frame", "h1", "head", "html", "iframe", "img", "li",
    "link", "meta", "p", "script", "section", "span", "strong", "style", "svg", "table", "td", "title", "tr", "ul"]
  fontStyleTags := ["b", "big", "i", "s", "small", "strike", "tt", "u"]
  headTags := ["base", "isindex", "link", "meta", "script", "style", "title"]
  frameTags := ["frameset", "frame", "noframes"]
  deprecatedTags := ["applet", "basefont", "center", "dir", "font", "isindex", "menu", "s", "strike", "u"]
  nonstandardTags := ["blink", "marquee"]
  topLevelTags := ["html", "head", "body", "frameset"]

theorem someDefs_documented : someDefs.Documented where
  script := by decide
  lower := by decide
  safe := by decide

/-- `<p class="x"><b>text</b></p>`. -/
def plainTree : Fragment := ⟨"", [.element "p" [("class", "x")] "" [.element "b" [] "text" [] ""] ""]⟩

theorem accepted_without_script_sample :
    isScript "p" = false ∧ ∀ a ∈ [("class", "x")], isEventAttr a.1 = false :=
  @accepted_without_script _ _ _ clockSite (fun _ => []) plainTree someDefs true true false someDefs_documented
    (by decide +kernel) "p" [("class", "x")] "" [.element "b" [] "text" [] ""] "" (.here List.mem_cons_self)

/-- `<a href=" java\nScript:alert(1)">`. -/
def linkTree : Fragment := ⟨"", [.element "a" [("href", " java\nScript:alert(1)")] "link" [] ""]⟩

/-- **The value of an URL is not looked at**: a link that runs a script is accepted. -/
theorem javascript_url_accepted :
    ¬ ∀ (defs : Defs) (root : Fragment), defs.Documented →
      (HTMLValidator.init defs.eventAttrs false true true false defs.defaultTags defs.defaultAttrs).validateEtree
        clockSite (fun _ => []) root = [] →
      ∀ tag attrib text children tail, Under root.children (.element tag attrib text children tail) →
        isScript tag = false ∧ ∀ a ∈ attrib, isEventAttr a.1 = false ∧ (a.1 ∈ urlAttrs → runsScript a.2 = false) := by
  intro h
  have hlink := h someDefs linkTree someDefs_documented (by decide +kernel) "a" _ _ _ _
    (.here (List.mem_singleton.2 rfl))
  have hscript := (hlink.2 _ (List.mem_singleton.2 rfl)).2 (by decide)
  revert hscript
  decide +kernel

end Sample

end Totem.Html
