import Totem.Html.Validator

/-!
# Totem.Html.Expansion — what an expanded content is read as

Expanding the widgets of a content should give, once parsed again, the parsed content with every top-level
marker replaced by its parsed rendering.  The children of the synthetic root are serialized, its text is not.

* `replaceMarkers_named`, `replaceMarkers_lacks`, `replaceMarkers_opening`: what the replacement keeps, and the text
  that opens it.
* `expansion_faithful_iff`: the contents and renderings whose expansion is read as it should be.
-/

namespace Totem.Html

open Lib

/-! ## What lxml does -/

/-- The tree as a serializer writes it, with its opening text escaped, is read back.  HTML has trees that are
not (a `p` in a `p`, a white opening text), so it is said of one tree at a time. -/
def LxmlHtml.GivesBack (lxml : LxmlHtml) (f : Fragment) : Prop :=
  lxml.fragmentFromstring (lxml.escape f.text ++ String.join (f.children.map lxml.tostring)) = some f

/-- What the parser of lxml makes of a text that stands before serialized nodes, or alone, without being escaped:
`reads s alone` says that it finds no tag, no comment and no character reference in `s`. -/
structure LxmlHtml.Lawful (lxml : LxmlHtml) (reads : String → Bool → Prop) : Prop where
  empty : lxml.fragmentFromstring "" = some (Fragment.ofText "")
  raw : ∀ f : Fragment, lxml.GivesBack f →
    (lxml.fragmentFromstring (f.text ++ String.join (f.children.map lxml.tostring)) = some f ↔
      reads f.text f.children.isEmpty)

theorem plainHtml_givesBack {s : String} {f : Fragment} (h : plainHtml.fragmentFromstring s = some f) :
    plainHtml.GivesBack f := Markup.parse_serialize f (Markup.parse_proper h)

theorem plainHtml_lawful :
    plainHtml.Lawful fun s _ => '<' ∉ s.toList ∧ Markup.decode s.toList = s.toList where
  empty := by
    simpa [plainHtml, Markup.escape, Markup.escapeChars, Fragment.ofText, Markup.tostrings] using
      Markup.parse_serialize (Fragment.ofText "") True.intro
  raw _ h := Markup.parse_raw (Markup.parse_proper h)

/-! ## What the replacement keeps -/

section

variable {name other : String → Prop}

theorem namedAll_headD {fragments : List Fragment} (h : ∀ f ∈ fragments, NamedAll name other f.children) :
    NamedAll name other (fragments.headD (Fragment.ofText "")).children := by
  cases fragments with
  | nil => trivial
  | cons f fragments => exact h f (List.mem_cons_self ..)

mutual

theorem replaceNode_named (n : Node) (hn : n.Named name other) (fragments : List Fragment)
    (h : ∀ f ∈ fragments, NamedAll name other f.children) :
    NamedAll name other (replaceNode n fragments).1.children ∧
      ∀ f ∈ (replaceNode n fragments).2, NamedAll name other f.children := by
  match n with
  | .other source tail => exact ⟨⟨hn, trivial⟩, h⟩
  | .element tag attrib text children tail =>
    by_cases htag : tag = widgetTag
    · rw [replaceNode, if_pos htag]
      exact ⟨Fragment.namedAll_append.2 ⟨namedAll_headD h, trivial⟩, fun f hf => h f (List.mem_of_mem_tail hf)⟩
    · have hinside := replaceNodes_named children hn.2.2 fragments h
      rw [replaceNode, if_neg htag]
      exact ⟨⟨⟨hn.1, hn.2.1, Fragment.namedAll_append.2 ⟨trivial, hinside.1⟩⟩, trivial⟩, hinside.2⟩

theorem replaceNodes_named (ns : List Node) (hns : NamedAll name other ns) (fragments : List Fragment)
    (h : ∀ f ∈ fragments, NamedAll name other f.children) :
    NamedAll name other (replaceNodes ns fragments).1.children ∧
      ∀ f ∈ (replaceNodes ns fragments).2, NamedAll name other f.children := by
  match ns with
  | [] => exact ⟨trivial, h⟩
  | n :: ns =>
    have hn := replaceNode_named n hns.1 fragments h
    have hrest := replaceNodes_named ns hns.2 _ hn.2
    rw [replaceNodes]
    exact ⟨Fragment.namedAll_append.2 ⟨hn.1, hrest.1⟩, hrest.2⟩

end

theorem replaceMarkers_named {root : Fragment} (hroot : NamedAll name other root.children)
    {fragments : List Fragment} (h : ∀ f ∈ fragments, NamedAll name other f.children) :
    NamedAll name other (replaceMarkers root fragments).children :=
  Fragment.namedAll_append.2 ⟨trivial, (replaceNodes_named root.children hroot fragments h).1⟩

end

theorem lacksAll_headD {t : String} {fragments : List Fragment} (h : ∀ f ∈ fragments, LacksAll t f.children) :
    LacksAll t (fragments.headD (Fragment.ofText "")).children := by
  cases fragments with
  | nil => trivial
  | cons f fragments => exact h f (List.mem_cons_self ..)

mutual

theorem replaceNode_lacks (n : Node) (fragments : List Fragment)
    (h : ∀ f ∈ fragments, LacksAll widgetTag f.children) :
    LacksAll widgetTag (replaceNode n fragments).1.children ∧
      ∀ f ∈ (replaceNode n fragments).2, LacksAll widgetTag f.children := by
  match n with
  | .other source tail => exact ⟨⟨trivial, trivial⟩, h⟩
  | .element tag attrib text children tail =>
    by_cases htag : tag = widgetTag
    · rw [replaceNode, if_pos htag]
      exact ⟨Fragment.lacksAll_append.2 ⟨lacksAll_headD h, trivial⟩, fun f hf => h f (List.mem_of_mem_tail hf)⟩
    · have hinside := replaceNodes_lacks children fragments h
      rw [replaceNode, if_neg htag]
      exact ⟨⟨⟨htag, Fragment.lacksAll_append.2 ⟨trivial, hinside.1⟩⟩, trivial⟩, hinside.2⟩

theorem replaceNodes_lacks (ns : List Node) (fragments : List Fragment)
    (h : ∀ f ∈ fragments, LacksAll widgetTag f.children) :
    LacksAll widgetTag (replaceNodes ns fragments).1.children ∧
      ∀ f ∈ (replaceNodes ns fragments).2, LacksAll widgetTag f.children := by
  match ns with
  | [] => exact ⟨trivial, h⟩
  | n :: ns =>
    have hn := replaceNode_lacks n fragments h
    have hrest := replaceNodes_lacks ns _ hn.2
    rw [replaceNodes]
    exact ⟨Fragment.lacksAll_append.2 ⟨hn.1, hrest.1⟩, hrest.2⟩

end

/-- Where nothing rendered holds a marker, none is left. -/
theorem replaceMarkers_lacks (root : Fragment) {fragments : List Fragment}
    (h : ∀ f ∈ fragments, LacksAll widgetTag f.children) :
    LacksAll widgetTag (replaceMarkers root fragments).children :=
  Fragment.lacksAll_append.2 ⟨trivial, (replaceNodes_lacks root.children fragments h).1⟩

mutual

theorem replaceNode_of_lacks (n : Node) (hn : n.Lacks widgetTag) (fragments : List Fragment) :
    replaceNode n fragments = (Fragment.ofNode n, fragments) := by
  match n with
  | .other _ _ => rfl
  | .element tag attrib text children tail =>
    rw [replaceNode, if_neg hn.1, replaceNodes_of_lacks children hn.2]
    simp [Fragment.text_append]

theorem replaceNodes_of_lacks (ns : List Node) (hns : LacksAll widgetTag ns) (fragments : List Fragment) :
    replaceNodes ns fragments = (⟨"", ns⟩, fragments) := by
  match ns with
  | [] => rfl
  | n :: ns =>
    have happend : Fragment.ofNode n ++ (⟨"", ns⟩ : Fragment) = ⟨"", n :: ns⟩ := by
      rw [Fragment.append_of_ne (by simp [Fragment.ofNode])]
      simp [Fragment.ofNode]
    simp only [replaceNodes, replaceNode_of_lacks n hns.1, replaceNodes_of_lacks ns hns.2, happend]

end

/-- A content without markers is left as it is. -/
theorem replaceMarkers_of_lacks {root : Fragment} (h : LacksAll widgetTag root.children)
    (fragments : List Fragment) : replaceMarkers root fragments = root := by
  rw [replaceMarkers, replaceNodes_of_lacks root.children h, Fragment.text_append, String.append_empty]

/-! ## What opens the result -/

/-- The text in front of everything else: the renderings of the markers that come first, up to the first one
that has an element; and whether nothing else follows. -/
def openingNodes : List Node → List Fragment → String × Bool
  | [], _ => ("", true)
  | node :: nodes, fragments =>
      if node.hasTag widgetTag then
        let fragment := fragments.headD (Fragment.ofText "")
        if fragment.children = [] then
          let (text, alone) := openingNodes nodes fragments.tail
          (fragment.text ++ node.tail ++ text, alone)
        else (fragment.text, false)
      else ("", false)

/-- The text that opens the content, and what the renderings of leading markers add to it. -/
def opening (root : Fragment) (fragments : List Fragment) : String × Bool :=
  let (text, alone) := openingNodes root.children fragments
  (root.text ++ text, alone)

/-- A fragment that has an element keeps its opening text. -/
theorem opening_append_of_ne {f : Fragment} (hf : f.children ≠ []) (g : Fragment) :
    (f ++ g).text = f.text ∧ (f ++ g).children.isEmpty = false := by
  have hne : (f ++ g).children ≠ [] := fun h => hf (Fragment.append_eq_nil.1 h).1
  refine ⟨?_, by simpa using hne⟩
  rw [Fragment.append_of_ne hf]

theorem replaceNodes_opening (nodes : List Node) (fragments : List Fragment) :
    (replaceNodes nodes fragments).1.text = (openingNodes nodes fragments).1 ∧
      (replaceNodes nodes fragments).1.children.isEmpty = (openingNodes nodes fragments).2 := by
  induction nodes generalizing fragments with
  | nil => exact ⟨rfl, rfl⟩
  | cons node nodes ih =>
    rw [replaceNodes, openingNodes]
    by_cases h : node.hasTag widgetTag = true
    · rw [if_pos h, replaceNode_marker h]
      by_cases hf : (fragments.headD (Fragment.ofText "")).children = []
      · obtain ⟨htext, halone⟩ := ih fragments.tail
        have hempty : (fragments.headD (Fragment.ofText "") ++ Fragment.ofText node.tail).children = [] :=
          Fragment.append_eq_nil.2 ⟨hf, rfl⟩
        simp only [if_pos hf]
        rw [Fragment.append_of_nil hempty, Fragment.append_of_nil hf, htext, halone]
        exact ⟨rfl, rfl⟩
      · obtain ⟨htext, halone⟩ := opening_append_of_ne hf
          (Fragment.ofText node.tail ++ (replaceNodes nodes fragments.tail).1)
        simp only [if_neg hf]
        rw [Fragment.append_assoc]
        exact ⟨htext, halone⟩
    · rw [if_neg h]
      rw [Bool.not_eq_true] at h
      rw [expandNode_eq node h]
      exact opening_append_of_ne (by simp [Fragment.ofNode]) _

/-- **The text that opens the content with its markers replaced.** -/
theorem replaceMarkers_opening (root : Fragment) (fragments : List Fragment) :
    (replaceMarkers root fragments).text = (opening root fragments).1 ∧
      (replaceMarkers root fragments).children.isEmpty = (opening root fragments).2 := by
  obtain ⟨htext, halone⟩ := replaceNodes_opening root.children fragments
  rw [replaceMarkers, Fragment.text_append, opening]
  exact ⟨congrArg (root.text ++ ·) htext, halone⟩

/-! ## The expansion, read again -/

section

variable {J D A : Type} {lxml : LxmlHtml} {site : Site J D A}

/-- The expansion of the content is read as the parsed content with every top-level marker replaced by its
parsed rendering. -/
def Faithful (lxml : LxmlHtml) (site : Site J D A) (render : Render A) (content : String) (root : Fragment)
    (fragments : List Fragment) : Prop :=
  ∃ out, (expandWidgets lxml site render content).result = some out ∧
    lxml.fragmentFromstring out = some (replaceMarkers root fragments)

/-- The markers of the content, rendered and parsed. -/
def Rendered (lxml : LxmlHtml) (site : Site J D A) (render : Render A) (root : Fragment)
    (fragments : List Fragment) : Prop :=
  (renderMarkers lxml site render 0 (topLevelMarkers root)).2 = some fragments

theorem expandWidgets_mentions {content : String} (hmentions : mentionsWidget content = true) {root : Fragment}
    (hroot : lxml.fragmentFromstring content = some root) {render : Render A} {fragments : List Fragment}
    (h : Rendered lxml site render root fragments) :
    (expandWidgets lxml site render content).result = some (serialize lxml (replaceMarkers root fragments)) := by
  have hne : content ≠ "" := by
    rintro rfl
    revert hmentions
    decide
  unfold Rendered at h
  simp [expandWidgets, hne, hmentions, hroot, h, expandChildren_root]

theorem expandWidgets_not_mentions {content : String} (hmentions : mentionsWidget content = false)
    (render : Render A) : (expandWidgets lxml site render content).result = some content := by
  by_cases hne : content = "" <;> simp [expandWidgets, hne, hmentions]

/-- Markers that are all rendered as nothing. -/
theorem renderMarkers_empty (hempty : lxml.fragmentFromstring "" = some (Fragment.ofText "")) (k : ℕ)
    (markers : List Node) :
    (renderMarkers lxml site (fun _ _ => some "") k markers).2
      = some (List.replicate markers.length (Fragment.ofText "")) := by
  induction markers generalizing k with
  | nil => rfl
  | cons node markers ih =>
    have hmarkup : (renderMarker site (fun _ _ => some "") k node).2 = "" := by
      unfold renderMarker
      simp only
      split
      · rfl
      · split <;> rfl
    rw [renderMarkers]
    simp only [hmarkup, hempty, ih (k + 1)]
    rfl

/-- A content that does not spell the tag is left alone: its tree must have no marker. -/
theorem faithful_iff_of_not_mentions (hempty : lxml.fragmentFromstring "" = some (Fragment.ofText ""))
    {content : String} {root : Fragment} (hmentions : mentionsWidget content = false)
    (hroot : lxml.fragmentFromstring content = some root) :
    (∀ render fragments, Rendered lxml site render root fragments →
      Faithful lxml site render content root fragments) ↔ widgetNodes root = [] := by
  constructor
  · intro hfaithful
    let blank := List.replicate (topLevelMarkers root).length (Fragment.ofText "")
    obtain ⟨out, hout, hparse⟩ := hfaithful _ blank (renderMarkers_empty hempty 0 (topLevelMarkers root))
    rw [expandWidgets_not_mentions hmentions, Option.some.injEq] at hout
    rw [← hout, hroot, Option.some.injEq] at hparse
    -- with nothing rendered no marker is left, and the content is its own expansion
    have hlacks : LacksAll widgetTag (replaceMarkers root blank).children := by
      apply replaceMarkers_lacks root
      intro f hf
      rw [List.eq_of_mem_replicate hf]
      exact True.intro
    rw [← hparse] at hlacks
    exact (visitsAll_filter root.children ["div"]).2 hlacks
  · intro hnone render fragments _
    have hlacks := (visitsAll_filter root.children ["div"]).1 hnone
    exact ⟨content, expandWidgets_not_mentions hmentions render, by rw [hroot, replaceMarkers_of_lacks hlacks]⟩

/-- A content that spells the tag is written out with its markers replaced: what opens the result must be a text
that is read as it stands. -/
theorem faithful_iff_of_mentions {reads : String → Bool → Prop} (h : lxml.Lawful reads) {content : String}
    {root : Fragment} (hmentions : mentionsWidget content = true)
    (hroot : lxml.fragmentFromstring content = some root) {render : Render A} {fragments : List Fragment}
    (hrender : Rendered lxml site render root fragments)
    (hgiven : lxml.GivesBack (replaceMarkers root fragments)) :
    Faithful lxml site render content root fragments ↔
      reads (opening root fragments).1 (opening root fragments).2 := by
  obtain ⟨htext, halone⟩ := replaceMarkers_opening root fragments
  have hexpand := expandWidgets_mentions hmentions hroot hrender
  rw [← htext, ← halone, ← h.raw _ hgiven]
  constructor
  · rintro ⟨out, hout, hparse⟩
    rw [hexpand, Option.some.injEq] at hout
    rw [← hout] at hparse
    exact hparse
  · intro hread
    exact ⟨_, hexpand, hread⟩

/-- **The expansion of a content is read as it should be exactly when the text that opens it need not be
escaped**: the text the content opens with, and what the renderings of the markers that come first add to it.  A
content that does not spell the tag is read as it should be, whatever is rendered, exactly when it has no marker. -/
theorem expansion_faithful_iff {reads : String → Bool → Prop} (h : lxml.Lawful reads) {content : String}
    {root : Fragment} (hroot : lxml.fragmentFromstring content = some root) :
    (mentionsWidget content = true → ∀ render fragments, Rendered lxml site render root fragments →
        lxml.GivesBack (replaceMarkers root fragments) →
        (Faithful lxml site render content root fragments ↔
          reads (opening root fragments).1 (opening root fragments).2)) ∧
      (mentionsWidget content = false →
        ((∀ render fragments, Rendered lxml site render root fragments →
          Faithful lxml site render content root fragments) ↔ widgetNodes root = [])) :=
  ⟨fun hmentions _ _ hrender hgiven => faithful_iff_of_mentions h hmentions hroot hrender hgiven,
    fun hmentions => faithful_iff_of_not_mentions h.empty hmentions hroot⟩

end

/-! ## On a small language -/

theorem renderMarkers_proper {site : Site Unit Unit Unit} {render : Render Unit} {k : ℕ} {markers : List Node}
    {fragments : List Fragment} (hrender : (renderMarkers plainHtml site render k markers).2 = some fragments) :
    ∀ f ∈ fragments, Markup.Proper f.children := by
  induction markers generalizing k fragments with
  | nil =>
    simp only [renderMarkers, Option.some.injEq] at hrender
    simp [← hrender]
  | cons node markers ih =>
    rw [renderMarkers] at hrender
    cases hparse : plainHtml.fragmentFromstring (renderMarker site render k node).2 with
    | none => simp [hparse] at hrender
    | some fragment =>
      simp only [hparse, Option.map_eq_some_iff] at hrender
      obtain ⟨rest, hrest, rfl⟩ := hrender
      intro f hf
      rcases List.mem_cons.1 hf with rfl | hf
      · exact Markup.parse_proper hparse
      · exact ih hrest f hf

/-- In the small language every expanded tree is given back. -/
theorem plainHtml_givesBack_expanded {site : Site Unit Unit Unit} {render : Render Unit} {content : String}
    {root : Fragment} (hroot : plainHtml.fragmentFromstring content = some root) {fragments : List Fragment}
    (hrender : Rendered plainHtml site render root fragments) :
    plainHtml.GivesBack (replaceMarkers root fragments) :=
  Markup.parse_serialize _ (replaceMarkers_named (Markup.parse_proper hroot) (renderMarkers_proper hrender))

theorem eq_some_getD {α : Type} {o : Option α} (h : o.isSome = true) (a : α) : o = some (o.getD a) := by
  cases o with
  | none => cases h
  | some g => rfl

def parsed (content : String) : Fragment := (plainHtml.fragmentFromstring content).getD (Fragment.ofText "")

def rendered (render : Render Unit) (content : String) : List Fragment :=
  (renderMarkers plainHtml clockSite render 0 (topLevelMarkers (parsed content))).2.getD []

/-- A marker that comes first, with an escaped text behind it. -/
def noonContent : String := "<t-widget name=\"clock\"></t-widget> &lt; noon<p>&amp;</p>"

def noonRender : Render Unit := fun _ _ => some "at <b>12:00</b>"

theorem noonContent_parsed : plainHtml.fragmentFromstring noonContent = some (parsed noonContent) := by
  have hsome : (plainHtml.fragmentFromstring noonContent).isSome = true := by decide +kernel
  exact eq_some_getD hsome _

theorem noonContent_rendered :
    Rendered plainHtml clockSite noonRender (parsed noonContent) (rendered noonRender noonContent) := by
  have hsome : (renderMarkers plainHtml clockSite noonRender 0 (topLevelMarkers (parsed noonContent))).2.isSome
      = true := by decide +kernel
  exact eq_some_getD hsome _

/-- The page opens with the text that what is rendered opens with. -/
theorem noonContent_opening :
    opening (parsed noonContent) (rendered noonRender noonContent) = ("at ", false) := by decide +kernel

theorem expansion_faithful_iff_sample :
    Faithful plainHtml clockSite noonRender noonContent (parsed noonContent) (rendered noonRender noonContent) := by
  have hmentions : mentionsWidget noonContent = true := by decide +kernel
  have hreads : '<' ∉ "at ".toList ∧ Markup.decode "at ".toList = "at ".toList := by decide
  have hgiven := plainHtml_givesBack_expanded noonContent_parsed noonContent_rendered
  have hiff := (expansion_faithful_iff plainHtml_lawful noonContent_parsed).1 hmentions noonRender
    (rendered noonRender noonContent) noonContent_rendered hgiven
  rw [noonContent_opening] at hiff
  exact hiff.2 hreads

def quotedContent : String := "&lt;b&gt;x&lt;/b&gt;<t-widget name=\"clock\"></t-widget>"

theorem quotedContent_parsed : plainHtml.fragmentFromstring quotedContent = some (parsed quotedContent) := by
  have hsome : (plainHtml.fragmentFromstring quotedContent).isSome = true := by decide +kernel
  exact eq_some_getD hsome _

theorem quotedContent_rendered :
    Rendered plainHtml clockSite (fun _ _ => some "") (parsed quotedContent) [Fragment.ofText ""] := by
  have hlength : (topLevelMarkers (parsed quotedContent)).length = 1 := by decide +kernel
  rw [Rendered, renderMarkers_empty plainHtml_lawful.empty 0, hlength]
  rfl

/-- The text `<b>x</b>` in front of a marker comes out as an element, in a language that gives every tree back. -/
theorem text_becomes_markup :
    clockValidator.call plainHtml clockSite (fun _ => []) quotedContent = .ok () ∧
    plainHtml.fragmentFromstring quotedContent = some (parsed quotedContent) ∧
    Rendered plainHtml clockSite (fun _ _ => some "") (parsed quotedContent) [Fragment.ofText ""] ∧
    plainHtml.GivesBack (replaceMarkers (parsed quotedContent) [Fragment.ofText ""]) ∧
    (expandWidgets plainHtml clockSite (fun _ _ => some "") quotedContent).result = some "<b>x</b>" ∧
    ¬ Faithful plainHtml clockSite (fun _ _ => some "") quotedContent (parsed quotedContent)
      [Fragment.ofText ""] := by
  have hresult : (expandWidgets plainHtml clockSite (fun _ _ => some "") quotedContent).result
      = some "<b>x</b>" := by decide +kernel
  refine ⟨by decide +kernel, quotedContent_parsed, quotedContent_rendered,
    plainHtml_givesBack_expanded quotedContent_parsed quotedContent_rendered, hresult, ?_⟩
  rintro ⟨out, hout, hparse⟩
  rw [hresult, Option.some.injEq] at hout
  subst hout
  -- the result has an element, the replaced tree has none
  have hread : (plainHtml.fragmentFromstring "<b>x</b>").map (fun f => f.children.length) = some 1 := by
    decide +kernel
  have hleft : (replaceMarkers (parsed quotedContent) [Fragment.ofText ""]).children.length = 0 := by
    decide +kernel
  rw [hparse, Option.map_some, hleft] at hread
  cases hread

end Totem.Html
