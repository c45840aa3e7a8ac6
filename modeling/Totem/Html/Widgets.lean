import Mathlib.Data.List.Infix
import Totem.Lib.Markup

/-!
# Totem.Html.Widgets — the markers of a content and what they expand to

`core.html_widget`.  A marker is a `t-widget` element; `expand_widgets` parses the content, renders every
top-level marker and splices the rendering into the tree in its place, then writes the tree out.  What lxml,
the registry, `json` and the widgets do is a parameter.

* `splice_eq`: a splice puts the parsed rendering where the marker was, and the marker's tail after it.
* `expandChildren_eq`: the loop over the markers, with its moving indices, replaces every top-level marker.
-/

namespace Totem.Html

open Lib

/-! ## Marker format -/

def widgetTag : String := "t-widget"

def widgetNameAttr : String := "name"

def widgetAttrsAttr : String := "attrs"

def widgetMaxCount : ℕ := 20

/-! ## What the module is given -/

/-- lxml's HTML parser and its serializer. -/
structure LxmlHtml where
  /-- What the `div` of `fragment_fromstring(s, create_parent="div")` holds; `none` where it raises. -/
  fragmentFromstring : String → Option Fragment
  /-- A text as a serialized tree has it. -/
  escape : String → String
  tostring : Node → String

/-- A registered widget: `D` are JSON objects, `A` validated attributes. -/
structure Widget (D A : Type) where
  id : String
  /-- `none` where pydantic raises. -/
  validateAttributes : D → Option A

/-- The registry and `json`; `J` are JSON values. -/
structure Site (J D A : Type) where
  registry : List (Widget D A)
  /-- `none` where the string is not JSON. -/
  loads : String → Option J
  /-- The value as a `dict`. -/
  asDict : J → Option D
  /-- `{}`. -/
  emptyDict : D

/-- A call of a widget's `render`. -/
structure Call (A : Type) where
  widget : String
  attributes : A

/-- The string each widget renders in the k-th call of a page; `none` where it raises. -/
abbrev Render (A : Type) := ℕ → Call A → Option String

variable {J D A : Type}

def getWidget (site : Site J D A) (widgetId : String) : Option (Widget D A) :=
  site.registry.find? fun w => w.id = widgetId

/-- `str.isspace`. -/
def isSpace (c : Char) : Bool :=
  let n := c.toNat
  (9 ≤ n && n ≤ 13) || (28 ≤ n && n ≤ 32) || n = 0x85 || n = 0xA0 || n = 0x1680 || (0x2000 ≤ n && n ≤ 0x200A)
    || n = 0x2028 || n = 0x2029 || n = 0x202F || n = 0x205F || n = 0x3000

/-- `s.strip()`. -/
def strip (s : String) : String :=
  String.ofList ((s.toList.dropWhile isSpace).reverse.dropWhile isSpace).reverse

/-- `node.get(name)`. -/
def nodeGet (node : Node) (name : String) : Option String :=
  match node with
  | .element _ attrib _ _ _ => attrib.lookup name
  | .other _ _ => none

/-- `WIDGET_TAG in content`. -/
def mentionsWidget (content : String) : Bool :=
  decide (widgetTag.toList <:+: content.toList)

/-- The markers of a parsed content that are not inside another one, in document order. -/
def topLevelMarkers (root : Fragment) : List Node :=
  ((visitsAll ["div"] root.children).filter fun v =>
    v.1.hasTag widgetTag && !v.2.any fun ancestor => decide (ancestor = widgetTag)).map Prod.fst

/-! ## Splicing -/

/-- `push_text` of `_splice`: text goes on the node before the marker, or on the parent. -/
def pushText (parent : Fragment) (index : ℕ) (text : String) : Fragment :=
  if text = "" then parent
  else if index = 0 then { parent with text := parent.text ++ text }
  else { parent with children := parent.children.modify (index - 1) fun previous => previous.addTail text }

/-- `parent.insert(index + offset, child)` for each child. -/
def insertAll (nodes : List Node) (index : ℕ) : List Node → List Node
  | [] => nodes
  | child :: children => insertAll (nodes.insertIdx index child) (index + 1) children

/-- Replaces the marker at `index` of `parent` by `fragment`, the parsed rendering. -/
def splice (parent : Fragment) (index : ℕ) (node : Node) (fragment : Fragment) : Fragment :=
  let parent := pushText parent index fragment.text
  -- the marker's own tail ends up after everything inserted
  let children := pushTail fragment.children node.tail
  let parent := if children ≠ [] then parent else pushText parent index node.tail
  { parent with children := (insertAll parent.children index children).eraseIdx (index + children.length) }

mutual

/-- The markers below a node that is none; `fragments` are the parsed renderings still to come. -/
def expandNode : Node → List Fragment → Node × List Fragment
  | .element tag attrib text children tail, fragments =>
      let (inside, fragments) := expandChildren children ⟨text, children⟩ 0 fragments
      (.element tag attrib inside.text inside.children tail, fragments)
  | .other source tail, fragments => (.other source tail, fragments)

/-- The markers in and below the nodes that stand in `parent` from `index` on. -/
def expandChildren : List Node → Fragment → ℕ → List Fragment → Fragment × List Fragment
  | [], parent, _, fragments => (parent, fragments)
  | node :: nodes, parent, index, fragments =>
      if node.hasTag widgetTag then
        let fragment := fragments.headD (Fragment.ofText "")
        expandChildren nodes (splice parent index node fragment) (index + fragment.children.length) fragments.tail
      else
        let (node, fragments) := expandNode node fragments
        expandChildren nodes { parent with children := parent.children.set index node } (index + 1) fragments

end

/-! ## Rendering -/

section Expansion

variable (lxml : LxmlHtml) (site : Site J D A) (render : Render A)

/-- The validated `attrs` of a marker: the `try` that `_render_marker` and `_validate_widgets` both have. -/
def loadAttributes (widget : Widget D A) (node : Node) : Option A := do
  let rawAttributes := (nodeGet node widgetAttrsAttr).getD ""
  let parsed ← if rawAttributes ≠ "" then site.loads rawAttributes >>= site.asDict else some site.emptyDict
  widget.validateAttributes parsed

/-- The HTML one marker expands to, and the call of its widget's `render` if it comes to that. -/
def renderMarker (k : ℕ) (node : Node) : Option (Call A) × String :=
  let name := strip ((nodeGet node widgetNameAttr).getD "")
  match getWidget site name with
  | none => (none, "")
  | some widget =>
      match loadAttributes site widget node with
      | none => (none, "")
      | some attributes => (some ⟨widget.id, attributes⟩, (render k ⟨widget.id, attributes⟩).getD "")

/-- The renderings of the markers, parsed, and the calls that were made; `none` from the first rendering that
does not parse. -/
def renderMarkers : ℕ → List Node → List (Call A) × Option (List Fragment)
  | _, [] => ([], some [])
  | k, node :: markers =>
      let (call, markup) := renderMarker site render k node
      match lxml.fragmentFromstring markup with
      | none => (call.toList, none)
      | some fragment =>
          let (calls, fragments) := renderMarkers (k + 1) markers
          (call.toList ++ calls, fragments.map (fragment :: ·))

/-- The children of the synthetic root written out, after its text. -/
def serialize (root : Fragment) : String := root.text ++ String.join (root.children.map lxml.tostring)

structure Expanded (A : Type) where
  markers : List Node
  calls : List (Call A)
  /-- `none` where `expand_widgets` raises. -/
  result : Option String

def expandWidgets (content : String) : Expanded A :=
  if content = "" then ⟨[], [], some ""⟩
  else if mentionsWidget content = false then ⟨[], [], some content⟩
  else
    match lxml.fragmentFromstring content with
    | none => ⟨[], [], some content⟩
    | some root =>
        let markers := topLevelMarkers root
        let (calls, fragments) := renderMarkers lxml site render 0 markers
        ⟨markers, calls, fragments.map fun fragments => serialize lxml (expandChildren root.children root 0 fragments).1⟩

end Expansion

/-! ## Every top-level marker replaced -/

mutual

/-- What a node becomes when every top-level marker is replaced by the next fragment. -/
def replaceNode : Node → List Fragment → Fragment × List Fragment
  | .element tag attrib text children tail, fragments =>
      if tag = widgetTag then
        (fragments.headD (Fragment.ofText "") ++ Fragment.ofText tail, fragments.tail)
      else
        let (inside, fragments) := replaceNodes children fragments
        let inside := Fragment.ofText text ++ inside
        (Fragment.ofNode (.element tag attrib inside.text inside.children tail), fragments)
  | .other source tail, fragments => (Fragment.ofNode (.other source tail), fragments)

def replaceNodes : List Node → List Fragment → Fragment × List Fragment
  | [], fragments => (Fragment.ofText "", fragments)
  | node :: nodes, fragments =>
      let (f, fragments) := replaceNode node fragments
      let (g, fragments) := replaceNodes nodes fragments
      (f ++ g, fragments)

end

/-- The content with each top-level marker replaced by the parsed rendering. -/
def replaceMarkers (root : Fragment) (fragments : List Fragment) : Fragment :=
  Fragment.ofText root.text ++ (replaceNodes root.children fragments).1

/-! ## The splices replace -/

/-- A fragment with nodes after it. -/
def withRest (f : Fragment) (rest : List Node) : Fragment := ⟨f.text, f.children ++ rest⟩

@[simp] theorem withRest_nil (f : Fragment) : withRest f [] = f := by
  simp [withRest]

theorem withRest_cons (f : Fragment) (n : Node) (rest : List Node) :
    withRest f (n :: rest) = withRest (f ++ Fragment.ofNode n) rest := by
  rw [Fragment.append_node]
  simp [withRest]

theorem modify_append_cons {α : Type*} (ns : List α) (n : α) (rest : List α) (f : α → α) :
    (ns ++ n :: rest).modify ns.length f = ns ++ f n :: rest := by
  induction ns with
  | nil => rfl
  | cons m ns ih => simp [ih]

theorem pushText_eq (f : Fragment) (rest : List Node) (s : String) :
    pushText (withRest f rest) f.children.length s = withRest (f ++ Fragment.ofText s) rest := by
  unfold pushText
  by_cases hs : s = ""
  · rw [if_pos hs, hs, Fragment.append_empty]
  · rw [if_neg hs]
    obtain ⟨t, ns⟩ := f
    induction ns using List.reverseRecOn with
    | nil => rfl
    | append_singleton ns n _ =>
      have hlength : (ns ++ [n]).length - 1 = ns.length := by simp
      have happend : (⟨t, ns ++ [n]⟩ : Fragment) ++ Fragment.ofText s = ⟨t, ns ++ [n.addTail s]⟩ := by
        rw [Fragment.append_of_ne (by simp)]
        simp [Fragment.ofText, pushTail_concat]
      rw [if_neg (by simp), hlength, happend]
      simp [withRest, modify_append_cons]

theorem insertIdx_append {α : Type*} (ns : List α) (n : α) (rest : List α) :
    (ns ++ rest).insertIdx ns.length n = ns ++ n :: rest := by
  induction ns with
  | nil => rfl
  | cons m ns ih => simp [ih]

theorem eraseIdx_append {α : Type*} (ns : List α) (n : α) (rest : List α) :
    (ns ++ n :: rest).eraseIdx ns.length = ns ++ rest := by
  induction ns with
  | nil => rfl
  | cons m ns ih => simp [ih]

theorem insertAll_append (ns rest children : List Node) :
    insertAll (ns ++ rest) ns.length children = ns ++ children ++ rest := by
  induction children generalizing ns with
  | nil => simp [insertAll]
  | cons child children ih =>
    have hns : ns ++ child :: rest = (ns ++ [child]) ++ rest := by simp
    have hlength : ns.length + 1 = (ns ++ [child]).length := by simp
    rw [insertAll, insertIdx_append, hns, hlength, ih]
    simp

theorem length_children_append (f : Fragment) (g : Fragment) :
    (f ++ g).children.length = f.children.length + g.children.length := by
  by_cases h : f.children = []
  · rw [Fragment.append_of_nil h]
    simp [h]
  · rw [Fragment.append_of_ne h]
    simp

theorem append_mk (f : Fragment) (s : String) (ns : List Node) :
    f ++ (⟨s, ns⟩ : Fragment) = withRest (f ++ Fragment.ofText s) ns := by
  by_cases h : f.children = []
  · rw [Fragment.append_of_nil h, Fragment.append_of_nil h]
    simp [withRest, Fragment.ofText]
  · rw [Fragment.append_of_ne h, Fragment.append_of_ne h]
    simp [withRest, Fragment.ofText]

/-- **A splice puts the rendering where the marker was and the marker's tail after it.** -/
theorem splice_eq (f : Fragment) (node : Node) (rest : List Node) (g : Fragment) :
    splice (withRest f (node :: rest)) f.children.length node g
      = withRest (f ++ (g ++ Fragment.ofText node.tail)) rest := by
  -- the parent once the texts have moved, with the children to insert
  have hinsert : ∀ (h : Fragment) (children : List Node), h.children.length = f.children.length →
      (⟨h.text, (insertAll (withRest h (node :: rest)).children f.children.length children).eraseIdx
        (f.children.length + children.length)⟩ : Fragment) = withRest (withRest h children) rest := by
    intro h children hlength
    have hlength' : f.children.length + children.length = (h.children ++ children).length := by
      rw [List.length_append, hlength]
    have hins : insertAll (withRest h (node :: rest)).children f.children.length children
        = h.children ++ children ++ node :: rest := by
      rw [← hlength]
      exact insertAll_append _ _ _
    rw [hins, hlength', eraseIdx_append]
    rfl
  have hpush : ∀ s, (f ++ Fragment.ofText s).children.length = f.children.length := by
    intro s
    rw [length_children_append]
    rfl
  unfold splice
  simp only [pushText_eq]
  obtain ⟨s, ns⟩ := g
  by_cases hns : ns = []
  · subst hns
    have hpush' := pushText_eq (f ++ Fragment.ofText s) (node :: rest) node.tail
    rw [hpush] at hpush'
    have hlength : (f ++ Fragment.ofText s ++ Fragment.ofText node.tail).children.length = f.children.length := by
      rw [length_children_append, hpush]
      rfl
    have happend : f ++ ((⟨s, []⟩ : Fragment) ++ Fragment.ofText node.tail)
        = f ++ Fragment.ofText s ++ Fragment.ofText node.tail := by
      rw [Fragment.append_assoc]
      rfl
    have hfinal := hinsert _ [] hlength
    rw [withRest_nil] at hfinal
    simp only [pushTail, ne_eq, not_true_eq_false, if_false, hpush', happend]
    exact hfinal
  · have happend : (⟨s, ns⟩ : Fragment) ++ Fragment.ofText node.tail = ⟨s, pushTail ns node.tail⟩ := by
      rw [Fragment.append_of_ne hns]
      simp [Fragment.ofText]
    have hchildren : pushTail ns node.tail ≠ [] := fun h => hns (pushTail_eq_nil.1 h)
    simp only [ne_eq, hchildren, not_false_eq_true, if_true, happend, append_mk]
    exact hinsert _ (pushTail ns node.tail) (hpush s)

theorem length_children_splice (f g : Fragment) (s : String) :
    (f ++ (g ++ Fragment.ofText s)).children.length = f.children.length + g.children.length := by
  rw [length_children_append, length_children_append]
  rfl

theorem hasTag_iff {n : Node} {t : String} :
    n.hasTag t = true ↔ ∃ attrib text children tail, n = .element t attrib text children tail := by
  cases n <;> simp [Node.hasTag]

theorem replaceNode_marker {n : Node} (h : n.hasTag widgetTag = true) (fragments : List Fragment) :
    replaceNode n fragments
      = (fragments.headD (Fragment.ofText "") ++ Fragment.ofText n.tail, fragments.tail) := by
  obtain ⟨attrib, text, children, tail, rfl⟩ := hasTag_iff.1 h
  simp [replaceNode, Node.tail]

mutual

theorem expandNode_eq (n : Node) (h : n.hasTag widgetTag = false) (fragments : List Fragment) :
    replaceNode n fragments = (Fragment.ofNode (expandNode n fragments).1, (expandNode n fragments).2) := by
  match n with
  | .other _ _ => rfl
  | .element tag attrib text children tail =>
    have hinside := expandChildren_eq children (Fragment.ofText text) fragments
    have htag : tag ≠ widgetTag := by simpa [Node.hasTag] using h
    have hroot : withRest (Fragment.ofText text) children = ⟨text, children⟩ := rfl
    have hzero : (Fragment.ofText text).children.length = 0 := rfl
    rw [hroot, hzero] at hinside
    simp only [replaceNode, if_neg htag, expandNode, hinside]

/-- **The loop over the markers replaces the top-level ones, in the order of the document.** -/
theorem expandChildren_eq (nodes : List Node) (f : Fragment) (fragments : List Fragment) :
    expandChildren nodes (withRest f nodes) f.children.length fragments
      = (f ++ (replaceNodes nodes fragments).1, (replaceNodes nodes fragments).2) := by
  match nodes with
  | [] => simp [expandChildren, replaceNodes]
  | node :: nodes =>
    rw [expandChildren, replaceNodes]
    by_cases h : node.hasTag widgetTag = true
    · rw [if_pos h, replaceNode_marker h]
      simp only [splice_eq]
      rw [← length_children_splice f _ node.tail, expandChildren_eq nodes]
      simp only [Fragment.append_assoc]
    · rw [Bool.not_eq_true] at h
      have hset : ({ withRest f (node :: nodes) with
          children := (withRest f (node :: nodes)).children.set f.children.length (expandNode node fragments).1 }
            : Fragment) = withRest (f ++ Fragment.ofNode (expandNode node fragments).1) nodes := by
        rw [← withRest_cons]
        simp [withRest]
      have hlength : f.children.length + 1
          = (f ++ Fragment.ofNode (expandNode node fragments).1).children.length := by
        rw [length_children_append]
        rfl
      rw [if_neg (by simp [h]), expandNode_eq node h]
      simp only [hset, hlength]
      rw [expandChildren_eq nodes]
      simp only [Fragment.append_assoc]

end

/-- What the loop leaves in the root. -/
theorem expandChildren_root (root : Fragment) (fragments : List Fragment) :
    (expandChildren root.children root 0 fragments).1 = replaceMarkers root fragments := by
  have h := expandChildren_eq root.children (Fragment.ofText root.text) fragments
  exact congrArg Prod.fst h

end Totem.Html
