import Mathlib.Logic.Function.Basic
import Totem.Html.Widgets
import Totem.Lib.Holes

/-!
# Totem.Html.Splicing — the splices of a page, in any order

`_splice` of `core.html_widget` on the tree that `expand_widgets` holds: the marker is looked up where it is now, in its
parent, next to the nodes that the earlier splices have left there.  The markers that are spliced are the top-level ones
of the parsed content; they are told apart by their number in it.

* `fill_spliceAt`: one splice, wherever the marker stands.
* `fill_splice`: it fills the hole of its marker and leaves the others.
* `splices_eq`: all of them, in any order, are the substitution of the markers.
-/

namespace Totem.Html

open Lib

/-! ## The tree -/

mutual

/-- The top-level markers numbered from `k` on, and the next number. -/
def markNode : Node → ℕ → Holed ℕ × ℕ
  | .element tag attrib text children tail, k =>
      if tag = widgetTag then (.hole k (.element tag attrib text children tail), k + 1)
      else
        let (children, k) := markNodes children k
        (.element tag attrib text children tail, k)
  | .other source tail, k => (.other source tail, k)

def markNodes : List Node → ℕ → List (Holed ℕ) × ℕ
  | [], k => ([], k)
  | node :: nodes, k =>
      let (node, k) := markNode node k
      let (nodes, k) := markNodes nodes k
      (node :: nodes, k)

end

/-- The parsed content, with its top-level markers. -/
def mark (root : Fragment) : HoledFragment ℕ := ⟨root.text, (markNodes root.children 0).1⟩

/-! ## One splice -/

section Splice

variable {ι : Type*}

/-- `push_text` of `_splice`. -/
def pushHoledText (parent : HoledFragment ι) (index : ℕ) (text : String) : HoledFragment ι :=
  if text = "" then parent
  else if index = 0 then { parent with text := parent.text ++ text }
  else { parent with children := parent.children.modify (index - 1) fun previous => previous.addTail text }

/-- `parent.insert(index + offset, child)` for each child. -/
def insertEach (nodes : List (Holed ι)) (index : ℕ) : List (Holed ι) → List (Holed ι)
  | [] => nodes
  | child :: children => insertEach (nodes.insertIdx index child) (index + 1) children

/-- Replaces the marker at `index` of `parent` by `fragment`, the parsed rendering. -/
def spliceAt (parent : HoledFragment ι) (index : ℕ) (node : Node) (fragment : Fragment) : HoledFragment ι :=
  let parent := pushHoledText parent index fragment.text
  -- the marker's own tail ends up after everything inserted
  let children := pushTail fragment.children node.tail
  let parent := if children ≠ [] then parent else pushHoledText parent index node.tail
  { parent with
    children := (insertEach parent.children index (plainAll children)).eraseIdx (index + children.length) }

variable [DecidableEq ι]

/-- `parent.index(node)`, with the node as it is now. -/
def findMarker (i : ι) : List (Holed ι) → Option (ℕ × Node)
  | [] => none
  | .hole j node :: nodes =>
    if j = i then some (0, node) else (findMarker i nodes).map fun found => (found.1 + 1, found.2)
  | _ :: nodes => (findMarker i nodes).map fun found => (found.1 + 1, found.2)

mutual

/-- `_splice(node, markup)` below a node, for the marker of this number. -/
def spliceNode (i : ι) (fragment : Fragment) : Holed ι → Holed ι
  | .element tag attrib text children tail =>
      match findMarker i children with
      | some (index, node) =>
          let parent := spliceAt ⟨text, children⟩ index node fragment
          .element tag attrib parent.text parent.children tail
      | none => .element tag attrib text (spliceNodes i fragment children) tail
  | .other source tail => .other source tail
  | .hole j node => .hole j node

def spliceNodes (i : ι) (fragment : Fragment) : List (Holed ι) → List (Holed ι)
  | [] => []
  | node :: nodes => spliceNode i fragment node :: spliceNodes i fragment nodes

end

/-- `_splice(node, markup)` in the tree. -/
def spliceRoot (i : ι) (fragment : Fragment) (root : HoledFragment ι) : HoledFragment ι :=
  match findMarker i root.children with
  | some (index, node) => spliceAt root index node fragment
  | none => ⟨root.text, spliceNodes i fragment root.children⟩

end Splice

/-! ## What a splice fills -/

section Fill

variable {ι : Type*} {σ : ι → Fragment}

theorem insertEach_append (ns rest children : List (Holed ι)) :
    insertEach (ns ++ rest) ns.length children = ns ++ children ++ rest := by
  induction children generalizing ns with
  | nil => simp [insertEach]
  | cons child children ih =>
    have hns : ns ++ child :: rest = (ns ++ [child]) ++ rest := by simp
    have hlength : ns.length + 1 = (ns ++ [child]).length := by simp
    rw [insertEach, insertIdx_append, hns, hlength, ih]
    simp

/-- Text that is pushed goes after what is before the marker, whatever stands there. -/
theorem pushHoledText_spec (text : String) (before rest : List (Holed ι)) (s : String) :
    ∃ text' before', pushHoledText ⟨text, before ++ rest⟩ before.length s = ⟨text', before' ++ rest⟩ ∧
      before'.length = before.length ∧ labelsAll before' = labelsAll before ∧
      ∀ σ : ι → Fragment, HoledFragment.fill σ ⟨text', before'⟩ =
        HoledFragment.fill σ ⟨text, before⟩ ++ Fragment.ofText s := by
  unfold pushHoledText
  by_cases hs : s = ""
  · refine ⟨text, before, if_pos hs, rfl, rfl, fun σ => ?_⟩
    rw [hs, Fragment.append_empty]
  · rw [if_neg hs]
    induction before using List.reverseRecOn with
    | nil => exact ⟨text ++ s, [], rfl, rfl, rfl, fun σ => by simp [HoledFragment.fill, fillAll, ofText_append_ofText]⟩
    | append_singleton before n _ =>
      have hlength : (before ++ [n]).length - 1 = before.length := by simp
      refine ⟨text, before ++ [n.addTail s], ?_, by simp, ?_, fun σ => ?_⟩
      · rw [if_neg (by simp), hlength, List.append_assoc, List.singleton_append, modify_append_cons]
        simp
      · simp [labelsAll_append]
      · simp [HoledFragment.fill, fillAll_append, fillAll, fill_addTail, Fragment.append_assoc]

/-- **A splice**: what stood before and after the marker, with the rendering and the marker's tail in between. -/
theorem spliceAt_spec (text : String) (before rest : List (Holed ι)) (i : ι) (node : Node) (g : Fragment) :
    ∃ text' before', spliceAt ⟨text, before ++ .hole i node :: rest⟩ before.length node g = ⟨text', before' ++ rest⟩ ∧
      labelsAll before' = labelsAll before ∧
      ∀ σ : ι → Fragment, HoledFragment.fill σ ⟨text', before'⟩ =
        HoledFragment.fill σ ⟨text, before⟩ ++ (g ++ Fragment.ofText node.tail) := by
  obtain ⟨text₁, before₁, hpush₁, hlength₁, hlabels₁, hfill₁⟩ :=
    pushHoledText_spec text before (.hole i node :: rest) g.text
  have hinsert : ∀ (ns : List (Holed ι)) (children : List Node), ns.length = before.length →
      (insertEach (ns ++ .hole i node :: rest) before.length (plainAll children)).eraseIdx
        (before.length + children.length) = ns ++ plainAll children ++ rest := by
    intro ns children hlength
    have hplain : (plainAll children : List (Holed ι)).length = children.length := by
      clear hlength
      induction children with
      | nil => rfl
      | cons child children ih => rw [plainAll, List.length_cons, ih, List.length_cons]
    have hlength' : before.length + children.length = (ns ++ plainAll children).length := by
      rw [List.length_append, hlength, hplain]
    rw [hlength', ← hlength, insertEach_append, eraseIdx_append]
  unfold spliceAt
  simp only [hpush₁]
  by_cases hchildren : g.children = []
  · -- text alone: the marker's tail is pushed as well
    obtain ⟨text₂, before₂, hpush₂, hlength₂, hlabels₂, hfill₂⟩ :=
      pushHoledText_spec text₁ before₁ (.hole i node :: rest) node.tail
    rw [hlength₁] at hpush₂ hlength₂
    have hpushed : pushTail g.children node.tail = [] := by rw [hchildren]; rfl
    refine ⟨text₂, before₂, ?_, hlabels₂.trans hlabels₁, fun σ => ?_⟩
    · simp only [hpushed, ne_eq, not_true_eq_false, if_false, hpush₂]
      rw [hinsert before₂ [] hlength₂]
      simp [plainAll]
    · rw [hfill₂, hfill₁, Fragment.append_of_nil hchildren, Fragment.append_assoc]
      rfl
  · have hpushed : pushTail g.children node.tail ≠ [] := fun h => hchildren (pushTail_eq_nil.1 h)
    refine ⟨text₁, before₁ ++ plainAll (pushTail g.children node.tail), ?_, ?_, fun σ => ?_⟩
    · simp only [ne_eq, hpushed, not_false_eq_true, if_true]
      rw [hinsert before₁ _ hlength₁]
    · rw [labelsAll_append, labelsAll_plainAll, List.append_nil, hlabels₁]
    · have happend : g ++ Fragment.ofText node.tail =
          Fragment.ofText g.text ++ ⟨"", pushTail g.children node.tail⟩ := by
        rw [Fragment.append_of_ne hchildren, Fragment.text_append]
        simp [Fragment.ofText]
      have hfill : HoledFragment.fill σ ⟨text₁, before₁ ++ plainAll (pushTail g.children node.tail)⟩ =
          HoledFragment.fill σ ⟨text₁, before₁⟩ ++ ⟨"", pushTail g.children node.tail⟩ := by
        rw [HoledFragment.fill, HoledFragment.fill, fillAll_append, fillAll_plainAll, Fragment.append_assoc]
      rw [hfill, hfill₁, happend, Fragment.append_assoc]

variable [DecidableEq ι] {i : ι} {g : Fragment}

theorem findMarker_eq_some {nodes : List (Holed ι)} {index : ℕ} {node : Node}
    (h : findMarker i nodes = some (index, node)) :
    ∃ before rest, nodes = before ++ .hole i node :: rest ∧ before.length = index := by
  induction nodes generalizing index node with
  | nil => cases h
  | cons n nodes ih =>
    have hlater : ∀ found : Option (ℕ × Node), found = findMarker i nodes →
        (found.map fun found => (found.1 + 1, found.2)) = some (index, node) →
        ∃ before rest, n :: nodes = before ++ .hole i node :: rest ∧ before.length = index := by
      rintro _ rfl hmap
      obtain ⟨⟨index', node'⟩, hfound, heq⟩ := Option.map_eq_some_iff.mp hmap
      obtain ⟨rfl, rfl⟩ := Prod.mk.inj heq
      obtain ⟨before, rest, rfl, rfl⟩ := ih hfound
      exact ⟨n :: before, rest, rfl, rfl⟩
    cases n with
    | element tag attrib text children tail => exact hlater _ rfl h
    | other source tail => exact hlater _ rfl h
    | hole j node' =>
      rw [findMarker] at h
      split_ifs at h with hj
      · obtain ⟨rfl, rfl⟩ := Prod.mk.inj (Option.some.inj h)
        exact ⟨[], nodes, by rw [hj]; rfl, rfl⟩
      · exact hlater _ rfl h

theorem findMarker_eq_none {nodes : List (Holed ι)} (h : findMarker i nodes = none) :
    ∀ node, .hole i node ∉ nodes := by
  induction nodes with
  | nil => exact fun node => List.not_mem_nil
  | cons n nodes ih =>
    intro node hmem
    cases n with
    | element tag attrib text children tail =>
      rcases List.mem_cons.mp hmem with heq | hmem
      · cases heq
      · exact ih (Option.map_eq_none_iff.mp h) node hmem
    | other source tail =>
      rcases List.mem_cons.mp hmem with heq | hmem
      · cases heq
      · exact ih (Option.map_eq_none_iff.mp h) node hmem
    | hole j node' =>
      rw [findMarker] at h
      split_ifs at h with hj
      rcases List.mem_cons.mp hmem with heq | hmem
      · cases heq
        exact hj rfl
      · exact ih (Option.map_eq_none_iff.mp h) node hmem

/-- A marker next to nodes without it. -/
theorem fill_update_marker {before rest : List (Holed ι)} {node : Node} (text : String)
    (hnodup : (labelsAll (before ++ .hole i node :: rest)).Nodup) (σ : ι → Fragment) :
    HoledFragment.fill (Function.update σ i g) ⟨text, before ++ .hole i node :: rest⟩ =
      HoledFragment.fill σ ⟨text, before⟩ ++ (g ++ Fragment.ofText node.tail) ++ fillAll σ rest := by
  rw [labelsAll_append, labelsAll_cons, labels_hole] at hnodup
  obtain ⟨-, hrest, hbefore⟩ := List.nodup_append.mp hnodup
  have hnotBefore : i ∉ labelsAll before := fun hmem => hbefore i hmem i (by simp) rfl
  have hnotRest : i ∉ labelsAll rest := (List.nodup_cons.mp hrest).1
  have hsame : ∀ ns : List (Holed ι), i ∉ labelsAll ns → fillAll (Function.update σ i g) ns = fillAll σ ns :=
    fun ns hns => fillAll_congr ns fun j hj => Function.update_of_ne (fun heq : j = i => hns (heq ▸ hj)) _ _
  rw [HoledFragment.fill, fillAll_append, fillAll, hsame before hnotBefore, hsame rest hnotRest, Holed.fill,
    Function.update_self, HoledFragment.fill]
  simp only [Fragment.append_assoc]

/-- **The splice of a marker**, next to nodes without it. -/
theorem fill_spliceAt {before rest : List (Holed ι)} {node : Node} (text : String)
    (hnodup : (labelsAll (before ++ .hole i node :: rest)).Nodup) (σ : ι → Fragment) :
    (spliceAt ⟨text, before ++ .hole i node :: rest⟩ before.length node g).fill σ =
      HoledFragment.fill (Function.update σ i g) ⟨text, before ++ .hole i node :: rest⟩ := by
  obtain ⟨text', before', hsplice, -, hfill⟩ := spliceAt_spec text before rest i node g
  rw [hsplice, fill_update_marker text hnodup, ← hfill, HoledFragment.fill, HoledFragment.fill, fillAll_append,
    Fragment.append_assoc]

theorem labels_spliceAt {before rest : List (Holed ι)} {node : Node} (text : String)
    (hnodup : (labelsAll (before ++ .hole i node :: rest)).Nodup) :
    labelsAll (spliceAt ⟨text, before ++ .hole i node :: rest⟩ before.length node g).children =
      (labelsAll (before ++ .hole i node :: rest)).filter fun j => decide (j ≠ i) := by
  obtain ⟨text', before', hsplice, hlabels, -⟩ := spliceAt_spec text before rest i node g
  rw [labelsAll_append, labelsAll_cons, labels_hole] at hnodup
  obtain ⟨-, hrest, hbefore⟩ := List.nodup_append.mp hnodup
  have hnotBefore : ∀ j ∈ labelsAll before, j ≠ i := fun j hj heq => hbefore j hj i (by simp) heq
  have hnotRest : ∀ j ∈ labelsAll rest, j ≠ i := fun j hj heq => (List.nodup_cons.mp hrest).1 (heq ▸ hj)
  rw [hsplice, labelsAll_append, hlabels, labelsAll_append, labelsAll_cons, labels_hole, List.filter_append,
    List.singleton_append, List.filter_cons, if_neg (by simp),
    List.filter_eq_self.mpr fun j hj => decide_eq_true (hnotBefore j hj),
    List.filter_eq_self.mpr fun j hj => decide_eq_true (hnotRest j hj)]

mutual

/-- The splice of a marker somewhere below a node. -/
theorem fill_spliceNode (n : Holed ι) (hnodup : n.labels.Nodup) (hn : ∀ node, n ≠ .hole i node) (σ : ι → Fragment) :
    (spliceNode i g n).fill σ = n.fill (Function.update σ i g) ∧
      (spliceNode i g n).labels = n.labels.filter fun j => decide (j ≠ i) := by
  match n with
  | .other source tail => exact ⟨rfl, rfl⟩
  | .hole j node =>
    have hj : j ≠ i := fun heq => hn node (heq ▸ rfl)
    refine ⟨?_, by simp [spliceNode, hj]⟩
    rw [spliceNode, Holed.fill, Holed.fill, Function.update_of_ne hj]
  | .element tag attrib text children tail =>
    rw [labels_element] at hnodup
    rw [spliceNode]
    cases hfind : findMarker i children with
    | none =>
      obtain ⟨hfill, hlabels⟩ := fill_spliceNodes children hnodup (findMarker_eq_none hfind) σ
      refine ⟨?_, hlabels⟩
      rw [Holed.fill, Holed.fill, hfill]
    | some found =>
      obtain ⟨index, node⟩ := found
      obtain ⟨before, rest, rfl, rfl⟩ := findMarker_eq_some hfind
      have hfill := fill_spliceAt (g := g) text hnodup σ
      refine ⟨?_, labels_spliceAt text hnodup⟩
      rw [Holed.fill, Holed.fill]
      exact congrArg (fun f => Fragment.ofNode (.element tag attrib f.text f.children tail)) hfill

theorem fill_spliceNodes (ns : List (Holed ι)) (hnodup : (labelsAll ns).Nodup) (hns : ∀ node, .hole i node ∉ ns)
    (σ : ι → Fragment) :
    fillAll σ (spliceNodes i g ns) = fillAll (Function.update σ i g) ns ∧
      labelsAll (spliceNodes i g ns) = (labelsAll ns).filter fun j => decide (j ≠ i) := by
  match ns with
  | [] => exact ⟨rfl, rfl⟩
  | n :: ns =>
    rw [labelsAll_cons] at hnodup
    obtain ⟨hn, hrest, -⟩ := List.nodup_append.mp hnodup
    obtain ⟨hfill, hlabels⟩ := fill_spliceNode n hn (fun node heq => hns node (heq ▸ List.mem_cons_self)) σ
    obtain ⟨hfills, hlabelss⟩ :=
      fill_spliceNodes ns hrest (fun node hmem => hns node (List.mem_cons_of_mem _ hmem)) σ
    rw [spliceNodes, fillAll, fillAll, hfill, hfills, labelsAll_cons, labelsAll_cons, hlabels, hlabelss,
      List.filter_append]
    exact ⟨rfl, rfl⟩

end

/-- **A splice fills the hole of its marker**, and leaves the others. -/
theorem fill_splice (root : HoledFragment ι) (hnodup : (labelsAll root.children).Nodup) (σ : ι → Fragment) :
    (spliceRoot i g root).fill σ = root.fill (Function.update σ i g) ∧
      labelsAll (spliceRoot i g root).children = (labelsAll root.children).filter fun j => decide (j ≠ i) := by
  obtain ⟨text, children⟩ := root
  rw [spliceRoot]
  cases hfind : findMarker i children with
  | none =>
    obtain ⟨hfill, hlabels⟩ := fill_spliceNodes children hnodup (findMarker_eq_none hfind) σ
    exact ⟨congrArg (Fragment.ofText text ++ ·) hfill, hlabels⟩
  | some found =>
    obtain ⟨index, node⟩ := found
    obtain ⟨before, rest, rfl, rfl⟩ := findMarker_eq_some hfind
    exact ⟨fill_spliceAt text hnodup σ, labels_spliceAt text hnodup⟩

/-- The splices of some markers, one after another. -/
theorem fill_splices (gs : ι → Fragment) (order : List ι) (root : HoledFragment ι)
    (hnodup : (labelsAll root.children).Nodup) (σ : ι → Fragment) :
    (order.foldl (fun root i => spliceRoot i (gs i) root) root).fill σ =
        root.fill (fun i => if i ∈ order then gs i else σ i) ∧
      labelsAll (order.foldl (fun root i => spliceRoot i (gs i) root) root).children =
        (labelsAll root.children).filter fun i => decide (i ∉ order) := by
  induction order generalizing root with
  | nil => simp
  | cons i order ih =>
    obtain ⟨hfill, hlabels⟩ := fill_splice (i := i) (g := gs i) root hnodup (fun i => if i ∈ order then gs i else σ i)
    obtain ⟨hfills, hlabelss⟩ := ih (spliceRoot i (gs i) root) (hlabels ▸ hnodup.filter _)
    rw [List.foldl_cons, hfills, hlabelss, hfill, hlabels, List.filter_filter]
    refine ⟨congrArg (fun σ => HoledFragment.fill σ root) (funext fun j => ?_), List.filter_congr fun j _ => ?_⟩
    · by_cases hj : j = i
      · subst hj
        simp
      · simp [hj]
    · simp [Bool.and_comm]

/-- **All of the splices, in any order**, leave a tree without markers, the one with all of them filled. -/
theorem splices_eq_fill (gs : ι → Fragment) {order : List ι} (root : HoledFragment ι)
    (hnodup : (labelsAll root.children).Nodup) (hall : ∀ i ∈ labelsAll root.children, i ∈ order) :
    order.foldl (fun root i => spliceRoot i (gs i) root) root = (root.fill gs).plain := by
  obtain ⟨hfill, hlabels⟩ := fill_splices gs order root hnodup gs
  have hnone : labelsAll (order.foldl (fun root i => spliceRoot i (gs i) root) root).children = [] := by
    rw [hlabels, List.filter_eq_nil_iff]
    exact fun i hi => by simpa using hall i hi
  rw [← HoledFragment.plain_fill (σ := gs) _ hnone, hfill]
  simp only [ite_self]

end Fill

/-! ## The markers of the content -/

mutual

theorem erase_markNode (n : Node) (k : ℕ) : (markNode n k).1.erase = n := by
  match n with
  | .other source tail => rfl
  | .element tag attrib text children tail =>
    rw [markNode]
    split_ifs
    · rfl
    · exact congrArg (fun children => Node.element tag attrib text children tail) (eraseAll_markNodes children k)

theorem eraseAll_markNodes (ns : List Node) (k : ℕ) : eraseAll (markNodes ns k).1 = ns := by
  match ns with
  | [] => rfl
  | n :: ns => exact congrArg₂ List.cons (erase_markNode n k) (eraseAll_markNodes ns _)

end

mutual

/-- The numbers of the markers, and the next one. -/
theorem labels_markNode (n : Node) (k : ℕ) :
    k ≤ (markNode n k).2 ∧ (markNode n k).1.labels = List.range' k ((markNode n k).2 - k) := by
  match n with
  | .other source tail => exact ⟨le_rfl, by simp [markNode]⟩
  | .element tag attrib text children tail =>
    rw [markNode]
    split_ifs
    · exact ⟨Nat.le_succ k, by simp⟩
    · exact labels_markNodes children k

theorem labels_markNodes (ns : List Node) (k : ℕ) :
    k ≤ (markNodes ns k).2 ∧ labelsAll (markNodes ns k).1 = List.range' k ((markNodes ns k).2 - k) := by
  match ns with
  | [] => exact ⟨le_rfl, by simp [markNodes]⟩
  | n :: ns =>
    obtain ⟨hle, hlabels⟩ := labels_markNode n k
    obtain ⟨hle', hlabels'⟩ := labels_markNodes ns (markNode n k).2
    refine ⟨hle.trans hle', ?_⟩
    rw [markNodes, labelsAll_cons, hlabels, hlabels']
    have hstart : (markNode n k).2 = k + ((markNode n k).2 - k) := by omega
    have hlength : (markNodes ns (markNode n k).2).2 - k =
        ((markNode n k).2 - k) + ((markNodes ns (markNode n k).2).2 - (markNode n k).2) := by omega
    rw [hlength, ← List.range'_append_1, ← hstart]

end

/-- A marker that is not inside another one. -/
def isTopLevel (v : Node × List String) : Bool :=
  v.1.hasTag widgetTag && !v.2.any fun ancestor => decide (ancestor = widgetTag)

mutual

theorem visits_below (n : Node) {ancestors : List String} (h : widgetTag ∈ ancestors) :
    ∀ v ∈ n.visits ancestors, widgetTag ∈ v.2 := by
  match n with
  | .other source tail => exact fun v hv => (List.not_mem_nil hv).elim
  | .element tag attrib text children tail =>
    rw [Node.visits, List.forall_mem_cons]
    exact ⟨h, visitsAll_below children (List.mem_cons_of_mem _ h)⟩

theorem visitsAll_below (ns : List Node) {ancestors : List String} (h : widgetTag ∈ ancestors) :
    ∀ v ∈ visitsAll ancestors ns, widgetTag ∈ v.2 := by
  match ns with
  | [] => exact fun v hv => (List.not_mem_nil hv).elim
  | n :: ns =>
    rw [visitsAll, List.forall_mem_append]
    exact ⟨visits_below n h, visitsAll_below ns h⟩

end

/-- Below a marker no marker is a top-level one. -/
theorem filter_visitsAll_below (ns : List Node) {ancestors : List String} (h : widgetTag ∈ ancestors) :
    (visitsAll ancestors ns).filter isTopLevel = [] := by
  rw [List.filter_eq_nil_iff]
  intro v hv
  have hmem := visitsAll_below ns h v hv
  simp only [isTopLevel, Bool.and_eq_true, Bool.not_eq_true', List.any_eq_false, decide_eq_true_eq, not_and]
  exact fun _ hall => hall widgetTag hmem rfl

mutual

/-- The nodes that are marked are the top-level markers. -/
theorem holes_markNode (n : Node) (k : ℕ) {ancestors : List String} (h : widgetTag ∉ ancestors) :
    (markNode n k).1.holes.map Prod.snd = ((n.visits ancestors).filter isTopLevel).map Prod.fst := by
  match n with
  | .other source tail => rfl
  | .element tag attrib text children tail =>
    rw [markNode, Node.visits, List.filter_cons]
    by_cases htag : tag = widgetTag
    · have hancestors : ∀ x ∈ ancestors, x ≠ widgetTag := fun x hx heq => h (heq ▸ hx)
      have htop : isTopLevel (.element tag attrib text children tail, ancestors) = true := by
        simpa [isTopLevel, Node.hasTag, htag] using hancestors
      rw [if_pos htag, if_pos htop, filter_visitsAll_below children (htag ▸ List.mem_cons_self)]
      rfl
    · have hnot : isTopLevel (.element tag attrib text children tail, ancestors) = false := by
        simp [isTopLevel, Node.hasTag, htag]
      have hbelow : widgetTag ∉ tag :: ancestors := by
        rw [List.mem_cons, not_or]
        exact ⟨Ne.symm htag, h⟩
      rw [if_neg htag, if_neg (by simp [hnot])]
      exact holes_markNodes children k hbelow

theorem holes_markNodes (ns : List Node) (k : ℕ) {ancestors : List String} (h : widgetTag ∉ ancestors) :
    (holesAll (markNodes ns k).1).map Prod.snd = ((visitsAll ancestors ns).filter isTopLevel).map Prod.fst := by
  match ns with
  | [] => rfl
  | n :: ns =>
    rw [markNodes, holesAll, visitsAll, List.filter_append, List.map_append, List.map_append, holes_markNode n k h,
      holes_markNodes ns _ h]

end

mutual

/-- The renderings, taken in turn, fill the markers by their numbers. -/
theorem replaceNode_mark (gs : ℕ → Fragment) (n : Node) (k last : ℕ) (hlast : (markNode n k).2 ≤ last) :
    replaceNode n ((List.range' k (last - k)).map gs) =
      ((markNode n k).1.fill gs, (List.range' (markNode n k).2 (last - (markNode n k).2)).map gs) := by
  match n with
  | .other source tail => rfl
  | .element tag attrib text children tail =>
    rw [markNode] at hlast ⊢
    rw [replaceNode]
    split_ifs at hlast ⊢
    · have hlength : last - k = last - (k + 1) + 1 := by omega
      rw [hlength, List.range'_succ]
      rfl
    · have hnodes := replaceNodes_mark gs children k last hlast
      simp only [hnodes]
      rfl

theorem replaceNodes_mark (gs : ℕ → Fragment) (ns : List Node) (k last : ℕ) (hlast : (markNodes ns k).2 ≤ last) :
    replaceNodes ns ((List.range' k (last - k)).map gs) =
      (fillAll gs (markNodes ns k).1, (List.range' (markNodes ns k).2 (last - (markNodes ns k).2)).map gs) := by
  match ns with
  | [] => rfl
  | n :: ns =>
    have hle := (labels_markNodes ns (markNode n k).2).1
    rw [replaceNodes, replaceNode_mark gs n k last (hle.trans hlast)]
    simp only [replaceNodes_mark gs ns _ last hlast]
    rfl

end

/-- **Splicing is a simultaneous substitution.**  The marked tree is the parsed content, its markers numbered in the
order of the document.  Whatever their renderings and the order of the splices, they leave the tree of the loop, which
has no markers left to splice: the tags and characters of the content in their order, and at the place of each marker
those of its rendering. -/
theorem splices_eq (root : Fragment) (gs : ℕ → Fragment) {order : List ℕ}
    (horder : order.Perm (List.range (topLevelMarkers root).length)) :
    (mark root).erase = root ∧
      holesAll (mark root).children = (List.range (topLevelMarkers root).length).zip (topLevelMarkers root) ∧
      order.foldl (fun tree i => spliceRoot i (gs i) tree) (mark root) =
        (expandChildren root.children root 0 ((List.range (topLevelMarkers root).length).map gs)).1.plain ∧
      (expandChildren root.children root 0 ((List.range (topLevelMarkers root).length).map gs)).1.tokens =
        (mark root).tokens.flatMap (expandToken gs) := by
  have hnodes : (holesAll (mark root).children).map Prod.snd = topLevelMarkers root :=
    holes_markNodes root.children 0 (by decide)
  have hlabels := (labels_markNodes root.children 0).2
  have hlength : (topLevelMarkers root).length = (markNodes root.children 0).2 := by
    have hlen := congrArg List.length hlabels
    rw [labelsAll, List.length_map, List.length_range'] at hlen
    rw [← hnodes, List.length_map]
    exact hlen
  have hrange : labelsAll (mark root).children = List.range (topLevelMarkers root).length := by
    rw [hlength, List.range_eq_range']
    exact hlabels
  have hfill : (mark root).fill gs =
      (expandChildren root.children root 0 ((List.range (topLevelMarkers root).length).map gs)).1 := by
    have hreplace := replaceNodes_mark gs root.children 0 (topLevelMarkers root).length hlength.ge
    rw [expandChildren_root, replaceMarkers, List.range_eq_range', ← Nat.sub_zero (topLevelMarkers root).length,
      hreplace]
    rfl
  refine ⟨?_, ?_, ?_, ?_⟩
  · rw [HoledFragment.erase, mark, eraseAll_markNodes]
  · rw [← hrange, ← hnodes, labelsAll]
    exact (List.zip_unzip _).symm.trans (by rw [List.unzip_eq_map])
  · rw [splices_eq_fill gs (mark root), hfill]
    · rw [hrange]
      exact List.nodup_range
    · intro i hi
      rw [hrange] at hi
      exact horder.mem_iff.mpr hi
  · rw [← hfill, tokens_fill]

/-! ### Two markers side by side -/

section Sample

/-- `a<t-widget></t-widget>b<t-widget></t-widget>c`. -/
def twoMarkers : Fragment := ⟨"a", [.element widgetTag [] "" [] "b", .element widgetTag [] "" [] "c"]⟩

/-- Text alone, then a marker of its own between two texts. -/
def twoRenderings : ℕ → Fragment
  | 0 => ⟨"x", []⟩
  | _ => ⟨"y", [.element widgetTag [] "" [] "z"]⟩

theorem splices_eq_sample :
    (mark twoMarkers).erase = twoMarkers ∧
      holesAll (mark twoMarkers).children =
        (List.range (topLevelMarkers twoMarkers).length).zip (topLevelMarkers twoMarkers) ∧
      [1, 0].foldl (fun tree i => spliceRoot i (twoRenderings i) tree) (mark twoMarkers) =
        (expandChildren twoMarkers.children twoMarkers 0
          ((List.range (topLevelMarkers twoMarkers).length).map twoRenderings)).1.plain ∧
      (expandChildren twoMarkers.children twoMarkers 0
          ((List.range (topLevelMarkers twoMarkers).length).map twoRenderings)).1.tokens =
        (mark twoMarkers).tokens.flatMap (expandToken twoRenderings) :=
  splices_eq twoMarkers twoRenderings (by decide)

end Sample

end Totem.Html
