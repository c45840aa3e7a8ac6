import Mathlib.Data.List.Induction

/-!
# Totem.Lib.Markup — elements with their texts and tails

A tree of elements that keeps its texts on its nodes: an element has the text before its first child, and
every node has the text that follows it, its tail.  A fragment is what an element contains.

* `Fragment.append`: one fragment after another, the texts in between joined.  With the empty fragment this
  is a monoid, and so is what a tree contains.
* `Fragment.visits`: the elements in document order, with the tags of what they are in.
-/

namespace Totem.Lib

/-! ## Trees -/

inductive Node
  | element (tag : String) (attrib : List (String × String)) (text : String) (children : List Node)
      (tail : String)
  /-- A comment or a processing instruction. -/
  | other (source : String) (tail : String)

/-- What an element contains. -/
structure Fragment where
  text : String
  children : List Node

namespace Node

def tail : Node → String
  | .element _ _ _ _ tail => tail
  | .other _ tail => tail

/-- `node.tail += s`. -/
def addTail : Node → String → Node
  | .element tag attrib text children tail, s => .element tag attrib text children (tail ++ s)
  | .other source tail, s => .other source (tail ++ s)

def hasTag (tag : String) : Node → Bool
  | .element tag' _ _ _ _ => decide (tag' = tag)
  | .other _ _ => false

@[simp] theorem addTail_empty (n : Node) : n.addTail "" = n := by
  cases n <;> simp [addTail]

@[simp] theorem addTail_addTail (n : Node) (s t : String) : (n.addTail s).addTail t = n.addTail (s ++ t) := by
  cases n <;> simp [addTail, String.append_assoc]

end Node

/-! ## One fragment after another -/

/-- The tail of the last node, longer by `s`. -/
def pushTail : List Node → String → List Node
  | [], _ => []
  | [n], s => [n.addTail s]
  | n :: m :: ns, s => n :: pushTail (m :: ns) s

theorem pushTail_concat (ns : List Node) (n : Node) (s : String) :
    pushTail (ns ++ [n]) s = ns ++ [n.addTail s] := by
  induction ns with
  | nil => rfl
  | cons m ns ih =>
    cases ns with
    | nil => rfl
    | cons m' ns =>
      show m :: pushTail (m' :: ns ++ [n]) s = _
      rw [ih]
      rfl

@[simp] theorem pushTail_empty (ns : List Node) : pushTail ns "" = ns := by
  induction ns using List.reverseRecOn with
  | nil => rfl
  | append_singleton ns n _ => rw [pushTail_concat, Node.addTail_empty]

theorem pushTail_pushTail (ns : List Node) (s t : String) :
    pushTail (pushTail ns s) t = pushTail ns (s ++ t) := by
  induction ns using List.reverseRecOn with
  | nil => rfl
  | append_singleton ns n _ => rw [pushTail_concat, pushTail_concat, pushTail_concat, Node.addTail_addTail]

theorem pushTail_append {ms : List Node} (hms : ms ≠ []) (ns : List Node) (s : String) :
    pushTail (ns ++ ms) s = ns ++ pushTail ms s := by
  induction ms using List.reverseRecOn with
  | nil => exact absurd rfl hms
  | append_singleton ms m _ => rw [← List.append_assoc, pushTail_concat, pushTail_concat, List.append_assoc]

theorem pushTail_eq_nil {ns : List Node} {s : String} : pushTail ns s = [] ↔ ns = [] := by
  induction ns using List.reverseRecOn with
  | nil => simp [pushTail]
  | append_singleton ns n _ => simp [pushTail_concat]

@[simp] theorem length_pushTail (ns : List Node) (s : String) : (pushTail ns s).length = ns.length := by
  induction ns using List.reverseRecOn with
  | nil => rfl
  | append_singleton ns n _ => simp [pushTail_concat]

namespace Fragment

/-- Text alone. -/
def ofText (s : String) : Fragment := ⟨s, []⟩

/-- A node alone. -/
def ofNode (n : Node) : Fragment := ⟨"", [n]⟩

/-- One fragment after another: the text that opens the second one continues the last text of the first. -/
def append (f g : Fragment) : Fragment :=
  if f.children = [] then ⟨f.text ++ g.text, g.children⟩ else ⟨f.text, pushTail f.children g.text ++ g.children⟩

instance : Append Fragment := ⟨append⟩

theorem append_of_nil {f : Fragment} (h : f.children = []) (g : Fragment) :
    f ++ g = ⟨f.text ++ g.text, g.children⟩ := if_pos h

theorem append_of_ne {f : Fragment} (h : f.children ≠ []) (g : Fragment) :
    f ++ g = ⟨f.text, pushTail f.children g.text ++ g.children⟩ := if_neg h

theorem text_append (s : String) (g : Fragment) : ofText s ++ g = ⟨s ++ g.text, g.children⟩ := rfl

@[simp] theorem empty_append (f : Fragment) : ofText "" ++ f = f := by
  simp [text_append]

@[simp] theorem append_empty (f : Fragment) : f ++ ofText "" = f := by
  by_cases h : f.children = []
  · rw [append_of_nil h]
    simp [ofText, ← h]
  · rw [append_of_ne h]
    simp [ofText]

theorem append_eq_nil {f g : Fragment} : (f ++ g).children = [] ↔ f.children = [] ∧ g.children = [] := by
  by_cases h : f.children = []
  · rw [append_of_nil h]
    simp [h]
  · rw [append_of_ne h]
    simp [h, pushTail_eq_nil]

theorem append_assoc (f g h : Fragment) : f ++ g ++ h = f ++ (g ++ h) := by
  by_cases hf : f.children = []
  · by_cases hg : g.children = []
    · rw [append_of_nil (append_eq_nil.2 ⟨hf, hg⟩), append_of_nil hf, append_of_nil hf, append_of_nil hg,
        String.append_assoc]
    · rw [append_of_ne (fun h => hg (append_eq_nil.1 h).2), append_of_nil hf, append_of_nil hf, append_of_ne hg]
  · rw [append_of_ne (fun h => hf (append_eq_nil.1 h).1), append_of_ne hf, append_of_ne hf]
    by_cases hg : g.children = []
    · simp [append_of_nil hg, hg, pushTail_pushTail]
    · simp [append_of_ne hg, pushTail_append hg, List.append_assoc]

/-- A node after a fragment is one more child. -/
theorem append_node (f : Fragment) (n : Node) : f ++ ofNode n = ⟨f.text, f.children ++ [n]⟩ := by
  by_cases h : f.children = []
  · rw [append_of_nil h]
    simp [ofNode, h]
  · rw [append_of_ne h]
    simp [ofNode]

end Fragment

/-! ## Document order -/

mutual

/-- The elements at and below a node in document order, each with the tags of the elements it is in. -/
def Node.visits (ancestors : List String) : Node → List (Node × List String)
  | .element tag attrib text children tail =>
      (.element tag attrib text children tail, ancestors) :: visitsAll (tag :: ancestors) children
  | .other _ _ => []

def visitsAll (ancestors : List String) : List Node → List (Node × List String)
  | [] => []
  | n :: ns => n.visits ancestors ++ visitsAll ancestors ns

end

/-! ## Names -/

section Named

variable (name other : String → Prop)

mutual

/-- Every tag and every attribute below has a `name`, and every other node is one of `other`. -/
def Node.Named : Node → Prop
  | .element tag attrib _ children _ => name tag ∧ (∀ a ∈ attrib, name a.1) ∧ NamedAll children
  | .other source _ => other source

def NamedAll : List Node → Prop
  | [] => True
  | n :: ns => n.Named ∧ NamedAll ns

end

variable {name other}

theorem namedAll_iff {ns : List Node} : NamedAll name other ns ↔ ∀ n ∈ ns, n.Named name other := by
  induction ns with
  | nil => simp [NamedAll]
  | cons n ns ih => simp [NamedAll, ih]

theorem namedAll_append {ns ms : List Node} :
    NamedAll name other (ns ++ ms) ↔ NamedAll name other ns ∧ NamedAll name other ms := by
  simp only [namedAll_iff, List.mem_append]
  exact ⟨fun h => ⟨fun n hn => h n (Or.inl hn), fun n hn => h n (Or.inr hn)⟩,
    fun h n hn => hn.elim (h.1 n) (h.2 n)⟩

theorem Node.named_addTail {n : Node} {s : String} : (n.addTail s).Named name other ↔ n.Named name other := by
  cases n <;> simp [Node.addTail, Node.Named]

theorem namedAll_pushTail {ns : List Node} {s : String} :
    NamedAll name other (pushTail ns s) ↔ NamedAll name other ns := by
  induction ns using List.reverseRecOn with
  | nil => rfl
  | append_singleton ns n _ =>
    rw [pushTail_concat, namedAll_append, namedAll_append]
    simp [NamedAll, Node.named_addTail]

theorem Fragment.namedAll_append {f g : Fragment} :
    NamedAll name other (f ++ g).children ↔ NamedAll name other f.children ∧ NamedAll name other g.children := by
  by_cases h : f.children = []
  · rw [append_of_nil h, h]
    simp [NamedAll]
  · rw [append_of_ne h, Lib.namedAll_append, namedAll_pushTail]

end Named

/-! ## Elements with a tag -/

mutual

/-- No element at or below the node has the tag. -/
def Node.Lacks (t : String) : Node → Prop
  | .element tag _ _ children _ => tag ≠ t ∧ LacksAll t children
  | .other _ _ => True

def LacksAll (t : String) : List Node → Prop
  | [] => True
  | n :: ns => n.Lacks t ∧ LacksAll t ns

end

theorem lacksAll_iff {t : String} {ns : List Node} : LacksAll t ns ↔ ∀ n ∈ ns, n.Lacks t := by
  induction ns with
  | nil => simp [LacksAll]
  | cons n ns ih => simp [LacksAll, ih]

theorem Node.lacks_addTail {t : String} {n : Node} {s : String} : (n.addTail s).Lacks t ↔ n.Lacks t := by
  cases n <;> simp [Node.addTail, Node.Lacks]

theorem lacksAll_pushTail {t : String} {ns : List Node} {s : String} :
    LacksAll t (pushTail ns s) ↔ LacksAll t ns := by
  induction ns using List.reverseRecOn with
  | nil => rfl
  | append_singleton ns n _ => simp [pushTail_concat, lacksAll_iff, or_imp, forall_and, Node.lacks_addTail]

theorem Fragment.lacksAll_append {t : String} {f g : Fragment} :
    LacksAll t (f ++ g).children ↔ LacksAll t f.children ∧ LacksAll t g.children := by
  by_cases h : f.children = []
  · rw [append_of_nil h, h]
    simp [LacksAll]
  · rw [append_of_ne h, lacksAll_iff]
    simp only [List.mem_append, or_imp, forall_and, ← lacksAll_iff, lacksAll_pushTail]

mutual

theorem Node.visits_filter {t : String} (n : Node) (ancestors : List String) :
    (n.visits ancestors).filter (fun v => v.1.hasTag t) = [] ↔ n.Lacks t := by
  match n with
  | .other _ _ => simp [Node.visits, Node.Lacks]
  | .element tag attrib text children tail =>
    have hchildren := visitsAll_filter (t := t) children (tag :: ancestors)
    rw [Node.visits, List.filter_cons]
    by_cases h : tag = t
    · simp [Node.hasTag, Node.Lacks, h]
    · have hhead : (Node.element tag attrib text children tail).hasTag t = false := by simp [Node.hasTag, h]
      rw [if_neg (by simp [hhead]), hchildren]
      simp [Node.Lacks, h]

theorem visitsAll_filter {t : String} (ns : List Node) (ancestors : List String) :
    (visitsAll ancestors ns).filter (fun v => v.1.hasTag t) = [] ↔ LacksAll t ns := by
  match ns with
  | [] => simp [visitsAll, LacksAll]
  | n :: ns =>
    rw [visitsAll, List.filter_append, List.append_eq_nil_iff, n.visits_filter ancestors,
      visitsAll_filter ns ancestors]
    rfl

end

end Totem.Lib
