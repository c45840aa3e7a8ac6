import Totem.Lib.Markup

/-!
# Totem.Lib.Holes — trees with holes

A tree of elements where some nodes are holes with a label.  Filling the holes puts a fragment in the place of each
node, before its tail; what a fragment puts there has no holes.

* `fill_congr`: what is filled in depends on the labels of the tree only.
* `plain_fill`: a tree without holes is what it is filled to.
* `tokens_fill`: filling is a substitution on the sequence of tags and characters.
-/

namespace Totem.Lib

/-! ## Trees -/

inductive Holed (ι : Type*)
  | element (tag : String) (attrib : List (String × String)) (text : String) (children : List (Holed ι))
      (tail : String)
  | other (source : String) (tail : String)
  /-- A hole, and the node that stands there. -/
  | hole (i : ι) (node : Node)

structure HoledFragment (ι : Type*) where
  text : String
  children : List (Holed ι)

variable {ι : Type*}

/-- `node.tail += s`. -/
def Holed.addTail : Holed ι → String → Holed ι
  | .element tag attrib text children tail, s => .element tag attrib text children (tail ++ s)
  | .other source tail, s => .other source (tail ++ s)
  | .hole i node, s => .hole i (node.addTail s)

mutual

/-- A node without holes. -/
def Node.plain : Node → Holed ι
  | .element tag attrib text children tail => .element tag attrib text (plainAll children) tail
  | .other source tail => .other source tail

def plainAll : List Node → List (Holed ι)
  | [] => []
  | n :: ns => n.plain :: plainAll ns

end

def Fragment.plain (f : Fragment) : HoledFragment ι := ⟨f.text, plainAll f.children⟩

mutual

/-- The labels of the holes, with the nodes that stand there, in document order. -/
def Holed.holes : Holed ι → List (ι × Node)
  | .element _ _ _ children _ => holesAll children
  | .other _ _ => []
  | .hole i node => [(i, node)]

def holesAll : List (Holed ι) → List (ι × Node)
  | [] => []
  | n :: ns => n.holes ++ holesAll ns

end

def Holed.labels (n : Holed ι) : List ι := n.holes.map Prod.fst

def labelsAll (ns : List (Holed ι)) : List ι := (holesAll ns).map Prod.fst

mutual

/-- The tree without the labels. -/
def Holed.erase : Holed ι → Node
  | .element tag attrib text children tail => .element tag attrib text (eraseAll children) tail
  | .other source tail => .other source tail
  | .hole _ node => node

def eraseAll : List (Holed ι) → List Node
  | [] => []
  | n :: ns => n.erase :: eraseAll ns

end

def HoledFragment.erase (f : HoledFragment ι) : Fragment := ⟨f.text, eraseAll f.children⟩

section Fill

variable (σ : ι → Fragment)

mutual

/-- Every hole filled. -/
def Holed.fill : Holed ι → Fragment
  | .element tag attrib text children tail =>
      let inside := Fragment.ofText text ++ fillAll children
      Fragment.ofNode (.element tag attrib inside.text inside.children tail)
  | .other source tail => Fragment.ofNode (.other source tail)
  | .hole i node => σ i ++ Fragment.ofText node.tail

def fillAll : List (Holed ι) → Fragment
  | [] => Fragment.ofText ""
  | n :: ns => n.fill ++ fillAll ns

end

def HoledFragment.fill (f : HoledFragment ι) : Fragment := Fragment.ofText f.text ++ fillAll σ f.children

end Fill

variable {σ τ : ι → Fragment}

@[simp] theorem labels_other (source tail : String) : (Holed.other source tail : Holed ι).labels = [] := rfl

@[simp] theorem labels_hole (i : ι) (node : Node) : (Holed.hole i node).labels = [i] := rfl

@[simp] theorem labels_element (tag : String) (attrib : List (String × String)) (text : String)
    (children : List (Holed ι)) (tail : String) :
    (Holed.element tag attrib text children tail).labels = labelsAll children := rfl

@[simp] theorem labelsAll_nil : labelsAll ([] : List (Holed ι)) = [] := rfl

@[simp] theorem labelsAll_cons (n : Holed ι) (ns : List (Holed ι)) :
    labelsAll (n :: ns) = n.labels ++ labelsAll ns := by
  simp [labelsAll, holesAll, Holed.labels]

theorem labelsAll_append (ns ms : List (Holed ι)) : labelsAll (ns ++ ms) = labelsAll ns ++ labelsAll ms := by
  induction ns with
  | nil => rfl
  | cons n ns ih => simp [ih]

@[simp] theorem labels_addTail (n : Holed ι) (s : String) : (n.addTail s).labels = n.labels := by
  cases n <;> rfl

theorem fillAll_append (ns ms : List (Holed ι)) : fillAll σ (ns ++ ms) = fillAll σ ns ++ fillAll σ ms := by
  induction ns with
  | nil => simp [fillAll]
  | cons n ns ih => rw [List.cons_append, fillAll, fillAll, ih, Fragment.append_assoc]

theorem ofText_append_ofText (s t : String) :
    Fragment.ofText s ++ Fragment.ofText t = Fragment.ofText (s ++ t) := rfl

theorem Node.ofNode_addTail (n : Node) (s : String) :
    Fragment.ofNode n ++ Fragment.ofText s = Fragment.ofNode (n.addTail s) := by
  simp [Fragment.append_of_ne, Fragment.ofNode, Fragment.ofText, pushTail]

theorem Node.tail_addTail (n : Node) (s : String) : (n.addTail s).tail = n.tail ++ s := by
  cases n <;> rfl

theorem fill_addTail (n : Holed ι) (s : String) : (n.addTail s).fill σ = n.fill σ ++ Fragment.ofText s := by
  cases n with
  | element tag attrib text children tail => rw [Holed.addTail, Holed.fill, Holed.fill, Node.ofNode_addTail]; rfl
  | other source tail => rw [Holed.addTail, Holed.fill, Holed.fill, Node.ofNode_addTail]; rfl
  | hole i node =>
    rw [Holed.addTail, Holed.fill, Holed.fill, Node.tail_addTail, Fragment.append_assoc, ofText_append_ofText]

/-! ## Trees without holes -/

mutual

theorem Node.labels_plain (n : Node) : (n.plain : Holed ι).labels = [] := by
  match n with
  | .element tag attrib text children tail => exact labelsAll_plainAll children
  | .other source tail => rfl

theorem labelsAll_plainAll (ns : List Node) : labelsAll (plainAll ns : List (Holed ι)) = [] := by
  match ns with
  | [] => rfl
  | n :: ns => rw [plainAll, labelsAll_cons, n.labels_plain, labelsAll_plainAll ns]; rfl

end

mutual

theorem Node.fill_plain (n : Node) : n.plain.fill σ = Fragment.ofNode n := by
  match n with
  | .element tag attrib text children tail =>
    rw [Node.plain, Holed.fill, fillAll_plainAll children]
    simp [Fragment.text_append]
  | .other source tail => rfl

theorem fillAll_plainAll (ns : List Node) : fillAll σ (plainAll ns) = ⟨"", ns⟩ := by
  match ns with
  | [] => rfl
  | n :: ns =>
    rw [plainAll, fillAll, n.fill_plain, fillAll_plainAll ns, Fragment.append_of_ne (List.cons_ne_nil _ _)]
    simp [Fragment.ofNode]

end

mutual

theorem Holed.fill_congr (n : Holed ι) (h : ∀ i ∈ n.labels, σ i = τ i) : n.fill σ = n.fill τ := by
  match n with
  | .element tag attrib text children tail => rw [Holed.fill, Holed.fill, fillAll_congr children h]
  | .other source tail => rfl
  | .hole i node => rw [Holed.fill, Holed.fill, h i (List.mem_singleton_self i)]

/-- **The fragments of other labels do not matter.** -/
theorem fillAll_congr (ns : List (Holed ι)) (h : ∀ i ∈ labelsAll ns, σ i = τ i) : fillAll σ ns = fillAll τ ns := by
  match ns with
  | [] => rfl
  | n :: ns =>
    rw [labelsAll_cons] at h
    rw [fillAll, fillAll, n.fill_congr fun i hi => h i (List.mem_append_left _ hi),
      fillAll_congr ns fun i hi => h i (List.mem_append_right _ hi)]

end

mutual

theorem Holed.plain_fill (n : Holed ι) (h : n.labels = []) : ∃ m, n.fill σ = Fragment.ofNode m ∧ m.plain = n := by
  match n with
  | .element tag attrib text children tail =>
    obtain ⟨ms, hfill, hplain⟩ := plainAll_fillAll children h
    refine ⟨.element tag attrib text ms tail, ?_, by rw [Node.plain, hplain]⟩
    rw [Holed.fill, hfill]
    simp [Fragment.text_append]
  | .other source tail => exact ⟨.other source tail, rfl, rfl⟩
  | .hole i node => cases h

theorem plainAll_fillAll (ns : List (Holed ι)) (h : labelsAll ns = []) :
    ∃ ms, fillAll σ ns = ⟨"", ms⟩ ∧ plainAll ms = ns := by
  match ns with
  | [] => exact ⟨[], rfl, rfl⟩
  | n :: ns =>
    rw [labelsAll_cons, List.append_eq_nil_iff] at h
    obtain ⟨m, hm, hplain⟩ := n.plain_fill h.1
    obtain ⟨ms, hms, hplains⟩ := plainAll_fillAll ns h.2
    refine ⟨m :: ms, ?_, by rw [plainAll, hplain, hplains]⟩
    rw [fillAll, hm, hms, Fragment.append_of_ne (List.cons_ne_nil _ _)]
    simp [Fragment.ofNode]

end

/-- **A tree without holes is what it is filled to.** -/
theorem HoledFragment.plain_fill (f : HoledFragment ι) (h : labelsAll f.children = []) : (f.fill σ).plain = f := by
  obtain ⟨ms, hfill, hplain⟩ := plainAll_fillAll (σ := σ) f.children h
  rw [fill, hfill, Fragment.text_append, Fragment.plain]
  simp only [String.append_empty, hplain]

/-! ## Tags and characters -/

/-- A piece of a document. -/
inductive Token
  | start (tag : String) (attrib : List (String × String))
  | finish
  | other (source : String)
  | char (c : Char)
deriving DecidableEq

def charTokens (s : String) : List Token := s.toList.map .char

mutual

def Node.tokens : Node → List Token
  | .element tag attrib text children tail =>
      .start tag attrib :: (charTokens text ++ tokensAll children ++ .finish :: charTokens tail)
  | .other source tail => .other source :: charTokens tail

def tokensAll : List Node → List Token
  | [] => []
  | n :: ns => n.tokens ++ tokensAll ns

end

def Fragment.tokens (f : Fragment) : List Token := charTokens f.text ++ tokensAll f.children

mutual

/-- The pieces of a document with holes. -/
def Holed.tokens : Holed ι → List (Token ⊕ ι)
  | .element tag attrib text children tail =>
      .inl (.start tag attrib) ::
        ((charTokens text).map .inl ++ holedTokensAll children ++ .inl .finish :: (charTokens tail).map .inl)
  | .other source tail => .inl (.other source) :: (charTokens tail).map .inl
  | .hole i node => .inr i :: (charTokens node.tail).map .inl

def holedTokensAll : List (Holed ι) → List (Token ⊕ ι)
  | [] => []
  | n :: ns => n.tokens ++ holedTokensAll ns

end

def HoledFragment.tokens (f : HoledFragment ι) : List (Token ⊕ ι) :=
  (charTokens f.text).map .inl ++ holedTokensAll f.children

@[simp] theorem charTokens_append (s t : String) : charTokens (s ++ t) = charTokens s ++ charTokens t := by
  simp [charTokens]

theorem tokensAll_append (ns ms : List Node) : tokensAll (ns ++ ms) = tokensAll ns ++ tokensAll ms := by
  induction ns with
  | nil => rfl
  | cons n ns ih => simp [tokensAll, ih]

theorem Node.tokens_addTail (n : Node) (s : String) : (n.addTail s).tokens = n.tokens ++ charTokens s := by
  cases n <;> simp [Node.addTail, Node.tokens]

theorem tokensAll_pushTail {ns : List Node} (hns : ns ≠ []) (s : String) :
    tokensAll (pushTail ns s) = tokensAll ns ++ charTokens s := by
  induction ns using List.reverseRecOn with
  | nil => exact absurd rfl hns
  | append_singleton ns n _ => simp [pushTail_concat, tokensAll_append, tokensAll, Node.tokens_addTail]

/-- **One fragment after another, piece by piece.** -/
theorem Fragment.tokens_append (f g : Fragment) : (f ++ g).tokens = f.tokens ++ g.tokens := by
  by_cases h : f.children = []
  · rw [Fragment.append_of_nil h]
    simp [Fragment.tokens, h, tokensAll]
  · rw [Fragment.append_of_ne h]
    simp [Fragment.tokens, tokensAll_append, tokensAll_pushTail h]

@[simp] theorem Fragment.tokens_ofText (s : String) : (Fragment.ofText s).tokens = charTokens s := by
  simp [Fragment.tokens, Fragment.ofText, tokensAll]

@[simp] theorem Fragment.tokens_ofNode (n : Node) : (Fragment.ofNode n).tokens = n.tokens := by
  simp [Fragment.tokens, Fragment.ofNode, tokensAll, charTokens]

/-- The pieces a piece with holes stands for. -/
def expandToken (σ : ι → Fragment) : Token ⊕ ι → List Token
  | .inl t => [t]
  | .inr i => (σ i).tokens

@[simp] theorem flatMap_inl (ts : List Token) : (ts.map Sum.inl).flatMap (expandToken σ) = ts := by
  induction ts with
  | nil => rfl
  | cons t ts ih => simp [expandToken, ih]

mutual

theorem Holed.tokens_fill (n : Holed ι) : (n.fill σ).tokens = n.tokens.flatMap (expandToken σ) := by
  match n with
  | .element tag attrib text children tail =>
    have hinside : (Fragment.ofText text ++ fillAll σ children).tokens = _ := Fragment.tokens_append _ _
    rw [fillAll_tokens children, Fragment.tokens_ofText, Fragment.tokens] at hinside
    rw [Holed.fill, Fragment.tokens_ofNode, Node.tokens, hinside]
    simp [Holed.tokens, expandToken, List.flatMap_append]
  | .other source tail => simp [Holed.fill, Node.tokens, Holed.tokens, expandToken]
  | .hole i node => simp [Holed.fill, Fragment.tokens_append, Holed.tokens, expandToken]

theorem fillAll_tokens (ns : List (Holed ι)) :
    (fillAll σ ns).tokens = (holedTokensAll ns).flatMap (expandToken σ) := by
  match ns with
  | [] => simp [fillAll, holedTokensAll, charTokens]
  | n :: ns =>
    rw [fillAll, Fragment.tokens_append, n.tokens_fill, fillAll_tokens ns, holedTokensAll, List.flatMap_append]

end

/-- **Filling the holes is a substitution**: the pieces stay, in their order, and each hole is the pieces of its
fragment. -/
theorem tokens_fill (f : HoledFragment ι) : (f.fill σ).tokens = f.tokens.flatMap (expandToken σ) := by
  rw [HoledFragment.fill, Fragment.tokens_append, fillAll_tokens, HoledFragment.tokens, List.flatMap_append,
    flatMap_inl, Fragment.tokens_ofText]

end Totem.Lib
