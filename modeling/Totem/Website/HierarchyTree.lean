import Mathlib.Data.List.Flatten
import Totem.Lib.Forest
import Totem.Lib.Table

/-!
# Totem.Website.HierarchyTree — a tree built while its rows stream in

`core/utils/tree.py`: a node is kept for every key, and an empty one stands in for a parent that has not come yet.
`node_map` keeps one node per key and never replaces it, so a node refers to its children and its parent by their keys.

* `get_insertAll`: the nodes after a stream of rows, whatever its order.
* `subtree_spec`: what hangs from a row without parent.
-/

namespace Totem.Website

open Totem.Lib Totem.Lib.Forest

/-! ## The nodes -/

/-- A node; the data of an empty node is `None`. -/
structure TreeNode (K D : Type) where
  data : Option D
  children : List K
  parent : Option K

section

variable {K D : Type} [DecidableEq K]

/-- `node_map`. -/
abbrev NodeMap (K D : Type) := Table K (TreeNode K D)

/-- An assignment to the fields of the node of a key. -/
def NodeMap.modify (nodes : NodeMap K D) (k : K) (f : TreeNode K D → TreeNode K D) : NodeMap K D :=
  match nodes.get k with
  | some node => nodes.insert k (f node)
  | none => nodes

/-- `parent.add_child(child)`. -/
def NodeMap.addChild (nodes : NodeMap K D) (p k : K) : NodeMap K D :=
  (nodes.modify k fun child => { child with parent := some p }).modify p
    fun parent => { parent with children := parent.children ++ [k] }

/-- The node of a parent key is there, if need be an empty one. -/
def NodeMap.ensureParent (nodes : NodeMap K D) : Option K → NodeMap K D
  | some p => if (nodes.get p).isSome then nodes else nodes.insert p ⟨none, [], none⟩
  | none => nodes

/-- The node of a key has this data. -/
def NodeMap.setData (nodes : NodeMap K D) (k : K) (data : D) : NodeMap K D :=
  match nodes.get k with
  | some node => nodes.insert k { node with data := some data }
  | none => nodes.insert k ⟨some data, [], none⟩

/-- `HierarchyTree.insert`. -/
def NodeMap.insertRow (nodes : NodeMap K D) (k : K) (parentKey : Option K) (data : D) : NodeMap K D :=
  let nodes := (nodes.ensureParent parentKey).setData k data
  match parentKey with
  | some p => nodes.addChild p k
  | none => nodes

/-! ## After a stream of rows -/

variable (key : D → K) (parentKey : D → Option K)

/-- The nodes after a stream of rows. -/
def insertAll (rows : List D) : NodeMap K D :=
  rows.foldl (fun nodes d => nodes.insertRow (key d) (parentKey d) d) Table.empty

/-- The rows a key has come with. -/
def rowOf (rows : List D) (k : K) : Option D := rows.find? fun d => decide (key d = k)

def childrenOf (rows : List D) (k : K) : List D := rows.filter fun d => decide (parentKey d = some k)

/-- The node of a key: it is there once its row or that of a child has come. -/
def nodeOf (rows : List D) (k : K) : Option (TreeNode K D) :=
  if (rowOf key rows k).isSome ∨ childrenOf parentKey rows k ≠ [] then
    some ⟨rowOf key rows k, (childrenOf parentKey rows k).map key, (rowOf key rows k).bind parentKey⟩
  else none

theorem get_insert (nodes : NodeMap K D) (k j : K) (node : TreeNode K D) :
    (nodes.insert k node).get j = if j = k then some node else nodes.get j := by
  by_cases h : j = k
  · rw [h, if_pos rfl, Table.get_insert_self]
  · rw [if_neg h, Table.get_insert_of_ne h]

theorem get_modify (nodes : NodeMap K D) (k j : K) (f : TreeNode K D → TreeNode K D) :
    (nodes.modify k f).get j = if j = k then (nodes.get k).map f else nodes.get j := by
  rw [NodeMap.modify]
  cases h : nodes.get k with
  | some node => rw [get_insert, Option.map_some]
  | none =>
    by_cases hj : j = k
    · rw [if_pos hj, hj, h, Option.map_none]
    · rw [if_neg hj]

theorem get_ensureParent (nodes : NodeMap K D) (p : Option K) (j : K) :
    (nodes.ensureParent p).get j = if p = some j then some ((nodes.get j).getD ⟨none, [], none⟩) else nodes.get j := by
  cases p with
  | none => rfl
  | some p =>
    rw [NodeMap.ensureParent]
    simp only [Option.some_inj]
    cases h : nodes.get p with
    | some node =>
      by_cases hj : p = j
      · rw [if_pos Option.isSome_some, if_pos hj, ← hj, h]
        rfl
      · rw [if_pos Option.isSome_some, if_neg hj]
    | none =>
      rw [Option.isSome_none, if_neg Bool.false_ne_true, get_insert]
      by_cases hj : p = j
      · rw [if_pos hj.symm, if_pos hj, ← hj, h]
        rfl
      · rw [if_neg (Ne.symm hj), if_neg hj]

theorem get_setData (nodes : NodeMap K D) (k j : K) (data : D) : (nodes.setData k data).get j =
    if j = k then some { (nodes.get j).getD ⟨none, [], none⟩ with data := some data } else nodes.get j := by
  rw [NodeMap.setData]
  cases h : nodes.get k with
  | some node =>
    rw [get_insert]
    by_cases hj : j = k
    · rw [if_pos hj, if_pos hj, hj, h]
      rfl
    · rw [if_neg hj, if_neg hj]
  | none =>
    rw [get_insert]
    by_cases hj : j = k
    · rw [if_pos hj, if_pos hj, hj, h]
      rfl
    · rw [if_neg hj, if_neg hj]

variable {key parentKey}

theorem rowOf_append {rows : List D} {d : D} {k : K} (hfresh : rowOf key rows (key d) = none) :
    rowOf key (rows ++ [d]) k = if k = key d then some d else rowOf key rows k := by
  rw [rowOf, List.find?_append]
  by_cases hk : k = key d
  · rw [if_pos hk, hk, ← rowOf, hfresh]
    simp
  · rw [if_neg hk, ← rowOf]
    cases rowOf key rows k with
    | some d' => rfl
    | none => simp [Ne.symm hk]

theorem childrenOf_append (rows : List D) (d : D) (k : K) : childrenOf parentKey (rows ++ [d]) k =
    if parentKey d = some k then childrenOf parentKey rows k ++ [d] else childrenOf parentKey rows k := by
  rw [childrenOf, List.filter_append]
  by_cases hk : parentKey d = some k
  · rw [if_pos hk, List.filter_singleton, decide_eq_true hk]
    rfl
  · rw [if_neg hk, List.filter_singleton, decide_eq_false hk]
    exact List.append_nil _

theorem getD_nodeOf (rows : List D) (k : K) : (nodeOf key parentKey rows k).getD ⟨none, [], none⟩ =
    ⟨rowOf key rows k, (childrenOf parentKey rows k).map key, (rowOf key rows k).bind parentKey⟩ := by
  rw [nodeOf]
  by_cases h : (rowOf key rows k).isSome ∨ childrenOf parentKey rows k ≠ []
  · rw [if_pos h, Option.getD_some]
  · rw [if_neg h]
    rw [not_or, not_not, Option.not_isSome_iff_eq_none] at h
    rw [h.1, h.2]
    rfl

theorem nodeOf_eq_some {rows : List D} {k : K}
    (h : (rowOf key rows k).isSome ∨ childrenOf parentKey rows k ≠ []) : nodeOf key parentKey rows k =
      some ⟨rowOf key rows k, (childrenOf parentKey rows k).map key, (rowOf key rows k).bind parentKey⟩ := if_pos h

/-- One more row. -/
theorem get_insertRow {nodes : NodeMap K D} {rows : List D} (hnodes : ∀ k, nodes.get k = nodeOf key parentKey rows k)
    {d : D} (hfresh : rowOf key rows (key d) = none) (k : K) :
    (nodes.insertRow (key d) (parentKey d) d).get k = nodeOf key parentKey (rows ++ [d]) k := by
  have hset (j : K) : ((nodes.ensureParent (parentKey d)).setData (key d) d).get j =
      if j = key d then some ⟨some d, (childrenOf parentKey rows j).map key, none⟩
      else if parentKey d = some j then some ((nodeOf key parentKey rows j).getD ⟨none, [], none⟩)
      else nodeOf key parentKey rows j := by
    rw [get_setData, get_ensureParent, hnodes]
    by_cases hj : j = key d
    · rw [if_pos hj, if_pos hj]
      have hnode := @getD_nodeOf _ _ _ key parentKey rows j
      rw [hj, hfresh] at hnode
      by_cases hp : parentKey d = some j
      · rw [if_pos hp, Option.getD_some, hj, hnode]
        rfl
      · rw [if_neg hp, hj, hnode]
        rfl
    · rw [if_neg hj, if_neg hj]
  have hrow := rowOf_append hfresh (k := k)
  have hchildren := @childrenOf_append _ _ _ parentKey rows d k
  cases hparent : parentKey d with
  | none =>
    rw [hparent] at hset hchildren
    rw [if_neg (Option.some_ne_none k).symm] at hchildren
    have hdone : (nodes.insertRow (key d) none d).get k = _ := hset k
    rw [hdone, if_neg (Option.some_ne_none k).symm]
    by_cases hk : k = key d
    · rw [if_pos hk] at hrow
      rw [if_pos hk, nodeOf_eq_some (Or.inl (by rw [hrow]; rfl)), hrow, hchildren, Option.bind_some, hparent]
    · rw [if_neg hk] at hrow
      rw [if_neg hk, nodeOf, nodeOf, hrow, hchildren]
  | some p =>
    rw [hparent] at hset hchildren
    simp only [Option.some_inj] at hset hchildren
    have hdone : (nodes.insertRow (key d) (some p) d).get k = _ := get_modify _ p k _
    rw [hdone, get_modify, get_modify, hset (key d), if_pos rfl]
    by_cases hkp : k = p
    · obtain rfl := hkp
      rw [if_pos rfl] at hchildren
      rw [if_pos rfl, nodeOf_eq_some (Or.inr (by rw [hchildren]; exact List.append_ne_nil_of_right_ne_nil _ (by simp))),
        hchildren, List.map_append]
      by_cases hk : k = key d
      · -- a row that is its own parent
        rw [if_pos hk] at hrow
        rw [if_pos hk, hrow, Option.bind_some, hparent, List.map_singleton, ← hk]
        rfl
      · rw [if_neg hk] at hrow
        rw [if_neg hk, hset, if_neg hk, if_pos rfl, getD_nodeOf, hrow]
        rfl
    · rw [if_neg (Ne.symm hkp)] at hchildren
      rw [if_neg hkp]
      by_cases hk : k = key d
      · rw [if_pos hk] at hrow
        rw [if_pos hk, nodeOf_eq_some (Or.inl (by rw [hrow]; rfl)), hrow, hchildren, Option.bind_some, hparent, ← hk]
        rfl
      · rw [if_neg hk] at hrow
        rw [if_neg hk, hset, if_neg hk, if_neg (Ne.symm hkp), nodeOf, nodeOf, hrow, hchildren]

/-- **The nodes after a stream of rows**: that of a row has its data and its children, in the order they came in. -/
theorem get_insertAll {rows : List D} (hrows : (rows.map key).Nodup) (k : K) :
    (insertAll key parentKey rows).get k = nodeOf key parentKey rows k := by
  induction rows using List.reverseRecOn generalizing k with
  | nil => rfl
  | append_singleton rows d ih =>
    rw [List.map_append, List.nodup_append] at hrows
    have hfresh : rowOf key rows (key d) = none := by
      rw [rowOf, List.find?_eq_none]
      intro d' hd'
      rw [decide_eq_true_eq]
      exact fun h => hrows.2.2 _ (List.mem_map_of_mem hd') _ (List.mem_singleton_self _) h
    have hstep : insertAll key parentKey (rows ++ [d]) =
        (insertAll key parentKey rows).insertRow (key d) (parentKey d) d := by
      rw [insertAll, List.foldl_append]
      rfl
    rw [hstep, get_insertRow (ih hrows.1) hfresh]

end

/-! ## What hangs from a node -/

/-- Nodes with what hangs from them: the first one's data and children, and the other nodes. -/
inductive Subtrees (D : Type) where
  | nil
  | cons (data : Option D) (children rest : Subtrees D)
  deriving DecidableEq, Repr

/-- A node with what hangs from it. -/
structure Subtree (D : Type) where
  data : Option D
  children : Subtrees D
  deriving DecidableEq, Repr

section

variable {D : Type}

def Subtrees.ofList : List (Subtree D) → Subtrees D
  | [] => .nil
  | t :: ts => .cons t.data t.children (ofList ts)

def Subtrees.toList : Subtrees D → List (Subtree D)
  | .nil => []
  | .cons data children rest => ⟨data, children⟩ :: rest.toList

/-- The nodes and all that hangs from them. -/
def Subtrees.all : Subtrees D → List (Subtree D)
  | .nil => []
  | .cons data children rest => ⟨data, children⟩ :: (children.all ++ rest.all)

/-- The node and all that hangs from it. -/
def Subtree.all (t : Subtree D) : List (Subtree D) := t :: t.children.all

/-- The rows of the tree. -/
def Subtree.rows (t : Subtree D) : List D := t.all.filterMap Subtree.data

@[simp] theorem Subtrees.toList_ofList (ts : List (Subtree D)) : (Subtrees.ofList ts).toList = ts := by
  induction ts with
  | nil => rfl
  | cons t ts ih => rw [ofList, toList, ih]

@[simp] theorem Subtrees.all_ofList (ts : List (Subtree D)) : (Subtrees.ofList ts).all = ts.flatMap Subtree.all := by
  induction ts with
  | nil => rfl
  | cons t ts ih => rw [ofList, all, ih, List.flatMap_cons]; rfl

variable {K : Type}

/-- What is read from a node down, no further than `fuel` levels. -/
def NodeMap.subtree (nodes : NodeMap K D) : ℕ → K → Subtree D
  | 0, k => ⟨(nodes.get k).bind TreeNode.data, .nil⟩
  | fuel + 1, k => ⟨(nodes.get k).bind TreeNode.data,
      .ofList ((((nodes.get k).map TreeNode.children).getD []).map (subtree nodes fuel))⟩

end

/-! ## The tree of a root -/

section

variable {K D : Type} [DecidableEq K] {key : D → K} {parentKey : D → Option K} {rows : List D}

/-- The parent pointers of the rows. -/
def pointers (key : D → K) (parentKey : D → Option K) (rows : List D) (k : K) : Option (Option K) :=
  (rowOf key rows k).map parentKey

/-- A node and what hangs from it: a row, with all the rows below it, each once, and under each row those it is the
parent of, in the order they came in. -/
structure Subtree.HangsFrom (key : D → K) (parentKey : D → Option K) (rows : List D) (t : Subtree D) (k : K) :
    Prop where
  data : t.data = rowOf key rows k
  complete : ∀ node ∈ t.all, ∃ d ∈ rows, node.data = some d ∧
    node.children.toList.map Subtree.data = (childrenOf parentKey rows (key d)).map some
  nodup : t.rows.Nodup
  mem_rows : ∀ d, d ∈ t.rows ↔ d ∈ rows ∧ ∃ l, Ancestry (pointers key parentKey rows) (key d) l ∧ k ∈ l

theorem rowOf_eq_some_iff (hrows : (rows.map key).Nodup) {k : K} {d : D} :
    rowOf key rows k = some d ↔ d ∈ rows ∧ key d = k := by
  constructor
  · intro h
    exact ⟨List.mem_of_find?_eq_some h, by simpa using List.find?_some h⟩
  · rintro ⟨hd, rfl⟩
    rw [rowOf]
    cases hfind : rows.find? fun d' => decide (key d' = key d) with
    | none => exact absurd (decide_eq_true rfl) (List.find?_eq_none.1 hfind d hd)
    | some d' =>
      have hkey : key d' = key d := by simpa using List.find?_some hfind
      rw [List.inj_on_of_nodup_map hrows (List.mem_of_find?_eq_some hfind) hd hkey]

theorem mem_childrenOf {k : K} {d : D} : d ∈ childrenOf parentKey rows k ↔ d ∈ rows ∧ parentKey d = some k := by
  rw [childrenOf, List.mem_filter, decide_eq_true_eq]

theorem pointers_of_mem (hrows : (rows.map key).Nodup) {d : D} (hd : d ∈ rows) :
    pointers key parentKey rows (key d) = some (parentKey d) := by
  rw [pointers, (rowOf_eq_some_iff hrows).2 ⟨hd, rfl⟩, Option.map_some]

theorem exists_row_of_pointers (hrows : (rows.map key).Nodup) {k : K}
    (h : pointers key parentKey rows k ≠ none) : ∃ d ∈ rows, key d = k := by
  rw [pointers, Option.ne_none_iff_exists'] at h
  obtain ⟨p, hp⟩ := h
  obtain ⟨d, hd, -⟩ := Option.map_eq_some_iff.1 hp
  exact ⟨d, (rowOf_eq_some_iff hrows).1 hd⟩

section

variable (hrows : (rows.map key).Nodup)

include hrows

theorem data_get (k : K) : ((insertAll key parentKey rows).get k).bind TreeNode.data = rowOf key rows k := by
  have hnode := @getD_nodeOf _ _ _ key parentKey rows k
  rw [get_insertAll hrows, nodeOf]
  by_cases h : (rowOf key rows k).isSome ∨ childrenOf parentKey rows k ≠ []
  · rw [if_pos h, Option.bind_some]
  · rw [if_neg h]
    rw [not_or, Option.not_isSome_iff_eq_none] at h
    rw [h.1, Option.bind_none]

theorem children_get (k : K) : (((insertAll key parentKey rows).get k).map TreeNode.children).getD [] =
    (childrenOf parentKey rows k).map key := by
  rw [get_insertAll hrows, nodeOf]
  by_cases h : (rowOf key rows k).isSome ∨ childrenOf parentKey rows k ≠ []
  · rw [if_pos h, Option.map_some, Option.getD_some]
  · rw [if_neg h]
    rw [not_or, not_not] at h
    rw [h.2, Option.map_none]
    rfl

/-- A row has a node. -/
theorem mem_keys_insertAll {k : K} (h : pointers key parentKey rows k ≠ none) :
    k ∈ (insertAll key parentKey rows).keys := by
  obtain ⟨d, hd, hk⟩ := exists_row_of_pointers hrows h
  rw [Table.mem_keys, get_insertAll hrows, nodeOf, (rowOf_eq_some_iff hrows).2 ⟨hd, hk⟩]
  rfl

/-- The child of a row has the ancestry of its parent, and itself. -/
theorem ancestry_child {k : K} {l : List K} (h : Ancestry (pointers key parentKey rows) k l) {c : D}
    (hc : c ∈ childrenOf parentKey rows k) : Ancestry (pointers key parentKey rows) (key c) (l ++ [key c]) := by
  obtain ⟨hmem, hparent⟩ := mem_childrenOf.1 hc
  exact .child (by rw [pointers_of_mem hrows hmem, hparent]) h

/-- What a row is above, one of its children is above. -/
theorem exists_child_above {k j : K} {l : List K} (h : Ancestry (pointers key parentKey rows) j l) (hk : k ∈ l)
    (hne : j ≠ k) : ∃ c ∈ childrenOf parentKey rows k, key c ∈ l := by
  induction h with
  | root hroot => exact absurd (List.mem_singleton.1 hk).symm hne
  | @child j p l hparent hp ih =>
    by_cases hpk : p = k
    · obtain ⟨d, hd, rfl⟩ := exists_row_of_pointers hrows (by rw [hparent]; exact Option.some_ne_none _)
      rw [pointers_of_mem hrows hd, Option.some_inj, hpk] at hparent
      exact ⟨d, mem_childrenOf.2 ⟨hd, hparent⟩, List.mem_append_right _ (List.mem_singleton_self _)⟩
    · obtain hkl | hkj := List.mem_append.1 hk
      · obtain ⟨c, hc, hcl⟩ := ih hkl hpk
        exact ⟨c, hc, List.mem_append_left _ hcl⟩
      · exact absurd (List.mem_singleton.1 hkj).symm hne

/-- Two children of a row are not above one row, and none is above its parent. -/
theorem eq_of_above {k j : K} {l l' : List K} (hk : Ancestry (pointers key parentKey rows) k l)
    (hj : Ancestry (pointers key parentKey rows) j l') {c c' : D} (hc : c ∈ childrenOf parentKey rows k)
    (hc' : c' ∈ childrenOf parentKey rows k) (hcl : key c ∈ l') (hcl' : key c' ∈ l') : c = c' := by
  obtain ⟨l₁, h₁, hpre⟩ := hj.of_mem hcl
  obtain ⟨l₂, h₂, hpre'⟩ := hj.of_mem hcl'
  rw [h₁.unique (ancestry_child hrows hk hc)] at hpre
  rw [h₂.unique (ancestry_child hrows hk hc')] at hpre'
  have heq : l ++ [key c] = l ++ [key c'] :=
    (List.prefix_of_prefix_length_le hpre hpre' (by simp)).eq_of_length (by simp)
  have hkey : key c = key c' := List.singleton_inj.1 (List.append_cancel_left heq)
  exact List.inj_on_of_nodup_map hrows (mem_childrenOf.1 hc).1 (mem_childrenOf.1 hc').1 hkey

/-- What hangs from the children of a row, with the row: the rows it is above. -/
theorem mem_below {d : D} {l : List K} (hk : Ancestry (pointers key parentKey rows) (key d) l) (hd : d ∈ rows)
    {below : D → List D} (hbelow : ∀ c ∈ childrenOf parentKey rows (key d), ∀ d', d' ∈ below c ↔
      d' ∈ rows ∧ ∃ l, Ancestry (pointers key parentKey rows) (key d') l ∧ key c ∈ l) {d' : D} :
    d' ∈ d :: (childrenOf parentKey rows (key d)).flatMap below ↔
      d' ∈ rows ∧ ∃ l, Ancestry (pointers key parentKey rows) (key d') l ∧ key d ∈ l := by
  rw [List.mem_cons, List.mem_flatMap]
  constructor
  · rintro (rfl | ⟨c, hc, hd'⟩)
    · exact ⟨hd, l, hk, hk.self_mem⟩
    · obtain ⟨hmem, l', hl', hcl⟩ := (hbelow c hc d').1 hd'
      refine ⟨hmem, l', hl', hl'.mem_of_parent hcl ?_⟩
      rw [pointers_of_mem hrows (mem_childrenOf.1 hc).1, (mem_childrenOf.1 hc).2]
  · rintro ⟨hmem, l', hl', hdl⟩
    by_cases hkey : key d' = key d
    · exact Or.inl (List.inj_on_of_nodup_map hrows hmem hd hkey)
    · obtain ⟨c, hc, hcl⟩ := exists_child_above hrows hl' hdl hkey
      exact Or.inr ⟨c, hc, (hbelow c hc d').2 ⟨hmem, l', hl', hcl⟩⟩

theorem nodup_below {d : D} {l : List K} (hk : Ancestry (pointers key parentKey rows) (key d) l)
    {below : D → List D} (hnodup : ∀ c ∈ childrenOf parentKey rows (key d), (below c).Nodup)
    (hbelow : ∀ c ∈ childrenOf parentKey rows (key d), ∀ d', d' ∈ below c ↔
      d' ∈ rows ∧ ∃ l, Ancestry (pointers key parentKey rows) (key d') l ∧ key c ∈ l) :
    (d :: (childrenOf parentKey rows (key d)).flatMap below).Nodup := by
  rw [List.nodup_cons, List.nodup_flatMap]
  refine ⟨fun hmem => ?_, hnodup, ?_⟩
  · -- a child would be above its parent
    obtain ⟨c, hc, hd⟩ := List.mem_flatMap.1 hmem
    obtain ⟨-, l', hl', hcl⟩ := (hbelow c hc d).1 hd
    obtain ⟨l₁, h₁, hpre⟩ := hl'.of_mem hcl
    rw [h₁.unique (ancestry_child hrows hk hc), hl'.unique hk] at hpre
    have hlength := hpre.length_le
    rw [List.length_append, List.length_singleton] at hlength
    omega
  · have hdistinct : (childrenOf parentKey rows (key d)).Nodup := (List.Nodup.of_map key hrows).filter _
    refine hdistinct.imp_of_mem fun {c c'} hc hc' hne d' hd hd' => hne ?_
    obtain ⟨-, l₁, h₁, hcl⟩ := (hbelow c hc d').1 hd
    obtain ⟨-, l₂, h₂, hcl'⟩ := (hbelow c' hc' d').1 hd'
    rw [h₂.unique h₁] at hcl'
    exact eq_of_above hrows hk h₁ hc hc' hcl hcl'

/-- **What is read from a row that hangs from a root**, far enough down. -/
theorem subtree_spec {fuel : ℕ} {k : K} {l : List K} (hk : Ancestry (pointers key parentKey rows) k l)
    (hfuel : (insertAll key parentKey rows).keys.card < fuel + l.length) :
    ((insertAll key parentKey rows).subtree fuel k).HangsFrom key parentKey rows k := by
  induction fuel generalizing k l with
  | zero =>
    have hlength := hk.length_le fun a ha => mem_keys_insertAll hrows ha
    omega
  | succ fuel ih =>
    obtain ⟨d, hd, rfl⟩ := exists_row_of_pointers hrows hk.ne_none
    have hrow : rowOf key rows (key d) = some d := (rowOf_eq_some_iff hrows).2 ⟨hd, rfl⟩
    let cs := childrenOf parentKey rows (key d)
    let below (c : D) : Subtree D := (insertAll key parentKey rows).subtree fuel (key c)
    have hbelow (c : D) (hc : c ∈ cs) : (below c).HangsFrom key parentKey rows (key c) := by
      refine ih (ancestry_child hrows hk hc) ?_
      rw [List.length_append, List.length_singleton]
      omega
    have htree : (insertAll key parentKey rows).subtree (fuel + 1) (key d) = ⟨some d, .ofList (cs.map below)⟩ := by
      rw [NodeMap.subtree, data_get hrows, children_get hrows, hrow, List.map_map]
      rfl
    have hall : ((insertAll key parentKey rows).subtree (fuel + 1) (key d)).all =
        ⟨some d, .ofList (cs.map below)⟩ :: cs.flatMap fun c => (below c).all := by
      rw [htree, Subtree.all, Subtrees.all_ofList, List.flatMap_map]
    have hrowsOf : ((insertAll key parentKey rows).subtree (fuel + 1) (key d)).rows =
        d :: cs.flatMap fun c => (below c).rows := by
      rw [Subtree.rows, hall, List.filterMap_cons, List.filterMap_flatMap]
      rfl
    refine ⟨by rw [htree, hrow], fun node hnode => ?_, ?_, fun d' => ?_⟩
    · rw [hall, List.mem_cons] at hnode
      obtain rfl | hnode := hnode
      · refine ⟨d, hd, rfl, ?_⟩
        rw [Subtrees.toList_ofList, List.map_map]
        refine List.map_congr_left fun c hc => ?_
        exact (hbelow c hc).data.trans ((rowOf_eq_some_iff hrows).2 ⟨(mem_childrenOf.1 hc).1, rfl⟩)
      · obtain ⟨c, hc, hnode⟩ := List.mem_flatMap.1 hnode
        exact (hbelow c hc).complete node hnode
    · rw [hrowsOf]
      exact nodup_below hrows hk (fun c hc => (hbelow c hc).nodup) fun c hc => (hbelow c hc).mem_rows
    · rw [hrowsOf]
      exact mem_below hrows hk hd fun c hc => (hbelow c hc).mem_rows

end

end

end Totem.Website
