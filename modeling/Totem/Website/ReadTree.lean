import Totem.Website.HierarchyTree
import Totem.Website.MenuSave

/-!
# Totem.Website.ReadTree — the subtree of a menu

`MenuService.read_tree` of `website/services.py`: the path of the root is read first, then the readable rows it is a
start of, in whatever order the database gives them, and the node of the root is what is returned.

* `Connected.arrives`: the rows connected to the root are among those that are read.
* `read_tree_spec`: the tree of a root is made of them.
-/

namespace Totem.Website

open Totem.Lib Totem.Lib.Forest

section

variable (reads : Ulid → Menu → Bool) (t : Menus)

/-- The key that a text is. -/
def ulidOf (v : String) : Option Ulid :=
  if hempty : v.toList ≠ [] then if hslash : '/' ∉ v.toList then some ⟨v, hempty, hslash⟩ else none else none

/-- `browse([root_pk])`, evaluated: an ill-typed key designates nothing. -/
def browseRoot : Option String → Option (Ulid × Menu)
  | none => none
  | some v => (ulidOf v).bind fun k => (t.get k).bind fun m => if reads k m then some (k, m) else none

/-- `None if menu.pk == root.pk else menu.parent_id`. -/
def parentIn (root : Ulid) (menu : Ulid × Menu) : Option Ulid := if menu.1 = root then none else menu.2.parent

/-- `MenuService.read_tree`; `read path` are the rows of the second read, in the order they come in. -/
def readTree (read : String → List (Ulid × Menu)) (rootPk : Option String) : Option (Subtree (Ulid × Menu)) :=
  match browseRoot reads t rootPk with
  | none => none
  | some root =>
    let tree : NodeMap Ulid (Ulid × Menu) := insertAll Prod.fst (parentIn root.1) (read root.2.parentPath)
    (tree.get root.1).map fun _ => tree.subtree tree.keys.card root.1

/-! ## What is to be read -/

/-- The readable rows whose path starts with this one, in some order. -/
structure Arrives (path : String) (arrived : List (Ulid × Menu)) : Prop where
  nodup : (arrived.map Prod.fst).Nodup
  mem_iff : ∀ k m, (k, m) ∈ arrived ↔
    t.get k = some m ∧ reads k m = true ∧ path.toList <+: m.parentPath.toList

/-- Connected to the root through readable rows. -/
inductive Connected (root : Ulid) : Ulid → Prop
  | root {m : Menu} (hm : t.get root = some m) (hreads : reads root m = true) : Connected root root
  | child {k p : Ulid} {m : Menu} (hp : Connected root p) (hm : t.get k = some m) (hparent : m.parent = some p)
      (hreads : reads k m = true) : Connected root k

/-- The order of `read(ordering=["sequence"])`. -/
def BySequence (a b : Ulid × Menu) : Prop :=
  a.2.sequence < b.2.sequence ∨ a.2.sequence = b.2.sequence ∧ a.1.val ≤ b.1.val

/-- The node of a row, with the readable rows it is the parent of, in the order they came in. -/
def IsNode (arrived : List (Ulid × Menu)) (node : Subtree (Ulid × Menu)) : Prop :=
  ∃ (k : Ulid) (m : Menu) (children : List (Ulid × Menu)), node.data = some (k, m) ∧
    node.children.toList.map Subtree.data = children.map some ∧ children.Sublist arrived ∧
      (arrived.Pairwise BySequence → children.Pairwise BySequence) ∧
      ∀ j mj, (j, mj) ∈ children ↔ t.get j = some mj ∧ reads j mj = true ∧ mj.parent = some k

/-- The tree of a root: the rows connected to it, each once, each with its children. -/
structure ReadableSubtree (arrived : List (Ulid × Menu)) (root : Ulid × Menu) (tree : Subtree (Ulid × Menu)) :
    Prop where
  data : tree.data = some root
  nodup : tree.rows.Nodup
  mem_rows : ∀ k m, (k, m) ∈ tree.rows ↔ t.get k = some m ∧ Connected reads t root.1 k
  nodes : ∀ node ∈ tree.all, IsNode reads t arrived node

end

section

variable {reads : Ulid → Menu → Bool} {t : Menus}

theorem ulidOf_eq_some_iff {v : String} {k : Ulid} : ulidOf v = some k ↔ v = k.val := by
  unfold ulidOf
  by_cases hempty : v.toList ≠ []
  · by_cases hslash : '/' ∉ v.toList
    · rw [dif_pos hempty, dif_pos hslash, Option.some_inj]
      exact ⟨fun heq => congrArg Ulid.val heq, fun heq => Ulid.ext heq⟩
    · rw [dif_pos hempty, dif_neg hslash]
      refine iff_of_false nofun ?_
      rintro rfl
      exact hslash k.no_slash
  · rw [dif_neg hempty]
    refine iff_of_false nofun ?_
    rintro rfl
    exact hempty k.ne_empty

theorem browseRoot_eq_some_iff {rootPk : Option String} {k : Ulid} {m : Menu} :
    browseRoot reads t rootPk = some (k, m) ↔ rootPk = some k.val ∧ t.get k = some m ∧ reads k m = true := by
  cases rootPk with
  | none => simp [browseRoot]
  | some v =>
    rw [browseRoot, Option.bind_eq_some_iff, Option.some_inj]
    constructor
    · rintro ⟨k', hv, h⟩
      obtain ⟨m', hm, h⟩ := Option.bind_eq_some_iff.1 h
      split_ifs at h with hreads
      obtain ⟨rfl, rfl⟩ := Prod.mk.inj (Option.some.inj h)
      exact ⟨ulidOf_eq_some_iff.1 hv, hm, hreads⟩
    · rintro ⟨hv, hm, hreads⟩
      exact ⟨k, ulidOf_eq_some_iff.2 hv, Option.bind_eq_some_iff.2 ⟨m, hm, if_pos hreads⟩⟩

variable (hwf : WellFormed t) {root : Ulid}

include hwf

/-- The root is above what is connected to it. -/
theorem Connected.ancestry {k : Ulid} (h : Connected reads t root k) : ∃ l, Ancestry (up t) k l ∧ root ∈ l := by
  induction h with
  | root hm hreads =>
    obtain ⟨l, hl, -⟩ := hwf _ _ hm
    exact ⟨l, hl, hl.self_mem⟩
  | @child k p m hp hm hparent hreads ih =>
    obtain ⟨l, hl, hroot⟩ := ih
    exact ⟨l ++ [k], .child (by rw [up_eq hm, hparent]) hl, List.mem_append_left _ hroot⟩

/-- The parent of the root is not connected to it. -/
theorem Connected.not_parent {p : Ulid} (h : Connected reads t root p) {m : Menu} (hm : t.get root = some m) :
    m.parent ≠ some p := by
  intro hparent
  obtain ⟨l, hl, hroot⟩ := h.ancestry hwf
  obtain ⟨l₁, h₁, hpre⟩ := hl.of_mem hroot
  have hchild : Ancestry (up t) root (l ++ [root]) := .child (by rw [up_eq hm, hparent]) hl
  have hlength := hpre.length_le
  rw [h₁.unique hchild, List.length_append, List.length_singleton] at hlength
  omega

/-- **What is connected to the root is among the rows that are read.** -/
theorem Connected.arrives {mroot : Menu} (hroot : t.get root = some mroot) {arrived : List (Ulid × Menu)}
    (harrived : Arrives reads t mroot.parentPath arrived) {k : Ulid} (h : Connected reads t root k) {m : Menu}
    (hm : t.get k = some m) : (k, m) ∈ arrived := by
  have hreads : reads k m = true := by
    cases h with
    | root hm' hreads => exact Option.some.inj (hm'.symm.trans hm) ▸ hreads
    | child hp hm' hparent hreads => exact Option.some.inj (hm'.symm.trans hm) ▸ hreads
  obtain ⟨l, hl, hmem⟩ := h.ancestry hwf
  obtain ⟨l₁, h₁, ⟨r, rfl⟩⟩ := hl.of_mem hmem
  refine (harrived.mem_iff k m).2 ⟨hm, hreads, ?_⟩
  rw [hwf.path_eq hroot h₁, hwf.path_eq hm hl, toList_pathString, toList_pathString, List.map_append,
    List.flatten_append]
  exact List.prefix_append _ _

variable {mroot : Menu} {arrived : List (Ulid × Menu)}

omit hwf in
theorem parentIn_of_ne {k : Ulid} {m : Menu} (h : k ≠ root) : parentIn root (k, m) = m.parent := if_neg h

omit hwf in
theorem parentIn_eq_some {k p : Ulid} {m : Menu} (h : parentIn root (k, m) = some p) :
    k ≠ root ∧ m.parent = some p := by
  rw [parentIn] at h
  by_cases hk : k = root
  · rw [if_pos hk] at h
    cases h
  · exact ⟨hk, by rwa [if_neg hk] at h⟩

/-- The rows below the root in the tree are those connected to it. -/
theorem connected_iff (hroot : t.get root = some mroot) (hreads : reads root mroot = true)
    (harrived : Arrives reads t mroot.parentPath arrived) {k : Ulid} :
    (∃ l, Ancestry (pointers Prod.fst (parentIn root) arrived) k l ∧ root ∈ l) ↔ Connected reads t root k := by
  constructor
  · rintro ⟨l, hl, hmem⟩
    induction hl with
    | @root k h =>
      obtain rfl := List.mem_singleton.1 hmem
      exact .root hroot hreads
    | @child k p l h hp ih =>
      by_cases hk : k = root
      · obtain rfl := hk
        exact .root hroot hreads
      · have hl : root ∈ l := (List.mem_append.1 hmem).resolve_right fun h => hk (List.mem_singleton.1 h).symm
        obtain ⟨⟨k', m⟩, hrow, hkey⟩ := exists_row_of_pointers harrived.nodup (by rw [h]; exact Option.some_ne_none _)
        obtain rfl : k' = k := hkey
        rw [pointers_of_mem harrived.nodup hrow, Option.some_inj] at h
        obtain ⟨hm, hr, -⟩ := (harrived.mem_iff k' m).1 hrow
        exact .child (ih hl) hm (parentIn_eq_some h).2 hr
  · intro h
    induction h with
    | root hm hr =>
      have hrow : (root, mroot) ∈ arrived := (harrived.mem_iff _ _).2 ⟨hroot, hreads, List.prefix_refl _⟩
      refine ⟨[root], .root ?_, List.mem_singleton_self _⟩
      have hpointers := @pointers_of_mem _ _ _ _ (parentIn root) _ harrived.nodup _ hrow
      rwa [parentIn, if_pos rfl] at hpointers
    | @child k p m hp hm hparent hr ih =>
      obtain ⟨l, hl, hmem⟩ := ih
      have hk : k ≠ root := by
        rintro rfl
        exact hp.not_parent hwf hm hparent
      have hrow : (k, m) ∈ arrived := (Connected.child hp hm hparent hr).arrives hwf hroot harrived hm
      refine ⟨l ++ [k], .child ?_ hl, List.mem_append_left _ hmem⟩
      have hpointers := @pointers_of_mem _ _ _ _ (parentIn root) _ harrived.nodup _ hrow
      rwa [parentIn_of_ne hk, hparent] at hpointers

/-- What is read from the node of the root. -/
theorem readableSubtree (hroot : t.get root = some mroot) (hreads : reads root mroot = true)
    (harrived : Arrives reads t mroot.parentPath arrived) :
    ReadableSubtree reads t arrived (root, mroot) ((insertAll Prod.fst (parentIn root) arrived).subtree
      (insertAll Prod.fst (parentIn root) arrived).keys.card root) := by
  have hrow : (root, mroot) ∈ arrived := (harrived.mem_iff _ _).2 ⟨hroot, hreads, List.prefix_refl _⟩
  have hpointers : pointers Prod.fst (parentIn root) arrived root = some none := by
    have h := @pointers_of_mem _ _ _ _ (parentIn root) _ harrived.nodup _ hrow
    rwa [parentIn, if_pos rfl] at h
  have htree := subtree_spec harrived.nodup (.root hpointers) (Nat.lt_succ_self _)
  have hrows (k : Ulid) (m : Menu) : (k, m) ∈ ((insertAll Prod.fst (parentIn root) arrived).subtree
      (insertAll Prod.fst (parentIn root) arrived).keys.card root).rows ↔
        t.get k = some m ∧ Connected reads t root k := by
    rw [htree.mem_rows, connected_iff hwf hroot hreads harrived]
    constructor
    · rintro ⟨hmem, hconnected⟩
      exact ⟨((harrived.mem_iff k m).1 hmem).1, hconnected⟩
    · rintro ⟨hm, hconnected⟩
      exact ⟨hconnected.arrives hwf hroot harrived hm, hconnected⟩
  refine ⟨?_, htree.nodup, hrows, fun node hnode => ?_⟩
  · rw [htree.data]
    exact (rowOf_eq_some_iff harrived.nodup).2 ⟨hrow, rfl⟩
  · obtain ⟨⟨k, m⟩, -, hdata, hchildren⟩ := htree.complete node hnode
    have hconnected : Connected reads t root k :=
      ((hrows k m).1 (List.mem_filterMap.2 ⟨node, hnode, hdata⟩)).2
    refine ⟨k, m, _, hdata, hchildren, List.filter_sublist, fun h => h.sublist List.filter_sublist, fun j mj => ?_⟩
    rw [mem_childrenOf]
    constructor
    · rintro ⟨hmem, hparent⟩
      obtain ⟨hget, hr, -⟩ := (harrived.mem_iff j mj).1 hmem
      exact ⟨hget, hr, (parentIn_eq_some hparent).2⟩
    · rintro ⟨hget, hr, hparent⟩
      have hj : j ≠ root := by
        rintro rfl
        exact hconnected.not_parent hwf hget hparent
      exact ⟨(Connected.child hconnected hget hparent hr).arrives hwf hroot harrived hget,
        (parentIn_of_ne hj).trans hparent⟩

end

/-- **The tree reader returns the readable subtree**, and nothing exactly when the root is not readable. -/
theorem read_tree_spec {reads : Ulid → Menu → Bool} {t : Menus} (hwf : WellFormed t)
    {read : String → List (Ulid × Menu)} (hread : ∀ path, Arrives reads t path (read path)) (rootPk : Option String) :
    (readTree reads t read rootPk = none ↔
        ¬ ∃ k m, rootPk = some k.val ∧ t.get k = some m ∧ reads k m = true) ∧
      ∀ k m, rootPk = some k.val → t.get k = some m → ∀ tree, readTree reads t read rootPk = some tree →
        ReadableSubtree reads t (read m.parentPath) (k, m) tree := by
  cases hroot : browseRoot reads t rootPk with
  | none =>
    have hunreadable : ¬ ∃ k m, rootPk = some k.val ∧ t.get k = some m ∧ reads k m = true := by
      rintro ⟨k, m, h⟩
      rw [browseRoot_eq_some_iff.2 h] at hroot
      cases hroot
    have hnone : readTree reads t read rootPk = none := by rw [readTree, hroot]
    refine ⟨iff_of_true hnone hunreadable, fun k m _ _ tree htree => ?_⟩
    rw [hnone] at htree
    cases htree
  | some root =>
    obtain ⟨k, m⟩ := root
    obtain ⟨hpk, hm, hr⟩ := browseRoot_eq_some_iff.1 hroot
    have hrow : (k, m) ∈ read m.parentPath := ((hread _).mem_iff _ _).2 ⟨hm, hr, List.prefix_refl _⟩
    obtain ⟨node, hnode⟩ : ∃ node, (insertAll Prod.fst (parentIn k) (read m.parentPath)).get k = some node := by
      rw [get_insertAll (hread _).nodup]
      exact ⟨_, nodeOf_eq_some (Or.inl (by rw [(rowOf_eq_some_iff (hread _).nodup).2 ⟨hrow, rfl⟩]; rfl))⟩
    have hsome : readTree reads t read rootPk = some ((insertAll Prod.fst (parentIn k) (read m.parentPath)).subtree
        (insertAll Prod.fst (parentIn k) (read m.parentPath)).keys.card k) := by
      rw [readTree, hroot]
      simp only [hnode, Option.map_some]
    refine ⟨iff_of_false (by rw [hsome]; exact Option.some_ne_none _) (not_not.2 ⟨k, m, hpk, hm, hr⟩), ?_⟩
    intro k' m' hpk' hm' tree htree
    obtain rfl : k = k' := Ulid.ext (Option.some.inj (hpk.symm.trans hpk'))
    obtain rfl := Option.some.inj (hm.symm.trans hm')
    obtain rfl := Option.some.inj (hsome.symm.trans htree)
    exact readableSubtree hwf hm hr (hread _)

/-! ## A child before its parent -/

/-- A read that goes through the rows in this order. -/
def scan (reads : Ulid → Menu → Bool) (rows : List (Ulid × Menu)) (path : String) : List (Ulid × Menu) :=
  rows.filter fun row => reads row.1 row.2 && decide (path.toList <+: row.2.parentPath.toList)

theorem arrives_scan (reads : Ulid → Menu → Bool) {t : Menus} {rows : List (Ulid × Menu)}
    (hnodup : (rows.map Prod.fst).Nodup) (hrows : ∀ k m, (k, m) ∈ rows ↔ t.get k = some m) (path : String) :
    Arrives reads t path (scan reads rows path) := by
  refine ⟨hnodup.sublist (List.filter_sublist.map _), fun k m => ?_⟩
  rw [scan, List.mem_filter, hrows, Bool.and_eq_true, decide_eq_true_eq]

def news : Ulid := ⟨"NEWS", by decide, by decide⟩

/-- A child of `ABOUT`, and one of `HOME`. -/
def teamItem : Menu := ⟨"team", some about, "HOME/ABOUT/TEAM/", 20, none, some "/team", false⟩
def newsItem : Menu := ⟨"news", some home, "HOME/NEWS/", 10, none, some "/news", false⟩

/-- The rows, a child before its parent. -/
def siteRows : List (Ulid × Menu) := [(team, teamItem), (about, aboutItem), (news, newsItem), (home, homeItem)]

def moreMenus : Menus := (siteMenus.insert news newsItem).insert team teamItem

theorem mem_siteRows (k : Ulid) (m : Menu) : (k, m) ∈ siteRows ↔ moreMenus.get k = some m := by
  have hget : moreMenus.get k = if k = team then some teamItem else if k = news then some newsItem else
      if k = about then some aboutItem else if k = home then some homeItem else none := by
    unfold moreMenus siteMenus
    split_ifs with hteam hnews habout hhome
    · rw [hteam, Table.get_insert_self]
    · rw [Table.get_insert_of_ne hteam, hnews, Table.get_insert_self]
    · rw [Table.get_insert_of_ne hteam, Table.get_insert_of_ne hnews, habout, Table.get_insert_self]
    · rw [Table.get_insert_of_ne hteam, Table.get_insert_of_ne hnews, Table.get_insert_of_ne habout, hhome,
        Table.get_insert_self]
    · rw [Table.get_insert_of_ne hteam, Table.get_insert_of_ne hnews, Table.get_insert_of_ne habout,
        Table.get_insert_of_ne hhome, Table.get_empty]
  have hkeys : about ≠ team ∧ news ≠ team ∧ home ≠ team ∧ about ≠ news ∧ home ≠ news ∧ home ≠ about := by decide
  obtain ⟨h1, h2, h3, h4, h5, h6⟩ := hkeys
  rw [hget]
  clear hget
  split_ifs with hteam hnews habout hhome
  all_goals simp_all [siteRows, eq_comm]

theorem wellFormed_moreMenus : WellFormed moreMenus := by
  refine (stored_siteMenus.wellFormed.insert (by decide) (.inr ⟨home, homeItem, ?_, rfl, by decide⟩)).insert (by decide)
    (.inr ⟨about, aboutItem, ?_, rfl, by decide⟩)
  · decide
  · decide

/-- `ABOUT` cannot be read, and `TEAM` is not read with it. -/
theorem read_tree_sample : ∃ tree,
    readTree (fun k _ => decide (k ≠ about)) moreMenus (scan (fun k _ => decide (k ≠ about)) siteRows) (some "HOME") =
      some tree ∧
    (home, homeItem) ∈ tree.rows ∧ (news, newsItem) ∈ tree.rows ∧ (about, aboutItem) ∉ tree.rows ∧
      (team, teamItem) ∉ tree.rows := by
  have hget : ∀ k m, (k, m) ∈ siteRows → moreMenus.get k = some m := fun k m => (mem_siteRows k m).1
  have hhome := hget home homeItem (by simp [siteRows])
  have hspec := read_tree_spec wellFormed_moreMenus
    (arrives_scan (fun k _ => decide (k ≠ about)) (by decide) mem_siteRows) (some "HOME")
  obtain ⟨tree, htree⟩ := Option.ne_none_iff_exists'.1
    (mt hspec.1.1 (not_not.2 ⟨home, homeItem, rfl, hhome, by decide⟩))
  have hrows := (hspec.2 home homeItem rfl hhome tree htree).mem_rows
  have hroot : Connected (fun k _ => decide (k ≠ about)) moreMenus home home := .root hhome (by decide)
  have habout : ∀ k, Connected (fun k _ => decide (k ≠ about)) moreMenus home k → k ≠ about := by
    intro k h
    cases h with
    | root _ hreads => exact of_decide_eq_true hreads
    | child _ _ _ hreads => exact of_decide_eq_true hreads
  have hteam : ∀ k, Connected (fun k _ => decide (k ≠ about)) moreMenus home k → k ≠ team := by
    intro k h
    cases h with
    | root => decide
    | child hp hm hparent =>
      rintro rfl
      obtain rfl := Option.some.inj ((hget team teamItem (by simp [siteRows])).symm.trans hm)
      exact habout _ hp (Option.some.inj hparent).symm
  refine ⟨tree, htree, (hrows _ _).2 ⟨hhome, hroot⟩, (hrows _ _).2 ⟨hget news newsItem (by simp [siteRows]), ?_⟩,
    fun hmem => habout about ((hrows _ _).1 hmem).2 rfl, fun hmem => hteam team ((hrows _ _).1 hmem).2 rfl⟩
  exact .child hroot (hget news newsItem (by simp [siteRows])) rfl (by decide)

end Totem.Website
