import Mathlib.Data.List.Basic
import Mathlib.Data.List.Infix
import Mathlib.Data.List.Nodup

/-!
# Totem.Lib.PathTree — dicts of dicts

A tree of keys: each key leads to a tree, in the order of their insertion.  It is filled by paths; the end of a path is
emptied, as by an assignment of `{}`.

* `at?`: the tree a path leads to.
* `has_deepSet`: what is left of the paths after one more.
* `has_ofPaths`: with no path before one it starts with, all of them are there.
-/

namespace Totem.Lib

/-- `{}`, or a first key, the tree under it, and the other keys. -/
inductive PathTree (κ : Type*)
  | nil
  | cons (key : κ) (sub rest : PathTree κ)
deriving DecidableEq, Repr

namespace PathTree

variable {κ : Type*}

/-- `tree.items()`. -/
def entries : PathTree κ → List (κ × PathTree κ)
  | nil => []
  | cons key sub rest => (key, sub) :: rest.entries

/-- The keys of the tree, and those of the trees below, are each there once. -/
def Distinct : PathTree κ → Prop
  | nil => True
  | cons key sub rest => key ∉ rest.entries.map Prod.fst ∧ sub.Distinct ∧ rest.Distinct

variable [DecidableEq κ]

/-- `tree.get(key)`. -/
def get (key : κ) : PathTree κ → Option (PathTree κ)
  | nil => none
  | cons k sub rest => if k = key then some sub else rest.get key

/-- `tree[key] = value`. -/
def set : PathTree κ → κ → PathTree κ → PathTree κ
  | nil, key, value => cons key value nil
  | cons k sub rest, key, value => if k = key then cons key value rest else cons k sub (rest.set key value)

/-- `deep_set(tree, path, {})`. -/
def deepSet : List κ → PathTree κ → PathTree κ
  | [], _ => nil
  | key :: path, tree => tree.set key (deepSet path ((tree.get key).getD nil))

/-- The tree of a path. -/
def at? : List κ → PathTree κ → Option (PathTree κ)
  | [], tree => some tree
  | key :: path, tree => (tree.get key).bind (at? path)

def Has (tree : PathTree κ) (path : List κ) : Prop := (tree.at? path).isSome

def ofPaths (paths : List (List κ)) : PathTree κ := paths.foldl (fun tree path => tree.deepSet path) nil

variable {tree value : PathTree κ} {key k : κ} {path q : List κ}

/-! ## One key -/

theorem get_set : (tree.set key value).get k = if k = key then some value else tree.get k := by
  induction tree with
  | nil => simp [set, get, eq_comm]
  | cons first sub rest _ ih =>
    unfold set
    by_cases hfirst : first = key
    · subst hfirst
      rw [if_pos rfl, get, get]
      by_cases hk : first = k
      · rw [if_pos hk, if_pos hk.symm]
      · rw [if_neg hk, if_neg (Ne.symm hk), if_neg hk]
    · rw [if_neg hfirst, get, get, ih]
      by_cases hk : first = k
      · rw [if_pos hk, if_pos hk, if_neg fun h => hfirst (hk.trans h)]
      · rw [if_neg hk, if_neg hk]

theorem mem_entries_of_get (h : tree.get key = some value) : (key, value) ∈ tree.entries := by
  induction tree with
  | nil => cases h
  | cons first sub rest _ ih =>
    unfold get at h
    split_ifs at h with hfirst
    · rw [← hfirst, ← Option.some.inj h]
      exact List.mem_cons_self
    · exact List.mem_cons_of_mem _ (ih h)

theorem get_of_mem_entries (hdistinct : tree.Distinct) (h : (key, value) ∈ tree.entries) :
    tree.get key = some value := by
  induction tree with
  | nil => cases h
  | cons first sub rest _ ih =>
    obtain ⟨hfirst, -, hrest⟩ := hdistinct
    rcases List.mem_cons.mp h with heq | hmem
    · obtain ⟨rfl, rfl⟩ := Prod.mk.inj heq
      exact if_pos rfl
    · have hne : first ≠ key := fun heq => hfirst (heq ▸ List.mem_map_of_mem hmem)
      exact (if_neg hne).trans (ih hrest hmem)

omit [DecidableEq κ] in
theorem Distinct.of_mem (hdistinct : tree.Distinct) (h : (key, value) ∈ tree.entries) : value.Distinct := by
  induction tree with
  | nil => cases h
  | cons first sub rest _ ih =>
    obtain ⟨-, hsub, hrest⟩ := hdistinct
    rcases List.mem_cons.mp h with heq | hmem
    · exact (Prod.mk.inj heq).2 ▸ hsub
    · exact ih hrest hmem

omit [DecidableEq κ] in
theorem Distinct.nodup (hdistinct : tree.Distinct) : (tree.entries.map Prod.fst).Nodup := by
  induction tree with
  | nil => exact List.nodup_nil
  | cons first sub rest _ ih => exact List.nodup_cons.mpr ⟨hdistinct.1, ih hdistinct.2.2⟩

theorem mem_keys_set : k ∈ (tree.set key value).entries.map Prod.fst ↔ k = key ∨ k ∈ tree.entries.map Prod.fst := by
  induction tree with
  | nil => simp [set, entries]
  | cons first sub rest _ ih =>
    unfold set
    split_ifs with hfirst
    · subst hfirst
      simp [entries]
    · simp only [entries, List.map_cons, List.mem_cons, ih]
      exact or_left_comm

theorem Distinct.set (hdistinct : tree.Distinct) (hvalue : value.Distinct) : (tree.set key value).Distinct := by
  induction tree with
  | nil => exact ⟨List.not_mem_nil, hvalue, trivial⟩
  | cons first sub rest _ ih =>
    obtain ⟨hfirst, hsub, hrest⟩ := hdistinct
    unfold PathTree.set
    split_ifs with hkey
    · exact ⟨hkey ▸ hfirst, hvalue, hrest⟩
    · refine ⟨fun hmem => ?_, hsub, ih hrest⟩
      exact (mem_keys_set.mp hmem).elim hkey hfirst

/-! ## Paths -/

@[simp] theorem has_nil : tree.Has [] := rfl

theorem has_cons : tree.Has (key :: path) ↔ ∃ sub, tree.get key = some sub ∧ sub.Has path := by
  rw [Has, at?]
  cases tree.get key with
  | none => simp
  | some sub => simp [Has]

theorem not_has_empty : ¬ (nil : PathTree κ).Has (key :: path) := fun h => Bool.noConfusion h

/-- A tree that is not empty has a path of one key. -/
theorem ne_nil_iff : tree ≠ nil ↔ ∃ key, tree.Has [key] := by
  cases tree with
  | nil => exact iff_of_false (fun h => h rfl) fun ⟨key, h⟩ => not_has_empty h
  | cons first sub rest =>
    refine iff_of_true (by simp) ⟨first, has_cons.mpr ⟨sub, if_pos rfl, rfl⟩⟩

/-- **One more path.**  It is there with what it starts with; what went through its end is gone. -/
theorem has_deepSet : (tree.deepSet path).Has q ↔ q <+: path ∨ ¬ path <+: q ∧ tree.Has q := by
  induction path generalizing tree q with
  | nil =>
    cases q with
    | nil => simp [deepSet]
    | cons k q => simp [deepSet, not_has_empty]
  | cons key path ih =>
    cases q with
    | nil => simp
    | cons k q =>
      rw [deepSet, has_cons, has_cons, get_set, List.cons_prefix_cons, List.cons_prefix_cons]
      by_cases hk : k = key
      · subst hk
        simp only [if_pos, Option.some.injEq, exists_eq_left', true_and, ih]
        cases hget : tree.get k with
        | some sub => simp
        | none =>
          -- nothing was there: a path of its own is one of the new ones
          cases q with
          | nil => simp
          | cons first rest => simp [not_has_empty]
      · simp [hk, Ne.symm hk]

theorem Distinct.deepSet (hdistinct : tree.Distinct) : (tree.deepSet path).Distinct := by
  induction path generalizing tree with
  | nil => trivial
  | cons key path ih =>
    refine hdistinct.set (ih ?_)
    cases hget : tree.get key with
    | none => trivial
    | some sub => exact hdistinct.of_mem (mem_entries_of_get hget)

variable {paths : List (List κ)}

theorem distinct_ofPaths : (ofPaths paths).Distinct := by
  suffices ∀ tree : PathTree κ, tree.Distinct → (paths.foldl (fun tree path => tree.deepSet path) tree).Distinct from
    this nil trivial
  induction paths with
  | nil => exact fun tree h => h
  | cons path paths ih => exact fun tree h => ih _ h.deepSet

/-- **The tree of some paths**, none of which comes after a longer one that starts with it. -/
theorem has_ofPaths (hsorted : paths.Pairwise fun p p' => p' <+: p → p' = p) :
    (ofPaths paths).Has q ↔ q = [] ∨ ∃ path ∈ paths, q <+: path := by
  suffices ∀ tree : PathTree κ, (∀ p, tree.Has p → ∀ path ∈ paths, path <+: p → path = p) →
      ((paths.foldl (fun tree path => tree.deepSet path) tree).Has q ↔ tree.Has q ∨ ∃ path ∈ paths, q <+: path) by
    refine (this nil fun p hp path _ hpath => ?_).trans (or_congr_left ?_)
    · cases p with
      | nil => exact List.prefix_nil.mp hpath
      | cons key p => exact absurd hp not_has_empty
    · cases q with
      | nil => simp
      | cons key q => simp [not_has_empty]
  induction paths with
  | nil => simp
  | cons path paths ih =>
    intro tree hkept
    obtain ⟨hfirst, hrest⟩ := List.pairwise_cons.mp hsorted
    have hset : (tree.deepSet path).Has q ↔ q <+: path ∨ tree.Has q := by
      rw [has_deepSet]
      refine ⟨Or.imp_right And.right, ?_⟩
      rintro (hq | hq)
      · exact .inl hq
      · by_cases hpath : path <+: q
        · exact .inl (hkept q hq path List.mem_cons_self hpath ▸ List.prefix_rfl)
        · exact .inr ⟨hpath, hq⟩
    rw [List.foldl_cons, ih hrest, hset, List.exists_mem_cons_iff]
    · rw [or_assoc, or_left_comm]
    · intro p hp path' hpath' hstart
      rcases has_deepSet.mp hp with hp | ⟨-, hp⟩
      · have heq : path' = path := hfirst path' hpath' (hstart.trans hp)
        subst heq
        exact hstart.eq_of_length_le hp.length_le
      · exact hkept p hp path' (List.mem_cons_of_mem _ hpath') hstart

end PathTree

end Totem.Lib
