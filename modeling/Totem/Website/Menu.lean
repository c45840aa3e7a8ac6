import Totem.Lib.Forest
import Totem.Lib.Table
import Mathlib.Data.List.Infix

/-!
# Totem.Website.Menu — menu items and their materialized paths

`website/models/menu.py`.  The `parent_path` of an item is the concatenation of `id/` from its root
down to itself; a move rewrites the paths of the whole table by a recursive statement that walks down
from the roots (`parentStoreCompute`).

* `WellFormed`: every item hangs from a root, and its path says so.
* `parentStoreCompute_get`: what the recursive statement computes, and for which rows.
* `mem_splitPath`: what the guard on `parent.parent_path` establishes.
-/

namespace Totem.Website

open Totem.Lib Totem.Lib.Forest

/-! ## Rows -/

/-- A primary key: 26 characters of Crockford's base 32. -/
structure Ulid where
  val : String
  ne_empty : val.toList ≠ []
  no_slash : '/' ∉ val.toList

theorem Ulid.ext {i j : Ulid} (h : i.val = j.val) : i = j := by
  cases i; cases j; cases h; rfl

instance : DecidableEq Ulid := fun i j =>
  if h : i.val = j.val then .isTrue (Ulid.ext h) else .isFalse fun hij => h (congrArg Ulid.val hij)

structure Menu where
  name : String
  parent : Option Ulid
  parentPath : String
  sequence : ℤ
  page : Option String
  link : Option String
  newWindow : Bool
deriving DecidableEq

/-- The table of menu items. -/
abbrev Menus := Table Ulid Menu

/-- The parent pointers of a table. -/
def up (t : Menus) (k : Ulid) : Option (Option Ulid) := (t.get k).map Menu.parent

/-! ## Paths -/

/-- `f"{path}{pk}/"`. -/
def addToPath (path : String) (k : Ulid) : String := path ++ k.val ++ "/"

/-- The path of an ancestry. -/
def pathString (l : List Ulid) : String := l.foldl addToPath ""

/-- `path.split("/")`. -/
def splitPath (path : String) : List (List Char) := path.toList.splitOn '/'

theorem pathString_concat (l : List Ulid) (k : Ulid) :
    pathString (l ++ [k]) = addToPath (pathString l) k := by
  simp [pathString, List.foldl_append]

theorem toList_pathString (l : List Ulid) :
    (pathString l).toList = (l.map fun k => k.val.toList ++ ['/']).flatten := by
  induction l using List.reverseRecOn with
  | nil => rfl
  | append_singleton l k ih =>
    rw [pathString_concat, addToPath, String.toList_append, String.toList_append, ih]
    simp

/-- **A path splits into its items**, and the empty string after the last slash. -/
theorem splitPath_pathString (l : List Ulid) :
    splitPath (pathString l) = l.map (fun k => k.val.toList) ++ [[]] := by
  rw [splitPath, toList_pathString]
  induction l with
  | nil => rfl
  | cons k l ih =>
    rw [List.map_cons, List.flatten_cons, List.append_assoc, List.singleton_append,
      List.splitOn_append_cons_self_of_not_mem k.no_slash, ih]
    rfl

/-- What the guard of `validate_data` reads in a path. -/
theorem mem_splitPath {l : List Ulid} {k : Ulid} :
    k.val.toList ∈ splitPath (pathString l) ↔ k ∈ l := by
  rw [splitPath_pathString, List.mem_append, List.mem_map, List.mem_singleton]
  constructor
  · rintro (⟨j, hj, hjk⟩ | h)
    · have : j = k := Ulid.ext (String.toList_inj.mp hjk)
      rwa [← this]
    · exact absurd h k.ne_empty
  · intro h
    exact .inl ⟨k, h, rfl⟩

/-! ## Well-formed tables -/

/-- Every item has an ancestry, and its path is the path of its ancestry. -/
def WellFormed (t : Menus) : Prop :=
  ∀ k m, t.get k = some m → ∃ l, Ancestry (up t) k l ∧ m.parentPath = pathString l

theorem up_ne_none {t : Menus} {k : Ulid} : up t k ≠ none ↔ ∃ m, t.get k = some m := by
  simp [up, Option.ne_none_iff_exists']

theorem up_eq {t : Menus} {k : Ulid} {m : Menu} (h : t.get k = some m) : up t k = some m.parent := by
  simp [up, h]

theorem WellFormed.grounded {t : Menus} (h : WellFormed t) : Grounded (up t) := by
  intro k hk
  obtain ⟨m, hm⟩ := up_ne_none.mp hk
  obtain ⟨l, hl, -⟩ := h k m hm
  exact ⟨l, hl⟩

/-- A path of the table is that of the ancestry. -/
theorem WellFormed.path_eq {t : Menus} (h : WellFormed t) {k : Ulid} {m : Menu} {l : List Ulid}
    (hm : t.get k = some m) (hl : Ancestry (up t) k l) : m.parentPath = pathString l := by
  obtain ⟨l', hl', hpath⟩ := h k m hm
  rw [hpath, hl'.unique hl]

/-- Tables with the same parents. -/
theorem up_congr {t u : Menus} (h : ∀ k, (t.get k).map Menu.parent = (u.get k).map Menu.parent) :
    up t = up u := funext h

/-! ## The recursive statement -/

/-- The rows the recursion reaches at its `n`-th round, with their paths: the roots, then the rows
whose parent was reached in the round before. -/
def level (t : Menus) : ℕ → Table Ulid String
  | 0 => t.filterMap fun k m =>
      match m.parent with
      | none => some (addToPath "" k)
      | some _ => none
  | n + 1 => t.filterMap fun k m =>
      match m.parent with
      | none => none
      | some p => ((level t n).get p).map fun path => addToPath path k

/-- The union of the first rounds. -/
def rounds (t : Menus) : ℕ → Table Ulid String
  | 0 => .empty
  | n + 1 => (rounds t n).overlay (level t n)

/-- `__parent_store_compute`: a round finds new rows only, so that there are as many rounds as rows at
most. -/
def parentStoreCompute (t : Menus) : Table Ulid String := rounds t t.keys.card

/-- A row the statement reaches gets the path computed on `t`. -/
def restorePath (t : Menus) (k : Ulid) (m : Menu) : Menu :=
  match (parentStoreCompute t).get k with
  | some path => { m with parentPath := path }
  | none => m

/-- `Menu.recompute_parent_store` on every row. -/
def recomputeParentStore (t : Menus) : Menus := t.map (restorePath t)

section Recompute

variable {t : Menus} {k : Ulid} {path : String}

theorem level_get (n : ℕ) :
    (level t n).get k = some path ↔
      ∃ l, Ancestry (up t) k l ∧ l.length = n + 1 ∧ path = pathString l := by
  induction n generalizing k path with
  | zero =>
    simp only [level, Table.get_filterMap, Option.bind_eq_some_iff]
    constructor
    · rintro ⟨m, hm, hpath⟩
      cases hp : m.parent with
      | some p => simp [hp] at hpath
      | none =>
        refine ⟨[k], .root (by rw [up_eq hm, hp]), rfl, ?_⟩
        simpa [hp, pathString, eq_comm] using hpath
    · rintro ⟨l, hl, hlen, rfl⟩
      cases hl with
      | root h =>
        obtain ⟨m, hm⟩ := up_ne_none.mp (by rw [h]; simp)
        rw [up_eq hm] at h
        exact ⟨m, hm, by simp [Option.some.inj h, pathString]⟩
      | child h hp =>
        cases hp <;> simp at hlen
  | succ n ih =>
    simp only [level, Table.get_filterMap, Option.bind_eq_some_iff]
    constructor
    · rintro ⟨m, hm, hpath⟩
      cases hp : m.parent with
      | none => simp [hp] at hpath
      | some p =>
        rw [hp] at hpath
        obtain ⟨path', hpath', rfl⟩ := Option.map_eq_some_iff.mp hpath
        obtain ⟨l, hl, hlen, rfl⟩ := ih.mp hpath'
        refine ⟨l ++ [k], .child (by rw [up_eq hm, hp]) hl, by simp [hlen], ?_⟩
        rw [pathString_concat]
    · rintro ⟨l, hl, hlen, rfl⟩
      cases hl with
      | root h => simp at hlen
      | @child _ p l h hp =>
        obtain ⟨m, hm⟩ := up_ne_none.mp (by rw [h]; simp)
        rw [up_eq hm] at h
        have hpath : (level t n).get p = some (pathString l) :=
          ih.mpr ⟨l, hp, by simpa using hlen, rfl⟩
        exact ⟨m, hm, by simp [Option.some.inj h, hpath, pathString_concat]⟩

theorem rounds_get (n : ℕ) :
    (rounds t n).get k = some path ↔
      ∃ l, Ancestry (up t) k l ∧ l.length ≤ n ∧ path = pathString l := by
  induction n generalizing path with
  | zero =>
    constructor
    · intro h
      cases h
    · rintro ⟨l, hl, hlen, -⟩
      have hpos : 0 < l.length := List.length_pos_of_mem hl.self_mem
      omega
  | succ n ih =>
    rw [rounds, Table.get_overlay, Option.or_eq_some_iff, ih, level_get]
    constructor
    · rintro (⟨l, hl, hlen, rfl⟩ | ⟨-, l, hl, hlen, rfl⟩)
      · exact ⟨l, hl, by omega, rfl⟩
      · exact ⟨l, hl, by omega, rfl⟩
    · rintro ⟨l, hl, hlen, rfl⟩
      by_cases hle : l.length ≤ n
      · exact .inl ⟨l, hl, hle, rfl⟩
      · refine .inr ⟨?_, l, hl, by omega, rfl⟩
        rw [Option.eq_none_iff_forall_ne_some]
        intro path hpath
        obtain ⟨l', hl', hlen', -⟩ := ih.mp hpath
        rw [hl'.unique hl] at hlen'
        omega

/-- **What the recursive statement computes**: the rows that hang from a root, with their paths. -/
theorem parentStoreCompute_get :
    (parentStoreCompute t).get k = some path ↔ ∃ l, Ancestry (up t) k l ∧ path = pathString l := by
  rw [parentStoreCompute, rounds_get]
  constructor
  · rintro ⟨l, hl, -, rfl⟩
    exact ⟨l, hl, rfl⟩
  · rintro ⟨l, hl, rfl⟩
    refine ⟨l, hl, hl.length_le fun a ha => ?_, rfl⟩
    obtain ⟨m, hm⟩ := up_ne_none.mp ha
    exact Table.mem_keys_of_get hm

@[simp] theorem up_recomputeParentStore : up (recomputeParentStore t) = up t := by
  apply up_congr
  intro k
  simp only [recomputeParentStore, Table.get_map, Option.map_map]
  congr 1
  funext m
  simp only [Function.comp_apply, restorePath]
  split <;> rfl

/-- **The recursive statement restores the paths** of a table without cycle. -/
theorem wellFormed_recompute (h : Grounded (up t)) : WellFormed (recomputeParentStore t) := by
  intro k m hm
  obtain ⟨m₀, hm₀, hm⟩ := Option.map_eq_some_iff.mp hm
  obtain ⟨l, hl⟩ := h k (up_ne_none.mpr ⟨m₀, hm₀⟩)
  refine ⟨l, by rwa [up_recomputeParentStore], ?_⟩
  have hpath : (parentStoreCompute t).get k = some (pathString l) :=
    parentStoreCompute_get.mpr ⟨l, hl, rfl⟩
  rw [← hm, restorePath, hpath]

end Recompute

end Totem.Website
