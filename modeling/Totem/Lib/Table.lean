import Mathlib.Data.Finset.Basic
import Mathlib.Data.Finset.Image
import Mathlib.Algebra.BigOperators.Group.Finset.Basic

/-!
# Totem.Lib.Table — finite tables

`Table K R` is a finite map from keys to rows: a partial function with the finite set of the keys it
is defined on, so that a table can be searched and summed over.  The second component is determined
by the first (`Table.ext`).  `filterMap` is every update and deletion, `apply` replays written rows
over a table, `total` is a sum over the rows.
-/

namespace Totem.Lib

/-- A finite map from keys to rows. -/
structure Table (K R : Type*) where
  get : K → Option R
  keys : Finset K
  mem_keys : ∀ k, k ∈ keys ↔ (get k).isSome

namespace Table

variable {K R S α : Type*}

@[ext] theorem ext {t u : Table K R} (h : ∀ k, t.get k = u.get k) : t = u := by
  obtain ⟨get, keys, hk⟩ := t
  obtain ⟨get', keys', hk'⟩ := u
  have hget : get = get' := funext h
  subst hget
  have hkeys : keys = keys' := Finset.ext fun k => (hk k).trans (hk' k).symm
  subst hkeys
  rfl

theorem mem_keys_iff {t : Table K R} {k : K} : k ∈ t.keys ↔ ∃ r, t.get k = some r := by
  rw [t.mem_keys, Option.isSome_iff_exists]

theorem mem_keys_of_get {t : Table K R} {k : K} {r : R} (h : t.get k = some r) : k ∈ t.keys :=
  mem_keys_iff.mpr ⟨r, h⟩

theorem get_eq_none {t : Table K R} {k : K} : t.get k = none ↔ k ∉ t.keys := by
  rw [t.mem_keys, Bool.not_eq_true, Option.isSome_eq_false_iff, Option.isNone_iff_eq_none]

/-! ## Rows rewritten and dropped -/

/-- The table without rows. -/
def empty : Table K R := ⟨fun _ => none, ∅, by simp⟩

/-- Rewrite every row, or drop it. -/
def filterMap (f : K → R → Option S) (t : Table K R) : Table K S where
  get k := (t.get k).bind (f k)
  keys := t.keys.filter fun k => ((t.get k).bind (f k)).isSome
  mem_keys k := by
    rw [Finset.mem_filter, t.mem_keys]
    cases t.get k <;> simp

/-- Rewrite every row. -/
def map (f : K → R → S) (t : Table K R) : Table K S where
  get k := (t.get k).map (f k)
  keys := t.keys
  mem_keys k := by rw [t.mem_keys, Option.isSome_map]

/-- Keep the rows that satisfy `p`. -/
def filter (p : K → R → Bool) (t : Table K R) : Table K R :=
  t.filterMap fun k r => if p k r then some r else none

/-- The keys of the rows that satisfy `p`. -/
def find (p : K → R → Bool) (t : Table K R) : Finset K :=
  t.keys.filter fun k => (t.get k).any (p k)

@[simp] theorem get_empty (k : K) : (empty : Table K R).get k = none := rfl

@[simp] theorem keys_empty : (empty : Table K R).keys = ∅ := rfl

@[simp] theorem get_filterMap (f : K → R → Option S) (t : Table K R) (k : K) :
    (t.filterMap f).get k = (t.get k).bind (f k) := rfl

@[simp] theorem get_map (f : K → R → S) (t : Table K R) (k : K) :
    (t.map f).get k = (t.get k).map (f k) := rfl

@[simp] theorem keys_map (f : K → R → S) (t : Table K R) : (t.map f).keys = t.keys := rfl

@[simp] theorem get_filter (p : K → R → Bool) (t : Table K R) (k : K) :
    (t.filter p).get k = (t.get k).filter (p k) := by
  cases h : t.get k <;> simp [filter, h, Option.filter]

theorem mem_find {p : K → R → Bool} {t : Table K R} {k : K} :
    k ∈ t.find p ↔ ∃ r, t.get k = some r ∧ p k r = true := by
  rw [find, Finset.mem_filter, t.mem_keys]
  cases t.get k <;> simp

/-! ## Rows written over a table -/

section Write

variable [DecidableEq K]

/-- Write one row. -/
def insert (k : K) (r : R) (t : Table K R) : Table K R where
  get := Function.update t.get k (some r)
  keys := Insert.insert k t.keys
  mem_keys k' := by
    rw [Finset.mem_insert, t.mem_keys]
    by_cases h : k' = k
    · subst h; simp
    · simp [h]

/-- The rows of `u` over those of `t`. -/
def overlay (u t : Table K R) : Table K R where
  get k := (u.get k).or (t.get k)
  keys := u.keys ∪ t.keys
  mem_keys k := by rw [Finset.mem_union, u.mem_keys, t.mem_keys, Option.isSome_or, Bool.or_eq_true]

/-- Replay the written rows `w` over `t`: `none` is a row deleted. -/
def apply (w : Table K (Option R)) (t : Table K R) : Table K R where
  get k := (w.get k).getD (t.get k)
  keys := (w.keys ∪ t.keys).filter fun k => ((w.get k).getD (t.get k)).isSome
  mem_keys k := by
    rw [Finset.mem_filter, Finset.mem_union, w.mem_keys, t.mem_keys]
    cases w.get k <;> simp

@[simp] theorem get_insert_self (k : K) (r : R) (t : Table K R) : (t.insert k r).get k = some r := by
  simp [insert]

theorem get_insert_of_ne {k k' : K} (h : k' ≠ k) (r : R) (t : Table K R) :
    (t.insert k r).get k' = t.get k' := by
  simp [insert, h]

theorem get_insert_empty {k k' : K} {r r' : R} :
    (empty.insert k r).get k' = some r' ↔ k' = k ∧ r' = r := by
  by_cases h : k' = k
  · subst h
    simp [eq_comm]
  · simp [get_insert_of_ne h, h]

@[simp] theorem get_overlay (u t : Table K R) (k : K) :
    (u.overlay t).get k = (u.get k).or (t.get k) := rfl

@[simp] theorem get_apply (w : Table K (Option R)) (t : Table K R) (k : K) :
    (apply w t).get k = (w.get k).getD (t.get k) := rfl

@[simp] theorem apply_empty (t : Table K R) : apply empty t = t := by
  ext k; simp

/-- Rows of a view rewritten, on top of the writes behind the view. -/
theorem apply_overlay_map {rows t : Table K R} {w : Table K (Option R)}
    (hrows : ∀ k r, rows.get k = some r → (apply w t).get k = some r) (f : K → R → R) :
    apply ((rows.map fun k r => some (f k r)).overlay w) t =
      (apply w t).map fun k r => if k ∈ rows.keys then f k r else r := by
  ext1 k
  cases hk : rows.get k with
  | none =>
    have hmem : k ∉ rows.keys := get_eq_none.mp hk
    simp [hk, hmem]
  | some r =>
    have hmem : k ∈ rows.keys := mem_keys_of_get hk
    have hview := hrows k r hk
    rw [get_apply] at hview
    simp [hk, hmem, hview]

end Write

/-! ## Sums -/

section Total

variable [AddCommMonoid α]

/-- The sum of `f` over the rows. -/
def total (f : K → R → α) (t : Table K R) : α :=
  ∑ k ∈ t.keys, (t.get k).elim 0 (f k)

theorem total_eq_of_subset {t : Table K R} (f : K → R → α) {s : Finset K} (hs : t.keys ⊆ s) :
    t.total f = ∑ k ∈ s, (t.get k).elim 0 (f k) := by
  apply Finset.sum_subset hs
  intro k _ hk
  rw [get_eq_none.mpr hk]
  rfl

/-- Two tables with the same terms have the same sum. -/
theorem total_congr [DecidableEq K] {t : Table K R} {u : Table K S} {f : K → R → α} {g : K → S → α}
    (h : ∀ k, (t.get k).elim 0 (f k) = (u.get k).elim 0 (g k)) : t.total f = u.total g := by
  rw [total_eq_of_subset f (Finset.subset_union_left : t.keys ⊆ t.keys ∪ u.keys),
    total_eq_of_subset g (Finset.subset_union_right : u.keys ⊆ t.keys ∪ u.keys)]
  exact Finset.sum_congr rfl fun k _ => h k

/-- A sum over the rows of a query. -/
theorem total_find (p : K → R → Bool) (f : K → R → α) (t : Table K R) :
    (t.total fun k r => if p k r then f k r else 0) = ∑ k ∈ t.find p, (t.get k).elim 0 (f k) := by
  have hsub : t.find p ⊆ t.keys := by
    intro k hk
    obtain ⟨r, hr, -⟩ := mem_find.mp hk
    exact mem_keys_of_get hr
  unfold total
  rw [← Finset.sum_subset hsub]
  · apply Finset.sum_congr rfl
    intro k hk
    obtain ⟨r, hr, hp⟩ := mem_find.mp hk
    simp [hr, hp]
  · intro k hk hnot
    obtain ⟨r, hr⟩ := mem_keys_iff.mp hk
    have hp : p k r ≠ true := fun hp => hnot (mem_find.mpr ⟨r, hr, hp⟩)
    simp [hr, hp]

theorem total_empty (f : K → R → α) : (empty : Table K R).total f = 0 := by
  simp [total]

theorem total_insert [DecidableEq K] {k : K} {t : Table K R} (h : t.get k = none) (r : R)
    (f : K → R → α) : (t.insert k r).total f = f k r + t.total f := by
  have hk : k ∉ t.keys := get_eq_none.mp h
  have hkeys : (t.insert k r).keys = Insert.insert k t.keys := rfl
  rw [total, hkeys, Finset.sum_insert hk, get_insert_self]
  congr 1
  apply Finset.sum_congr rfl
  intro k' hk'
  rw [get_insert_of_ne (by rintro rfl; exact hk hk')]

end Total

section Change

variable [AddCommGroup α] [DecidableEq K]

/-- What the written rows change of a sum. -/
def change (f : K → R → α) (w : Table K (Option R)) (t : Table K R) : α :=
  ∑ k ∈ w.keys, ((w.get k).join.elim 0 (f k) - (t.get k).elim 0 (f k))

/-- **A sum after a write**: what it was and what the written rows change. -/
theorem total_apply (f : K → R → α) (w : Table K (Option R)) (t : Table K R) :
    (apply w t).total f = t.total f + change f w t := by
  have hsub : (apply w t).keys ⊆ w.keys ∪ t.keys := Finset.filter_subset _ _
  have hchange : change f w t = ∑ k ∈ w.keys ∪ t.keys,
      (((apply w t).get k).elim 0 (f k) - (t.get k).elim 0 (f k)) := by
    have hterm : ∀ k ∈ w.keys, (w.get k).join.elim 0 (f k) - (t.get k).elim 0 (f k) =
        ((apply w t).get k).elim 0 (f k) - (t.get k).elim 0 (f k) := by
      intro k hk
      obtain ⟨o, ho⟩ := mem_keys_iff.mp hk
      simp [ho]
    rw [change, Finset.sum_congr rfl hterm]
    apply Finset.sum_subset Finset.subset_union_left
    intro k _ hk
    simp [get_eq_none.mpr hk]
  rw [total_eq_of_subset f hsub, total_eq_of_subset f (Finset.subset_union_right : t.keys ⊆ _),
    hchange, ← Finset.sum_add_distrib]
  exact Finset.sum_congr rfl fun k _ => (add_sub_cancel _ _).symm

omit [DecidableEq K] in
/-- The change depends on the rows written over alone. -/
theorem change_congr {f : K → R → α} {w : Table K (Option R)} {t u : Table K R}
    (h : ∀ k ∈ w.keys, t.get k = u.get k) : change f w t = change f w u := by
  apply Finset.sum_congr rfl
  intro k hk
  rw [h k hk]

end Change

end Table

end Totem.Lib
