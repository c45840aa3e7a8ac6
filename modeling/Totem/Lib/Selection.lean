import Mathlib.Data.List.Nodup
import Mathlib.Algebra.BigOperators.Group.List.Basic
import Mathlib.Algebra.GroupWithZero.Nat

/-!
# Totem.Lib.Selection — conditions over records and the rows joined to them

A selection from a table is a chain of conditions.  A condition may look at rows joined to the record, and then
the record comes out once for every joined row that satisfies it; a negated condition is tested for itself and
joins nothing.

* `mem_select`, `count_select`: what comes out, and how often.
* `nodup_select_iff`: nothing comes out twice exactly when no selected record has two matches.
* `rowCount_le_one_of_local`: a chain that joins nothing matches a record at most once.
-/

namespace Totem.Lib

variable {R Rel J : Type}

/-- What the joins of a condition yield for a record: the joined rows, one if no relation is crossed. -/
structure Joins (R Rel J : Type) where
  rows : List Rel → R → List J
  rows_nil : ∀ r, (rows [] r).length = 1

inductive Cond (R Rel J : Type)
  | all
  | column (p : R → Bool)
  /-- A condition on the rows of some relations. -/
  | related (rels : List Rel) (p : R → J → Bool)
  | and (c d : Cond R Rel J)
  | or (c d : Cond R Rel J)
  | not (c : Cond R Rel J)

namespace Cond

/-- The relations the condition joins. -/
def rels : Cond R Rel J → List Rel
  | .all => []
  | .column _ => []
  | .related rels _ => rels
  | .and c d => c.rels ++ d.rels
  | .or c d => c.rels ++ d.rels
  | .not _ => []

/-- The condition without its joins: some joined row satisfies each part of it. -/
def somewhere (joins : Joins R Rel J) (r : R) : Cond R Rel J → Bool
  | .all => true
  | .column p => p r
  | .related rels p => (joins.rows rels r).any (p r)
  | .and c d => c.somewhere joins r && d.somewhere joins r
  | .or c d => c.somewhere joins r || d.somewhere joins r
  | .not c => !c.somewhere joins r

/-- The condition on a record and one joined row. -/
def holds (joins : Joins R Rel J) (r : R) (j : J) : Cond R Rel J → Bool
  | .all => true
  | .column p => p r
  | .related _ p => p r j
  | .and c d => c.holds joins r j && d.holds joins r j
  | .or c d => c.holds joins r j || d.holds joins r j
  | .not c => !c.somewhere joins r

/-- The joined rows that satisfy the condition. -/
def hits (joins : Joins R Rel J) (c : Cond R Rel J) (r : R) : List J :=
  (joins.rows c.rels r).filter fun j => c.holds joins r j

theorem hits_column (joins : Joins R Rel J) (p : R → Bool) (r : R) :
    ((column p : Cond R Rel J).hits joins r).length = if p r then 1 else 0 := by
  have h := joins.rows_nil r
  by_cases hp : p r = true
  · simp [hits, holds, rels, hp, h]
  · simp [hits, holds, rels, hp]

theorem length_hits_le (joins : Joins R Rel J) {c : Cond R Rel J} (h : c.rels = []) (r : R) :
    (c.hits joins r).length ≤ 1 := by
  have hlength := joins.rows_nil r
  rw [← h] at hlength
  rw [← hlength]
  exact List.length_filter_le _ _

theorem holds_eq_somewhere (joins : Joins R Rel J) {r : R} {j : J} (hj : joins.rows [] r = [j])
    {c : Cond R Rel J} (h : c.rels = []) : c.holds joins r j = c.somewhere joins r := by
  induction c with
  | all => rfl
  | column p => rfl
  | related rels p =>
    obtain rfl : rels = [] := h
    simp [holds, somewhere, hj]
  | and c d ihc ihd =>
    obtain ⟨hc, hd⟩ := List.append_eq_nil_iff.1 h
    rw [holds, somewhere, ihc hc, ihd hd]
  | or c d ihc ihd =>
    obtain ⟨hc, hd⟩ := List.append_eq_nil_iff.1 h
    rw [holds, somewhere, ihc hc, ihd hd]
  | not c _ => rfl

/-- A condition that joins nothing is a predicate on the record. -/
theorem hits_ne_nil_iff (joins : Joins R Rel J) {c : Cond R Rel J} (h : c.rels = []) (r : R) :
    c.hits joins r ≠ [] ↔ c.somewhere joins r = true := by
  obtain ⟨j, hj⟩ := List.length_eq_one_iff.1 (joins.rows_nil r)
  unfold hits
  rw [h, hj, List.filter_singleton, holds_eq_somewhere joins hj h]
  cases c.somewhere joins r <;> simp

end Cond

/-! ## Chains of conditions -/

/-- The number of ways a record satisfies every condition of the chain. -/
def rowCount (joins : Joins R Rel J) (q : List (Cond R Rel J)) (r : R) : ℕ :=
  (q.map fun c => (c.hits joins r).length).prod

/-- The record satisfies every condition of the chain. -/
def Selects (joins : Joins R Rel J) (q : List (Cond R Rel J)) (r : R) : Prop :=
  ∀ c ∈ q, c.hits joins r ≠ []

/-- What the chain selects from a table. -/
def select (joins : Joins R Rel J) (table : List R) (q : List (Cond R Rel J)) : List R :=
  table.flatMap fun r => List.replicate (rowCount joins q r) r

section

variable {joins : Joins R Rel J} {table : List R} {q p : List (Cond R Rel J)} {r : R}

theorem rowCount_append (q p : List (Cond R Rel J)) (r : R) :
    rowCount joins (q ++ p) r = rowCount joins q r * rowCount joins p r := by
  simp [rowCount]

theorem selects_append : Selects joins (q ++ p) r ↔ Selects joins q r ∧ Selects joins p r := by
  simp only [Selects, List.mem_append, or_imp, forall_and]

theorem rowCount_pos : 0 < rowCount joins q r ↔ Selects joins q r := by
  induction q with
  | nil => simp [rowCount, Selects]
  | cons c q ih =>
    have hcons : rowCount joins (c :: q) r = (c.hits joins r).length * rowCount joins q r := by
      simp [rowCount]
    rw [hcons, Nat.pos_iff_ne_zero, Nat.mul_ne_zero_iff, ← Nat.pos_iff_ne_zero (n := rowCount joins q r), ih]
    simp [Selects, List.length_eq_zero_iff]

instance : Decidable (Selects joins q r) := decidable_of_iff _ rowCount_pos

theorem mem_select : r ∈ select joins table q ↔ r ∈ table ∧ Selects joins q r := by
  rw [← rowCount_pos]
  simp only [select, List.mem_flatMap, List.mem_replicate]
  constructor
  · rintro ⟨r', hmem, hne, rfl⟩
    exact ⟨hmem, Nat.pos_of_ne_zero hne⟩
  · rintro ⟨hmem, hpos⟩
    exact ⟨r, hmem, by omega, rfl⟩

theorem count_select [DecidableEq R] (htable : table.Nodup) (hr : r ∈ table) :
    (select joins table q).count r = rowCount joins q r := by
  induction table with
  | nil => cases hr
  | cons r' table ih =>
    obtain ⟨hr', htable⟩ := List.nodup_cons.1 htable
    have hcons : select joins (r' :: table) q
        = List.replicate (rowCount joins q r') r' ++ select joins table q := by
      simp [select]
    rw [hcons, List.count_append, List.count_replicate]
    by_cases h : r' = r
    · subst h
      have hrest : (select joins table q).count r' = 0 :=
        List.count_eq_zero.2 fun hmem => hr' (mem_select.1 hmem).1
      simp [hrest]
    · have hmem : r ∈ table := (List.mem_cons.1 hr).resolve_left fun heq => h heq.symm
      simp [h, ih htable hmem]

/-- **Nothing comes out twice exactly when every selected record has one match.** -/
theorem nodup_select_iff (htable : table.Nodup) :
    (select joins table q).Nodup ↔ ∀ r ∈ table, Selects joins q r → rowCount joins q r = 1 := by
  have hdisjoint : table.Pairwise fun a b =>
      (List.replicate (rowCount joins q a) a).Disjoint (List.replicate (rowCount joins q b) b) := by
    refine htable.imp fun {a b} hne x ha hb => hne ?_
    rw [← List.eq_of_mem_replicate ha, ← List.eq_of_mem_replicate hb]
  rw [select, List.nodup_flatMap]
  constructor
  · rintro ⟨hnodup, -⟩ r hr hsel
    have hpos := rowCount_pos.2 hsel
    have hle := List.nodup_replicate.1 (hnodup r hr)
    omega
  · intro h
    refine ⟨fun r hr => List.nodup_replicate.2 ?_, hdisjoint⟩
    by_cases hsel : Selects joins q r
    · exact Nat.le_of_eq (h r hr hsel)
    · have hzero : ¬ 0 < rowCount joins q r := fun hpos => hsel (rowCount_pos.1 hpos)
      omega

theorem length_select : (select joins table q).length = (table.map (rowCount joins q)).sum := by
  simp [select, List.length_flatMap]

/-- A chain that joins nothing matches a record at most once. -/
theorem rowCount_le_one_of_local (h : ∀ c ∈ q, c.rels = []) : rowCount joins q r ≤ 1 := by
  induction q with
  | nil => simp [rowCount]
  | cons c q ih =>
    have hc := Cond.length_hits_le joins (h c (List.mem_cons_self ..)) r
    have hq := ih fun d hd => h d (List.mem_cons_of_mem _ hd)
    have hcons : rowCount joins (c :: q) r = (c.hits joins r).length * rowCount joins q r := by
      simp [rowCount]
    calc rowCount joins (c :: q) r = (c.hits joins r).length * rowCount joins q r := hcons
      _ ≤ 1 * 1 := Nat.mul_le_mul hc hq

end

end Totem.Lib
