import Mathlib.Data.List.Basic

/-!
# Totem.Lib.Comparator — comparators, with missing values and one after the other

* `transCmp_compareAll`: comparators one after the other are a comparator.
* `compareAll_eq_eq_iff`: what they do not tell apart, none of them does.
-/

namespace Totem.Lib

open Std

section

variable {α β : Type*}

/-- The missing value first or last, and the others as they compare. -/
def compareOption (missingFirst : Bool) (cmp : α → α → Ordering) : Option α → Option α → Ordering
  | none, none => .eq
  | none, some _ => if missingFirst then .lt else .gt
  | some _, none => if missingFirst then .gt else .lt
  | some a, some b => cmp a b

instance {missingFirst : Bool} {cmp : α → α → Ordering} [TransCmp cmp] : TransCmp (compareOption missingFirst cmp) where
  eq_swap := by
    rintro (_ | a) (_ | b) <;> cases missingFirst <;> simp [compareOption]
    all_goals exact OrientedCmp.eq_swap
  isLE_trans := by
    rintro (_ | a) (_ | b) (_ | c) <;> cases missingFirst <;> simp [compareOption]
    all_goals exact fun hab hbc => TransCmp.isLE_trans hab hbc

/-- A comparator of the values of a function. -/
theorem transCmp_on (f : β → α) {cmp : α → α → Ordering} (h : TransCmp cmp) :
    TransCmp fun a b => cmp (f a) (f b) where
  eq_swap := OrientedCmp.eq_swap
  isLE_trans hab hbc := TransCmp.isLE_trans hab hbc

/-- Comparators one after the other. -/
def compareAll : List (α → α → Ordering) → α → α → Ordering
  | [] => fun _ _ => .eq
  | cmp :: cmps => compareLex cmp (compareAll cmps)

theorem transCmp_compareAll {cmps : List (α → α → Ordering)} (h : ∀ cmp ∈ cmps, TransCmp cmp) :
    TransCmp (compareAll cmps) := by
  induction cmps with
  | nil => exact { eq_swap := rfl, isLE_trans := fun _ _ => rfl }
  | cons cmp cmps ih =>
    obtain ⟨hcmp, hcmps⟩ := List.forall_mem_cons.1 h
    have hrest := ih hcmps
    exact inferInstanceAs (TransCmp (compareLex cmp (compareAll cmps)))

theorem compareAll_eq_eq_iff {cmps : List (α → α → Ordering)} {a b : α} :
    compareAll cmps a b = .eq ↔ ∀ cmp ∈ cmps, cmp a b = .eq := by
  induction cmps with
  | nil => simp [compareAll]
  | cons cmp cmps ih => rw [compareAll, compareLex_eq_eq, List.forall_mem_cons, ih]

end

end Totem.Lib
