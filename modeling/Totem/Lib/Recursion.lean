import Mathlib.Data.List.Basic
import Mathlib.Logic.Relation

/-!
# Totem.Lib.Recursion — recursion along a graph

A recursive function that calls itself on all the successors of its argument, a finite list, and has no case of its own
to stop.

* `ends_iff_acc`: it ends exactly where every path does.
* `not_ends_of_cycle`: it does not end on a cycle.
-/

namespace Totem.Lib

variable {α : Type*} (succ : α → List α)

/-- The calls below this one return within `n` levels. -/
def EndsWithin : ℕ → α → Prop
  | 0, _ => False
  | n + 1, a => ∀ b ∈ succ a, EndsWithin n b

def Ends (a : α) : Prop := ∃ n, EndsWithin succ n a

variable {succ} {n n' : ℕ} {a b : α}

theorem EndsWithin.mono (h : EndsWithin succ n a) (hle : n ≤ n') : EndsWithin succ n' a := by
  induction n generalizing n' a with
  | zero => exact h.elim
  | succ n ih =>
    cases n' with
    | zero => omega
    | succ n' => exact fun b hb => ih (h b hb) (by omega)

/-- One level: the recursion ends if it ends on each successor. -/
theorem ends_iff : Ends succ a ↔ ∀ b ∈ succ a, Ends succ b := by
  constructor
  · rintro ⟨n, h⟩ b hb
    cases n with
    | zero => exact h.elim
    | succ n => exact ⟨n, h b hb⟩
  · intro h
    -- the successors are finitely many: the deepest of them decides
    have hbound : ∀ bs : List α, (∀ b ∈ bs, Ends succ b) → ∃ n, ∀ b ∈ bs, EndsWithin succ n b := by
      intro bs
      induction bs with
      | nil => exact fun _ => ⟨0, fun b hb => (List.not_mem_nil hb).elim⟩
      | cons b bs ih =>
        intro hall
        obtain ⟨⟨n₁, h₁⟩, hrest⟩ := List.forall_mem_cons.mp hall
        obtain ⟨n₂, h₂⟩ := ih hrest
        refine ⟨max n₁ n₂, List.forall_mem_cons.mpr ⟨h₁.mono (by omega), fun b hb => ?_⟩⟩
        exact (h₂ b hb).mono (by omega)
    obtain ⟨n, hn⟩ := hbound (succ a) h
    exact ⟨n + 1, hn⟩

/-- **The recursion ends exactly where every path does.** -/
theorem ends_iff_acc : Ends succ a ↔ Acc (fun b a => b ∈ succ a) a := by
  constructor
  · rintro ⟨n, h⟩
    induction n generalizing a with
    | zero => exact h.elim
    | succ n ih => exact ⟨a, fun b hb => ih (h b hb)⟩
  · intro h
    induction h with
    | intro a _ ih => exact ends_iff.mpr ih

/-- **It does not end on a cycle.** -/
theorem not_ends_of_cycle (h : Relation.TransGen (fun a b => b ∈ succ a) a a) : ¬ Ends succ a := by
  intro hends
  induction ends_iff_acc.mp hends with
  | intro a _ ih =>
    -- the next one is on the cycle too
    obtain ⟨b, hb, hback⟩ := Relation.TransGen.head'_iff.mp h
    exact ih b hb (Relation.TransGen.tail' hback hb) (ends_iff.mp hends b hb)

end Totem.Lib
