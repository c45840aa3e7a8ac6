import Mathlib.Data.List.Infix
import Mathlib.Data.List.Count

/-!
# Totem.Lib.Replace — occurrences taken out

Python's `s.replace(old, "")` for an `old` that is not empty: the occurrences are found from the left and do not
overlap.

* `cutAll_eq_self_of_notInfix`, `length_cutAll_lt`: a list that has no occurrence stays, any other gets shorter.
* `countP_cutAll`: what is in no occurrence is kept.
-/

namespace Totem.Lib

variable {α : Type*} [DecidableEq α]

/-- `s.replace(old, "")`; the first argument is how much is left of an occurrence. -/
def cutAll (old : List α) : ℕ → List α → List α
  | _, [] => []
  | skip + 1, _ :: s => cutAll old skip s
  | 0, c :: s => if old.isPrefixOf (c :: s) then cutAll old (old.length - 1) s else c :: cutAll old 0 s

variable {old : List α}

theorem cutAll_of_starts {c : α} {s : List α} (h : old <+: c :: s) :
    cutAll old 0 (c :: s) = cutAll old (old.length - 1) s := if_pos (List.isPrefixOf_iff_prefix.2 h)

theorem cutAll_of_not_starts {c : α} {s : List α} (h : ¬ old <+: c :: s) :
    cutAll old 0 (c :: s) = c :: cutAll old 0 s := if_neg fun hstarts => h (List.isPrefixOf_iff_prefix.1 hstarts)

theorem cutAll_skip (w s : List α) : cutAll old w.length (w ++ s) = cutAll old 0 s := by
  induction w with
  | nil => rfl
  | cons c w ih => exact ih

theorem cutAll_append (hold : old ≠ []) (s : List α) : cutAll old 0 (old ++ s) = cutAll old 0 s := by
  obtain ⟨c, w, rfl⟩ := List.exists_cons_of_ne_nil hold
  have hstarts : c :: w <+: c :: (w ++ s) := List.prefix_append (c :: w) s
  rw [List.cons_append, cutAll_of_starts hstarts, List.length_cons, Nat.add_sub_cancel, cutAll_skip]

theorem length_cutAll_le (skip : ℕ) (s : List α) : (cutAll old skip s).length ≤ s.length := by
  induction s generalizing skip with
  | nil => rw [cutAll]
  | cons c s ih =>
    cases skip with
    | succ skip => exact (ih skip).trans (Nat.le_succ _)
    | zero =>
      rw [cutAll]
      split_ifs
      · exact (ih _).trans (Nat.le_succ _)
      · exact Nat.succ_le_succ (ih 0)

/-- A list that has no occurrence stays as it is. -/
theorem cutAll_eq_self_of_notInfix {s : List α} (h : ¬ old <:+: s) : cutAll old 0 s = s := by
  induction s with
  | nil => rfl
  | cons c s ih =>
    rw [cutAll_of_not_starts fun hstarts => h hstarts.isInfix, ih fun hinfix => h (List.infix_cons hinfix)]

/-- A list that has an occurrence gets shorter. -/
theorem length_cutAll_lt (hold : old ≠ []) {s : List α} (h : old <:+: s) : (cutAll old 0 s).length < s.length := by
  induction s with
  | nil => exact absurd (List.infix_nil.1 h) hold
  | cons c s ih =>
    by_cases hstarts : old <+: c :: s
    · rw [cutAll_of_starts hstarts]
      exact Nat.lt_succ_of_le (length_cutAll_le _ s)
    · rw [cutAll_of_not_starts hstarts]
      exact Nat.succ_lt_succ (ih ((List.infix_cons_iff.1 h).resolve_left hstarts))

/-- What is in no occurrence is kept. -/
theorem countP_cutAll (hold : old ≠ []) {p : α → Bool} (hp : ∀ c ∈ old, p c = false) (s : List α) :
    (cutAll old 0 s).countP p = s.countP p := by
  -- by induction on the length: after an occurrence the list is shorter by it
  induction hn : s.length using Nat.strong_induction_on generalizing s with
  | _ n ih =>
    cases s with
    | nil => rfl
    | cons c s =>
      by_cases hstarts : old <+: c :: s
      · obtain ⟨t, ht⟩ := hstarts
        have hlength : t.length < n := by
          rw [← hn, ← ht, List.length_append]
          have hpos := List.length_pos_of_ne_nil hold
          omega
        have hzero : old.countP p = 0 := List.countP_eq_zero.2 fun c hc => by simp [hp c hc]
        rw [← ht, cutAll_append hold, ih _ hlength t rfl, List.countP_append, hzero, Nat.zero_add]
      · have hlength : s.length < n := by
          rw [← hn]
          exact Nat.lt_succ_self _
        rw [cutAll_of_not_starts hstarts, List.countP_cons, List.countP_cons, ih _ hlength s rfl]

end Totem.Lib
