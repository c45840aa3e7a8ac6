import Mathlib.Algebra.GroupWithZero.Nat
import Mathlib.Data.List.Basic

/-!
# Totem.Lib.Words — texts split at separators

The words of a text are the runs between its separators, the empty ones left out.

* `mem_splitOnP_iff`: the pieces of a text are what stands between its separators.
* `countP_intercalate`: what is in pieces joined by a separator.
* `splitOnP_intercalate`, `length_splitOnP_intercalate`: when joined pieces are read back.
* `words_intercalate`: words without separators, joined by one, are read back.
-/

namespace Totem.Lib

section

variable {α : Type*} {p : α → Bool}

theorem not_sep_of_mem_splitOnP {w x : List α} (h : x ∈ w.splitOnP p) : ∀ c ∈ x, p c = false := by
  induction w generalizing x with
  | nil =>
    rw [List.splitOnP_nil, List.mem_singleton] at h
    subst h
    exact fun c hc => absurd hc List.not_mem_nil
  | cons a w ih =>
    rw [List.splitOnP_cons_eq_if_modifyHead] at h
    by_cases ha : p a = true
    · rw [if_pos ha, List.mem_cons] at h
      obtain rfl | h := h
      · exact fun c hc => absurd hc List.not_mem_nil
      · exact ih h
    · rw [if_neg ha] at h
      obtain ⟨first, rest, hsplit⟩ := List.exists_cons_of_ne_nil (List.splitOnP_ne_nil p w)
      rw [hsplit, List.modifyHead_cons, List.mem_cons] at h
      obtain rfl | h := h
      · refine List.forall_mem_cons.2 ⟨Bool.eq_false_iff.2 ha, ?_⟩
        exact ih (hsplit ▸ List.mem_cons_self)
      · exact ih (hsplit ▸ List.mem_cons_of_mem _ h)

/-- What pieces joined by a separator hold of a kind. -/
theorem countP_intercalate (p : α → Bool) (sep : α) {pieces : List (List α)} (h : pieces ≠ []) :
    ([sep].intercalate pieces).countP p + [sep].countP p =
      (pieces.map fun x => x.countP p + [sep].countP p).sum := by
  induction pieces with
  | nil => exact absurd rfl h
  | cons x pieces ih =>
    cases pieces with
    | nil => rw [List.intercalate_singleton, List.map_singleton, List.sum_singleton]
    | cons y pieces =>
      have hrest := ih (List.cons_ne_nil y pieces)
      rw [List.intercalate_cons_cons, List.countP_append, List.countP_append, List.map_cons, List.sum_cons, ← hrest]
      omega

theorem notMem_of_mem_splitOn [BEq α] [LawfulBEq α] {sep : α} {s seg : List α} (h : seg ∈ s.splitOn sep) :
    sep ∉ seg := by
  intro hmem
  rw [List.splitOn_eq_splitOnP] at h
  have hsep := not_sep_of_mem_splitOnP h sep hmem
  simp at hsep

theorem splitOnP_intercalate {sep : α} (hsep : p sep = true) {ws : List (List α)} (hne : ws ≠ [])
    (h : ∀ w ∈ ws, ∀ c ∈ w, p c = false) : ([sep].intercalate ws).splitOnP p = ws := by
  induction ws with
  | nil => exact absurd rfl hne
  | cons w ws ih =>
    obtain ⟨hw, hws⟩ := List.forall_mem_cons.1 h
    cases ws with
    | nil => rw [List.intercalate_singleton, List.splitOnP_eq_singleton hw]
    | cons w' ws =>
      rw [List.intercalate_cons_of_ne_nil (List.cons_ne_nil w' ws), List.append_assoc, List.singleton_append,
        List.splitOnP_append_cons_of_forall_mem hw sep hsep, ih (List.cons_ne_nil w' ws) hws]

theorem length_splitOnP (p : α → Bool) (w : List α) : (w.splitOnP p).length = w.countP p + 1 := by
  induction w with
  | nil => rfl
  | cons a w ih =>
    rw [List.splitOnP_cons_eq_if_modifyHead]
    by_cases ha : p a = true
    · rw [if_pos ha, List.length_cons, ih, List.countP_cons_of_pos ha]
    · rw [if_neg ha, List.length_modifyHead, ih, List.countP_cons_of_neg ha]

theorem sum_succ_countP (p : α → Bool) (ws : List (List α)) : ws.length ≤ (ws.map fun w => w.countP p + 1).sum ∧
    ((ws.map fun w => w.countP p + 1).sum = ws.length → ∀ w ∈ ws, ∀ c ∈ w, p c = false) := by
  induction ws with
  | nil => exact ⟨Nat.le_refl 0, fun _ w hw => absurd hw List.not_mem_nil⟩
  | cons w ws ih =>
    rw [List.map_cons, List.sum_cons, List.length_cons, List.forall_mem_cons]
    refine ⟨by omega, fun hsum => ⟨fun c hc => ?_, ih.2 (by omega)⟩⟩
    have hzero : w.countP p = 0 := by omega
    exact Bool.eq_false_iff.mpr (List.countP_eq_zero.mp hzero c hc)

/-- Joined pieces are split into as many where no piece has a separator, and there only. -/
theorem length_splitOnP_intercalate {sep : α} (hsep : p sep = true) {ws : List (List α)} (hne : ws ≠ []) :
    (([sep].intercalate ws).splitOnP p).length = ws.length ↔ ∀ w ∈ ws, ∀ c ∈ w, p c = false := by
  constructor
  · intro hlength
    have hcount := countP_intercalate p sep hne
    have hone : [sep].countP p = 1 := by rw [List.countP_singleton, if_pos hsep]
    rw [length_splitOnP] at hlength
    rw [hone, hlength] at hcount
    exact (sum_succ_countP p ws).2 hcount.symm
  · exact fun h => by rw [splitOnP_intercalate hsep hne h]

/-- `x` stands in `w` between two separators, or a separator and an end. -/
structure Between (p : α → Bool) (w x : List α) : Prop where
  notSep : ∀ c ∈ x, p c = false
  around : ∃ pre post, w = pre ++ x ++ post ∧ (pre = [] ∨ ∃ u c, pre = u ++ [c] ∧ p c = true) ∧
    (post = [] ∨ ∃ c u, post = c :: u ∧ p c = true)

theorem mem_splitOnP_start {x post : List α} (hx : ∀ c ∈ x, p c = false)
    (hpost : post = [] ∨ ∃ c u, post = c :: u ∧ p c = true) : x ∈ (x ++ post).splitOnP p := by
  obtain rfl | ⟨c, u, rfl, hc⟩ := hpost
  · rw [List.append_nil, List.splitOnP_eq_singleton hx]
    exact List.mem_singleton_self x
  · rw [List.splitOnP_append_cons_of_forall_mem hx c hc]
    exact List.mem_cons_self

theorem eq_append_sep (p : α → Bool) (w : List α) :
    (∀ c ∈ w, p c = false) ∨ ∃ u c v, w = u ++ c :: v ∧ (∀ d ∈ u, p d = false) ∧ p c = true := by
  induction w with
  | nil => exact Or.inl fun c hc => absurd hc List.not_mem_nil
  | cons a w ih =>
    by_cases ha : p a = true
    · exact Or.inr ⟨[], a, w, rfl, fun d hd => absurd hd List.not_mem_nil, ha⟩
    · have hfalse : p a = false := Bool.eq_false_iff.2 ha
      obtain hw | ⟨u, c, v, rfl, hu, hc⟩ := ih
      · exact Or.inl (List.forall_mem_cons.2 ⟨hfalse, hw⟩)
      · exact Or.inr ⟨a :: u, c, v, rfl, List.forall_mem_cons.2 ⟨hfalse, hu⟩, hc⟩

theorem exists_around_of_mem_splitOnP {w x : List α} (h : x ∈ w.splitOnP p) :
    ∃ pre post, w = pre ++ x ++ post ∧ (pre = [] ∨ ∃ u c, pre = u ++ [c] ∧ p c = true) ∧
      (post = [] ∨ ∃ c u, post = c :: u ∧ p c = true) := by
  induction hn : w.length using Nat.strongRecOn generalizing w with
  | _ n ih =>
    obtain hw | ⟨u, c, v, rfl, hu, hc⟩ := eq_append_sep p w
    · rw [List.splitOnP_eq_singleton hw, List.mem_singleton] at h
      exact ⟨[], [], by rw [h, List.nil_append, List.append_nil], Or.inl rfl, Or.inl rfl⟩
    · rw [List.splitOnP_append_cons_of_forall_mem hu c hc, List.mem_cons] at h
      obtain rfl | h := h
      · exact ⟨[], c :: v, rfl, Or.inl rfl, Or.inr ⟨c, v, rfl, hc⟩⟩
      · obtain ⟨pre, post, rfl, hpre, hpost⟩ := ih v.length (by simp at hn; omega) h rfl
        refine ⟨u ++ c :: pre, post, by simp, Or.inr ?_, hpost⟩
        obtain rfl | ⟨t, d, rfl, hd⟩ := hpre
        · exact ⟨u, c, rfl, hc⟩
        · exact ⟨u ++ c :: t, d, by simp, hd⟩

/-- **The pieces of a text are what stands between its separators.** -/
theorem mem_splitOnP_iff {w x : List α} : x ∈ w.splitOnP p ↔ Between p w x := by
  constructor
  · exact fun h => ⟨not_sep_of_mem_splitOnP h, exists_around_of_mem_splitOnP h⟩
  · rintro ⟨hx, pre, post, rfl, hpre, hpost⟩
    obtain rfl | ⟨u, c, rfl, hc⟩ := hpre
    · exact mem_splitOnP_start hx hpost
    · rw [List.append_assoc, List.append_assoc, List.singleton_append, List.splitOnP_append_cons _ _ hc]
      exact List.mem_append_right _ (mem_splitOnP_start hx hpost)

/-- The words of a text: `s.split()`. -/
def words (p : α → Bool) (w : List α) : List (List α) := (w.splitOnP p).filter fun x => !x.isEmpty

theorem not_sep_of_mem_words {w x : List α} (h : x ∈ words p w) : ∀ c ∈ x, p c = false :=
  not_sep_of_mem_splitOnP (List.mem_filter.1 h).1

/-- **Words without separators, joined by one, are read back.** -/
theorem words_intercalate {sep : α} (hsep : p sep = true) {ws : List (List α)}
    (h : ∀ w ∈ ws, w ≠ [] ∧ ∀ c ∈ w, p c = false) : words p ([sep].intercalate ws) = ws := by
  rcases eq_or_ne ws [] with rfl | hne
  · rfl
  · rw [words, splitOnP_intercalate hsep hne fun w hw => (h w hw).2, List.filter_eq_self]
    intro w hw
    rw [Bool.not_eq_true', List.isEmpty_eq_false_iff]
    exact (h w hw).1

end

end Totem.Lib
