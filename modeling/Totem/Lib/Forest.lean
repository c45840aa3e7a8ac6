import Mathlib.Data.Finset.Card
import Mathlib.Data.List.Nodup
import Mathlib.Logic.Relation

/-!
# Totem.Lib.Forest — parent pointers

`up k` is `none` when there is no node `k`, `some none` when `k` is a root, and `some (some p)` when
`p` is its parent.  `Ancestry up k l` says that `l` is the way down from a root to `k`; a structure is
`Grounded` when every node has one, and then it has no cycle.

* `Grounded.reparent`: nodes may be moved under a node none of them is above.
* `Ancestry.extend`, `Ancestry.restrict`: nodes may be added, and leaves removed.
* `Ancestry.graft`, `not_ancestry_of_below`: one node moved, elsewhere or under itself.
-/

namespace Totem.Lib.Forest

variable {K : Type*}

/-- `l` leads from a root down to `k`. -/
inductive Ancestry (up : K → Option (Option K)) : K → List K → Prop
  | root {k : K} (h : up k = some none) : Ancestry up k [k]
  | child {k p : K} {l : List K} (h : up k = some (some p)) (hp : Ancestry up p l) :
      Ancestry up k (l ++ [k])

/-- `b` is the parent of `a`. -/
def IsParent (up : K → Option (Option K)) (a b : K) : Prop := up a = some (some b)

/-- No node is above itself. -/
def Acyclic (up : K → Option (Option K)) : Prop := ∀ k, ¬ Relation.TransGen (IsParent up) k k

/-- Every node hangs from a root. -/
def Grounded (up : K → Option (Option K)) : Prop := ∀ k, up k ≠ none → ∃ l, Ancestry up k l

/-- The nodes of `s` moved under `p`, or to the top. -/
def reparent (up : K → Option (Option K)) (s : K → Prop) [DecidablePred s] (p : Option K) (k : K) :
    Option (Option K) :=
  if s k then (up k).map fun _ => p else up k

section Ancestry

variable {up up' : K → Option (Option K)} {k a : K} {l l' : List K}

theorem Ancestry.ne_none (h : Ancestry up k l) : up k ≠ none := by
  cases h with
  | root h => rw [h]; simp
  | child h _ => rw [h]; simp

/-- A node has one ancestry. -/
theorem Ancestry.unique (h : Ancestry up k l) (h' : Ancestry up k l') : l = l' := by
  induction h generalizing l' with
  | root h =>
    cases h' with
    | root _ => rfl
    | child h₁ _ => rw [h] at h₁; cases h₁
  | child h _ ih =>
    cases h' with
    | root h₁ => rw [h] at h₁; cases h₁
    | child h₁ hp' =>
      rw [h] at h₁
      obtain rfl := Option.some.inj (Option.some.inj h₁)
      rw [ih hp']

theorem Ancestry.self_mem (h : Ancestry up k l) : k ∈ l := by
  cases h with
  | root _ => exact List.mem_singleton_self k
  | child _ _ => simp

/-- The ancestry of an ancestor comes first. -/
theorem Ancestry.of_mem (h : Ancestry up k l) (ha : a ∈ l) : ∃ l₁, Ancestry up a l₁ ∧ l₁ <+: l := by
  induction h with
  | @root k h =>
    obtain rfl := List.mem_singleton.mp ha
    exact ⟨[a], .root h, List.prefix_refl _⟩
  | @child k p l h hp ih =>
    rcases List.mem_append.mp ha with hal | hak
    · obtain ⟨l₁, h₁, hpre⟩ := ih hal
      exact ⟨l₁, h₁, hpre.trans (List.prefix_append l [k])⟩
    · obtain rfl := List.mem_singleton.mp hak
      exact ⟨l ++ [a], .child h hp, List.prefix_refl _⟩

/-- A node is not above itself. -/
theorem Ancestry.nodup (h : Ancestry up k l) : l.Nodup := by
  induction h with
  | root h => exact List.nodup_singleton _
  | @child k p l h hp ih =>
    rw [List.nodup_append]
    refine ⟨ih, List.nodup_singleton k, ?_⟩
    rintro b hb c hc rfl
    obtain rfl := List.mem_singleton.mp hc
    -- `b` would be above its own parent, with a longer ancestry than itself
    obtain ⟨l₁, h₁, hpre⟩ := hp.of_mem hb
    have hlen := hpre.length_le
    rw [h₁.unique (.child h hp), List.length_append, List.length_singleton] at hlen
    omega

/-- An ancestry is a matter of its own nodes. -/
theorem Ancestry.congr (h : Ancestry up k l) (heq : ∀ a ∈ l, up' a = up a) : Ancestry up' k l := by
  induction h with
  | @root k h => exact .root ((heq k (List.mem_singleton_self k)).trans h)
  | @child k p l h hp ih =>
    exact .child ((heq k (by simp)).trans h) (ih fun a ha => heq a (List.mem_append_left _ ha))

theorem Ancestry.mem_of_parent (h : Ancestry up k l) (ha : a ∈ l) {p : K}
    (hp : up a = some (some p)) : p ∈ l := by
  obtain ⟨l₁, h₁, hpre⟩ := h.of_mem ha
  cases h₁ with
  | root hr => rw [hp] at hr; cases hr
  | child hc hq =>
    rw [hp] at hc
    obtain rfl := Option.some.inj (Option.some.inj hc)
    exact hpre.subset (List.mem_append_left _ hq.self_mem)

/-- What is above `k` is in its ancestry, with a shorter one. -/
theorem Ancestry.length_lt_of_transGen (h : Ancestry up k l)
    (ht : Relation.TransGen (IsParent up) k a) :
    ∃ l₁, Ancestry up a l₁ ∧ l₁.length < l.length := by
  induction ht with
  | single hp =>
    cases h with
    | root hr => rw [IsParent, hr] at hp; cases hp
    | child hc hq =>
      rw [IsParent, hc] at hp
      obtain rfl := Option.some.inj (Option.some.inj hp)
      exact ⟨_, hq, by simp⟩
  | tail _ hp ih =>
    obtain ⟨l₁, h₁, hlt⟩ := ih
    cases h₁ with
    | root hr => rw [IsParent, hr] at hp; cases hp
    | child hc hq =>
      rw [IsParent, hc] at hp
      obtain rfl := Option.some.inj (Option.some.inj hp)
      refine ⟨_, hq, ?_⟩
      rw [List.length_append, List.length_singleton] at hlt
      omega

theorem Ancestry.length_le {s : Finset K} (h : Ancestry up k l) (hs : ∀ a, up a ≠ none → a ∈ s) :
    l.length ≤ s.card := by
  classical
  have hsub : l.toFinset ⊆ s := by
    intro a ha
    obtain ⟨l₁, h₁, -⟩ := h.of_mem (List.mem_toFinset.mp ha)
    exact hs a h₁.ne_none
  have hcard := Finset.card_le_card hsub
  rwa [List.toFinset_card_of_nodup h.nodup] at hcard

end Ancestry

section Grounded

variable {up up' : K → Option (Option K)}

/-- **What hangs from roots has no cycle.** -/
theorem Grounded.acyclic (h : Grounded up) : Acyclic up := by
  intro k hk
  have hne : up k ≠ none := by
    intro hnone
    obtain ⟨b, hb, -⟩ := Relation.TransGen.head'_iff.mp hk
    rw [IsParent, hnone] at hb
    cases hb
  obtain ⟨l, hl⟩ := h k hne
  obtain ⟨l₁, h₁, hlt⟩ := hl.length_lt_of_transGen hk
  rw [h₁.unique hl] at hlt
  omega

/-- A node that hangs from a root still does when nodes are moved under one they are not above. -/
theorem Ancestry.reparent {s : K → Prop} [DecidablePred s] {p : Option K} {k : K} {l : List K}
    (h : Ancestry up k l)
    (hp : ∀ q, p = some q → ∃ lq, Ancestry up q lq ∧ ∀ a ∈ lq, ¬ s a) :
    ∃ l', Ancestry (reparent up s p) k l' := by
  have hmoved : ∀ b, s b → up b ≠ none → ∃ l', Ancestry (Forest.reparent up s p) b l' := by
    intro b hb hne
    have hup : Forest.reparent up s p b = some p := by
      obtain ⟨o, ho⟩ := Option.ne_none_iff_exists'.mp hne
      simp [Forest.reparent, hb, ho]
    cases p with
    | none => exact ⟨[b], .root hup⟩
    | some q =>
      obtain ⟨lq, hlq, hfree⟩ := hp q rfl
      refine ⟨lq ++ [b], .child hup (hlq.congr fun a ha => ?_)⟩
      simp [Forest.reparent, hfree a ha]
  induction h with
  | @root k h =>
    by_cases hk : s k
    · exact hmoved k hk (by rw [h]; simp)
    · exact ⟨[k], .root (by simp [Forest.reparent, hk, h])⟩
  | @child k q l h _ ih =>
    by_cases hk : s k
    · exact hmoved k hk (by rw [h]; simp)
    · obtain ⟨l', hl'⟩ := ih
      exact ⟨l' ++ [k], .child (by simp [Forest.reparent, hk, h]) hl'⟩

/-- **A move** under a node that none of the moved ones is above, or to the top. -/
theorem Grounded.reparent {s : K → Prop} [DecidablePred s] {p : Option K} (h : Grounded up)
    (hp : ∀ q, p = some q → ∃ lq, Ancestry up q lq ∧ ∀ a ∈ lq, ¬ s a) :
    Grounded (reparent up s p) := by
  intro k hk
  have hne : up k ≠ none := by
    intro hnone
    simp [Forest.reparent, hnone] at hk
  obtain ⟨l, hl⟩ := h k hne
  exact hl.reparent hp

/-- An ancestry is kept by what leaves its nodes alone. -/
theorem Ancestry.extend {k : K} {l : List K} (h : Ancestry up k l)
    (hold : ∀ a, up a ≠ none → up' a = up a) : Ancestry up' k l := by
  refine h.congr fun a ha => ?_
  obtain ⟨l₁, h₁, -⟩ := h.of_mem ha
  exact hold a h₁.ne_none

/-- The ancestry of a node that stays, when what goes is nobody's parent. -/
theorem Ancestry.restrict {k : K} {l : List K} (h : Ancestry up k l) (hk : up' k ≠ none)
    (hkeep : ∀ a, up' a ≠ none → up' a = up a)
    (hparent : ∀ a q, up' a ≠ none → up a = some (some q) → up' q ≠ none) : Ancestry up' k l := by
  induction h with
  | @root k h => exact .root ((hkeep k hk).trans h)
  | @child k p l h hp ih => exact .child ((hkeep k hk).trans h) (ih (hparent k p hk h))

/-! ## One node moved -/

/-- What hangs from a node goes with it: below it, the ancestry is the same. -/
theorem Ancestry.graft {k d : K} {l lk lk' : List K} (h : Ancestry up d l) (hmem : k ∈ l)
    (heq : ∀ a, a ≠ k → up' a = up a) (hk : Ancestry up k lk) (hk' : Ancestry up' k lk') :
    ∃ r, l = lk ++ r ∧ Ancestry up' d (lk' ++ r) := by
  induction h with
  | @root d h =>
    obtain rfl := List.mem_singleton.mp hmem
    refine ⟨[], ?_, ?_⟩
    · rw [List.append_nil, hk.unique (.root h)]
    · rwa [List.append_nil]
  | @child d q l h hq ih =>
    by_cases hd : d = k
    · subst hd
      refine ⟨[], ?_, ?_⟩
      · rw [List.append_nil, hk.unique (.child h hq)]
      · rwa [List.append_nil]
    · have hmem' : k ∈ l := (List.mem_append.mp hmem).resolve_right fun h => hd (List.mem_singleton.mp h).symm
      obtain ⟨r, rfl, hr⟩ := ih hmem'
      refine ⟨r ++ [d], List.append_assoc .., ?_⟩
      rw [← List.append_assoc]
      exact .child ((heq d hd).trans h) hr

/-- A node that is above another one still is when it is the one that moves. -/
theorem Ancestry.mem_of_moved {k q : K} {l l' : List K} (h : Ancestry up q l) (hmem : k ∈ l)
    (heq : ∀ a, a ≠ k → up' a = up a) (h' : Ancestry up' q l') : k ∈ l' := by
  induction h generalizing l' with
  | @root q h =>
    obtain rfl := List.mem_singleton.mp hmem
    exact h'.self_mem
  | @child q p l h hp ih =>
    by_cases hq : q = k
    · exact hq ▸ h'.self_mem
    · have hmem' : k ∈ l := (List.mem_append.mp hmem).resolve_right fun h => hq (List.mem_singleton.mp h).symm
      rw [← heq q hq] at h
      cases h' with
      | root h₁ => rw [h] at h₁; cases h₁
      | child h₁ hp' =>
        rw [h] at h₁
        obtain rfl := Option.some.inj (Option.some.inj h₁)
        exact List.mem_append_left _ (ih hmem' hp')

/-- **A node moved under one it is above** hangs from no root any more. -/
theorem not_ancestry_of_below {k p : K} {lp : List K} (h : Ancestry up p lp) (hmem : k ∈ lp)
    (heq : ∀ a, a ≠ k → up' a = up a) (hk : up' k = some (some p)) (l : List K) : ¬ Ancestry up' k l := by
  intro hl
  cases hl with
  | root h₁ => rw [hk] at h₁; cases h₁
  | @child _ q l h₁ hq =>
    rw [hk] at h₁
    obtain rfl := Option.some.inj (Option.some.inj h₁)
    obtain ⟨l₂, h₂, hpre⟩ := hq.of_mem (h.mem_of_moved hmem heq hq)
    have hlen := hpre.length_le
    rw [h₂.unique (.child hk hq), List.length_append, List.length_singleton] at hlen
    omega

end Grounded

end Totem.Lib.Forest
