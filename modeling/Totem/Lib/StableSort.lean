import Totem.Lib.Comparator

/-!
# Totem.Lib.StableSort — sorts that keep the order of ties

* `stableSorted_mergeSort`: one sort.
* `StableSorted.lex`: a sort after another is one sort, by the second comparator first.
-/

namespace Totem.Lib

open Std

variable {α : Type*}

/-- `ys` has the elements of `xs` in the order of `cmp`, those that are equal in it as they came. -/
structure StableSorted (cmp : α → α → Ordering) (xs ys : List α) : Prop where
  perm : ys.Perm xs
  sorted : ys.Pairwise fun a b => (cmp a b).isLE = true
  stable : ∀ a, ys.filter (fun b => cmp a b == .eq) = xs.filter fun b => cmp a b == .eq

section

variable {cmp cmp₁ cmp₂ : α → α → Ordering} {xs ys zs : List α} {a b : α}

theorem stableSorted_mergeSort [TransCmp cmp] (xs : List α) :
    StableSorted cmp xs (xs.mergeSort fun a b => (cmp a b).isLE) := by
  have htrans : ∀ a b c : α, (cmp a b).isLE = true → (cmp b c).isLE = true → (cmp a c).isLE = true :=
    fun a b c => TransCmp.isLE_trans
  have htotal : ∀ a b : α, ((cmp a b).isLE || (cmp b a).isLE) = true := by
    intro a b
    rw [@OrientedCmp.eq_swap α cmp _ b a]
    cases cmp a b <;> rfl
  have hperm := List.mergeSort_perm xs fun a b => (cmp a b).isLE
  refine ⟨hperm, List.pairwise_mergeSort htrans htotal xs, fun a => ?_⟩
  -- ties are sorted already, so they come out as a sublist, of the same length
  have hties : (xs.filter fun b => cmp a b == .eq).Pairwise fun b c => (cmp b c).isLE = true := by
    refine List.pairwise_of_forall_mem_list fun b hb c hc => ?_
    have hab : cmp a b = .eq := eq_of_beq (List.mem_filter.mp hb).2
    have hac : cmp a c = .eq := eq_of_beq (List.mem_filter.mp hc).2
    have hba : cmp b a = .eq := OrientedCmp.eq_symm hab
    rw [TransCmp.eq_trans hba hac]
    rfl
  have hsub := (List.sublist_mergeSort htrans htotal hties List.filter_sublist).filter fun b => cmp a b == .eq
  rw [List.filter_filter] at hsub
  simp only [Bool.and_self] at hsub
  exact (hsub.eq_of_length (hperm.filter _).length_eq.symm).symm

theorem StableSorted.refl (h : xs.Pairwise fun a b => (cmp a b).isLE = true) : StableSorted cmp xs xs :=
  ⟨.refl xs, h, fun _ => rfl⟩

/-- Two elements that are equal keep their order. -/
theorem StableSorted.sublist (h : StableSorted cmp xs ys) [ReflCmp cmp] (hab : cmp a b = .eq)
    (hsub : [a, b].Sublist ys) : [a, b].Sublist xs := by
  have hfilter := hsub.filter fun c => cmp a c == .eq
  have haa : (cmp a a == .eq) = true := by rw [@ReflCmp.compare_self α cmp _ a]; rfl
  have hab' : (cmp a b == .eq) = true := by rw [hab]; rfl
  have hpair : [a, b].filter (fun c => cmp a c == .eq) = [a, b] :=
    List.filter_eq_self.mpr (List.forall_mem_cons.mpr ⟨haa, List.forall_mem_singleton.mpr hab'⟩)
  rw [hpair, h.stable a] at hfilter
  exact hfilter.trans List.filter_sublist

/-- **A sort after another**: what the second does not tell apart is as the first has left it. -/
theorem StableSorted.lex (h₂ : StableSorted cmp₂ xs ys) (h₁ : StableSorted cmp₁ ys zs) [ReflCmp cmp₁] :
    StableSorted (compareLex cmp₁ cmp₂) xs zs := by
  refine ⟨h₁.perm.trans h₂.perm, ?_, fun a => ?_⟩
  · refine List.pairwise_iff_forall_sublist.mpr fun {a b} hsub => ?_
    have hle := List.pairwise_iff_forall_sublist.mp h₁.sorted hsub
    cases hab : cmp₁ a b with
    | lt => rw [compareLex, hab]; rfl
    | gt => rw [hab] at hle; cases hle
    | eq =>
      have hle₂ := List.pairwise_iff_forall_sublist.mp h₂.sorted (h₁.sublist hab hsub)
      rw [compareLex, hab]
      exact hle₂
  · have heq : ∀ b, (compareLex cmp₁ cmp₂ a b == .eq) = ((cmp₂ a b == .eq) && (cmp₁ a b == .eq)) := by
      intro b
      rw [compareLex]
      cases cmp₁ a b <;> cases cmp₂ a b <;> rfl
    have hsplit : ∀ l : List α, (l.filter fun b => compareLex cmp₁ cmp₂ a b == .eq) =
        (l.filter fun b => cmp₁ a b == .eq).filter fun b => cmp₂ a b == .eq := by
      intro l
      rw [List.filter_filter]
      exact List.filter_congr fun b _ => heq b
    have hswap : ∀ l : List α, ((l.filter fun b => cmp₁ a b == .eq).filter fun b => cmp₂ a b == .eq) =
        (l.filter fun b => cmp₂ a b == .eq).filter fun b => cmp₁ a b == .eq := by
      intro l
      rw [List.filter_filter, List.filter_filter]
      exact List.filter_congr fun b _ => Bool.and_comm _ _
    rw [hsplit, hsplit, h₁.stable a, hswap, h₂.stable a, ← hswap]

end

end Totem.Lib
