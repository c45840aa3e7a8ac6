import Mathlib.Data.List.Dedup
import Mathlib.Data.List.Sort
import Mathlib.Algebra.BigOperators.Group.List.Basic

/-!
# Totem.Lib.Grouping — records grouped by a key, sorted and paged

* `exists_unique_group`, `sum_groups`, `sum_groups_filter`: the groups of a list partition it.
* `lexLe_total`, `lexLe_trans`, `lexLe_antisymm`: a chain of sort terms is a total preorder, that tells apart what
  its keys tell apart.
* `arrangement_unique`: there is one way to sort what the keys tell apart.
* `flatten_pages`: consecutive pages of one size concatenate to the list.
-/

namespace Totem.Lib

variable {α κ : Type}

/-! ## Groups -/

section Groups

variable [DecidableEq κ]

/-- The members of the group of a key. -/
def members (key : α → κ) (l : List α) (k : κ) : List α := l.filter fun a => decide (key a = k)

/-- The keys of a list, each once. -/
def keysOf (key : α → κ) (l : List α) : List κ := (l.map key).dedup

theorem mem_members {key : α → κ} {l : List α} {k : κ} {a : α} : a ∈ members key l k ↔ a ∈ l ∧ key a = k := by
  simp [members]

theorem mem_keysOf {key : α → κ} {l : List α} {k : κ} : k ∈ keysOf key l ↔ ∃ a ∈ l, key a = k := by
  simp [keysOf]

theorem keysOf_nodup (key : α → κ) (l : List α) : (keysOf key l).Nodup := List.nodup_dedup _

/-- **Every element is in exactly one group.** -/
theorem exists_unique_group {key : α → κ} {l : List α} {a : α} (h : a ∈ l) :
    ∃! k, k ∈ keysOf key l ∧ a ∈ members key l k :=
  ⟨key a, ⟨mem_keysOf.2 ⟨a, h, rfl⟩, mem_members.2 ⟨h, rfl⟩⟩, fun _ hk => (mem_members.1 hk.2).2.symm⟩

theorem sum_single {M : Type} [AddCommMonoid M] {ks : List κ} (hks : ks.Nodup) {k : κ} (hk : k ∈ ks) (x : M) :
    (ks.map fun k' => if k = k' then x else 0).sum = x := by
  induction ks with
  | nil => cases hk
  | cons k' ks ih =>
    obtain ⟨hk', hks⟩ := List.nodup_cons.1 hks
    rw [List.map_cons, List.sum_cons]
    by_cases h : k = k'
    · have hrest : (ks.map fun k' => if k = k' then x else 0) = ks.map fun _ => 0 := by
        refine List.map_congr_left fun l hl => if_neg ?_
        rintro rfl
        exact hk' (h ▸ hl)
      simp [h, h ▸ hrest]
    · rw [if_neg h, zero_add]
      exact ih hks ((List.mem_cons.1 hk).resolve_left h)

/-- **What is summed over the groups is summed over the list.** -/
theorem sum_groups {M : Type} [AddCommMonoid M] (key : α → κ) (l : List α) (f : α → M) :
    ((keysOf key l).map fun k => ((members key l k).map f).sum).sum = (l.map f).sum := by
  have hsplit : ∀ ks : List κ, ks.Nodup → (∀ a ∈ l, key a ∈ ks) →
      (ks.map fun k => ((members key l k).map f).sum).sum = (l.map f).sum := by
    intro ks hks hall
    induction l with
    | nil => simp [members]
    | cons a l ih =>
      have hcons : ∀ k, ((members key (a :: l) k).map f).sum
          = (if key a = k then f a else 0) + ((members key l k).map f).sum := by
        intro k
        by_cases h : key a = k <;> simp [members, h]
      rw [List.map_congr_left fun k _ => hcons k, List.sum_map_add, sum_single hks (hall a (List.mem_cons_self ..)),
        ih fun b hb => hall b (List.mem_cons_of_mem _ hb), List.map_cons, List.sum_cons]
  exact hsplit _ (keysOf_nodup key l) fun a ha => mem_keysOf.2 ⟨a, ha, rfl⟩

theorem sum_filter {M : Type} [AddCommMonoid M] (p : α → Bool) (f : α → M) (l : List α) :
    ((l.filter p).map f).sum = (l.map fun a => if p a = true then f a else 0).sum := by
  rw [List.sum_map_ite fun a => p a = true]
  simp

/-- **What is summed over some groups is summed over their members.** -/
theorem sum_groups_filter {M : Type} [AddCommMonoid M] (key : α → κ) (p : κ → Bool) (f : α → M) (l : List α) :
    (((keysOf key l).filter p).map fun k => ((members key l k).map f).sum).sum =
      ((l.filter fun a => p (key a)).map f).sum := by
  have hgroup : ∀ k, (if p k = true then ((members key l k).map f).sum else 0) =
      ((members key l k).map fun a => if p (key a) = true then f a else 0).sum := by
    intro k
    have hkey : (members key l k).map (fun a => if p (key a) = true then f a else 0) =
        (members key l k).map fun a => if p k = true then f a else 0 :=
      List.map_congr_left fun a ha => by rw [(mem_members.1 ha).2]
    rw [hkey]
    split_ifs with h
    · rfl
    · simp
  rw [sum_filter, List.map_congr_left fun k _ => hgroup k, sum_groups, ← sum_filter]

end Groups

/-! ## Sort terms -/

/-- What is compared, and a strict order of it. -/
structure SortTerm (α κ : Type) where
  key : α → κ
  lt : κ → κ → Prop

/-- The order of a chain of terms: the first one that tells two elements apart decides. -/
def lexLe : List (SortTerm α κ) → α → α → Prop
  | [], _, _ => True
  | t :: ts, a, b => t.lt (t.key a) (t.key b) ∨ (t.key a = t.key b ∧ lexLe ts a b)

theorem lexLe_total {ts : List (SortTerm α κ)} (h : ∀ t ∈ ts, IsStrictTotalOrder κ t.lt) (a b : α) :
    lexLe ts a b ∨ lexLe ts b a := by
  induction ts with
  | nil => exact Or.inl trivial
  | cons t ts ih =>
    have ht := h t (List.mem_cons_self ..)
    rcases ht.toTrichotomous.rel_or_eq_or_rel_swap (a := t.key a) (b := t.key b) with hlt | heq | hgt
    · exact Or.inl (Or.inl hlt)
    · exact (ih fun t ht => h t (List.mem_cons_of_mem _ ht)).imp (fun h => Or.inr ⟨heq, h⟩)
        fun h => Or.inr ⟨heq.symm, h⟩
    · exact Or.inr (Or.inl hgt)

theorem lexLe_trans {ts : List (SortTerm α κ)} (h : ∀ t ∈ ts, IsStrictTotalOrder κ t.lt) {a b c : α}
    (hab : lexLe ts a b) (hbc : lexLe ts b c) : lexLe ts a c := by
  induction ts with
  | nil => trivial
  | cons t ts ih =>
    have ht := h t (List.mem_cons_self ..)
    rcases hab with hab | ⟨hab, hab'⟩ <;> rcases hbc with hbc | ⟨hbc, hbc'⟩
    · exact Or.inl (ht.trans _ _ _ hab hbc)
    · exact Or.inl (hbc ▸ hab)
    · exact Or.inl (hab ▸ hbc)
    · exact Or.inr ⟨hab.trans hbc, ih (fun t ht => h t (List.mem_cons_of_mem _ ht)) hab' hbc'⟩

/-- Elements in both orders have the same keys. -/
theorem lexLe_antisymm {ts : List (SortTerm α κ)} (h : ∀ t ∈ ts, IsStrictTotalOrder κ t.lt) {a b : α}
    (hab : lexLe ts a b) (hba : lexLe ts b a) : ∀ t ∈ ts, t.key a = t.key b := by
  induction ts with
  | nil => simp
  | cons t ts ih =>
    have ht := h t (List.mem_cons_self ..)
    have hirrefl : ∀ x y, t.lt x y → ¬ t.lt y x := fun x y hxy hyx => ht.irrefl _ (ht.trans _ _ _ hxy hyx)
    rcases hab with hab | ⟨hab, hab'⟩ <;> rcases hba with hba | ⟨hba, hba'⟩
    · exact absurd hba (hirrefl _ _ hab)
    · exact absurd (hba ▸ hab) (ht.irrefl _)
    · exact absurd (hab ▸ hba) (ht.irrefl _)
    · intro u hu
      rcases List.mem_cons.1 hu with rfl | hu
      · exact hab
      · exact ih (fun t ht => h t (List.mem_cons_of_mem _ ht)) hab' hba' u hu

/-- The list in an order of the terms. -/
def Arranged (ts : List (SortTerm α κ)) (l sorted : List α) : Prop :=
  sorted.Perm l ∧ sorted.Pairwise (lexLe ts)

/-- **There is one way to sort what the keys tell apart.** -/
theorem arrangement_unique {ts : List (SortTerm α κ)} (h : ∀ t ∈ ts, IsStrictTotalOrder κ t.lt) {l s s' : List α}
    (hdistinct : ∀ a ∈ l, ∀ b ∈ l, (∀ t ∈ ts, t.key a = t.key b) → a = b) (hs : Arranged ts l s)
    (hs' : Arranged ts l s') : s = s' := by
  have hantisymm : ∀ a b, a ∈ s → b ∈ s' → lexLe ts a b → lexLe ts b a → a = b := fun a b ha hb hab hba =>
    hdistinct a (hs.1.mem_iff.1 ha) b (hs'.1.mem_iff.1 hb) (lexLe_antisymm h hab hba)
  exact List.Perm.eq_of_pairwise hantisymm hs.2 hs'.2 (hs.1.trans hs'.1.symm)

theorem exists_arrangement {ts : List (SortTerm α κ)} (h : ∀ t ∈ ts, IsStrictTotalOrder κ t.lt) (l : List α) :
    ∃ s, Arranged ts l s := by
  classical
  have htotal : Std.Total (lexLe ts) := ⟨lexLe_total h⟩
  have htrans : IsTrans α (lexLe ts) := ⟨fun _ _ _ => lexLe_trans h⟩
  exact ⟨l.insertionSort (lexLe ts), List.perm_insertionSort _ l, List.pairwise_insertionSort _ l⟩

/-! ## Pages -/

/-- `queryset[offset:offset + limit]`. -/
def slice (offset limit : ℕ) (l : List α) : List α := (l.drop offset).take limit

/-- **Consecutive pages of one size concatenate to what they cover.** -/
theorem flatten_pages (l : List α) (size pages : ℕ) :
    ((List.range pages).map fun k => slice (k * size) size l).flatten = l.take (pages * size) := by
  induction pages with
  | zero => simp
  | succ pages ih =>
    have hnext : l.take ((pages + 1) * size) = l.take (pages * size) ++ slice (pages * size) size l := by
      rw [Nat.succ_mul, List.take_add, slice]
    rw [List.range_succ, List.map_append, List.flatten_append, ih, hnext]
    simp

end Totem.Lib
