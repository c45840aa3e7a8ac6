import Mathlib.Data.List.Nodup

/-!
# Totem.Lib.LinkTable — links between two kinds of records

A table of pairs, each row with an id of its own, under a unique constraint: no two rows have the same source and
targets of the same group.  With the identity as `group`, no pair is there twice.

* `insert_isSome_iff`: an insertion is refused when it breaks the constraint.
* `mem_rows_of_insert`, `mem_rows_remove`: what the operations leave.
-/

namespace Totem.Lib

structure Link (α β : Type*) where
  id : ℕ
  src : α
  dst : β

/-- A table of links: the ids below `next` may be taken. -/
structure LinkTable (α : Type*) {β κ : Type*} (group : β → κ) where
  rows : List (Link α β)
  next : ℕ
  id_lt : ∀ row ∈ rows, row.id < next
  id_nodup : (rows.map Link.id).Nodup
  unique : (rows.map fun row => (row.src, group row.dst)).Nodup

/-- New rows, with the ids from `next`. -/
def links {α β : Type*} : ℕ → List (α × β) → List (Link α β)
  | _, [] => []
  | next, (src, dst) :: pairs => ⟨next, src, dst⟩ :: links (next + 1) pairs

section

variable {α β : Type*} {next : ℕ} {pairs : List (α × β)} {row : Link α β}

theorem mem_links (h : row ∈ links next pairs) :
    next ≤ row.id ∧ row.id < next + pairs.length ∧ (row.src, row.dst) ∈ pairs := by
  induction pairs generalizing next with
  | nil => cases h
  | cons pair pairs ih =>
    rcases List.mem_cons.mp h with rfl | h
    · exact ⟨Nat.le_refl _, by simp, List.mem_cons_self⟩
    · obtain ⟨hle, hlt, hmem⟩ := ih h
      rw [List.length_cons]
      exact ⟨by omega, by omega, List.mem_cons_of_mem _ hmem⟩

theorem exists_mem_links (next : ℕ) {src : α} {dst : β} (h : (src, dst) ∈ pairs) :
    ∃ row ∈ links next pairs, row.src = src ∧ row.dst = dst := by
  induction pairs generalizing next with
  | nil => cases h
  | cons pair pairs ih =>
    rcases List.mem_cons.mp h with rfl | h
    · exact ⟨_, List.mem_cons_self, rfl, rfl⟩
    · obtain ⟨row, hrow, hpair⟩ := ih (next + 1) h
      exact ⟨row, List.mem_cons_of_mem _ hrow, hpair⟩

theorem links_id_nodup : ((links next pairs).map Link.id).Nodup := by
  induction pairs generalizing next with
  | nil => exact List.nodup_nil
  | cons pair pairs ih =>
    refine List.nodup_cons.mpr ⟨fun hmem => ?_, ih⟩
    obtain ⟨row, hrow, hid⟩ := List.mem_map.mp hmem
    have hle := (mem_links hrow).1
    dsimp only at hid
    omega

theorem map_links {γ : Type*} (f : α × β → γ) :
    (links next pairs).map (fun row => f (row.src, row.dst)) = pairs.map f := by
  induction pairs generalizing next with
  | nil => rfl
  | cons pair pairs ih => exact congrArg (f pair :: ·) ih

end

namespace LinkTable

variable {α β κ : Type*} {group : β → κ} {t t' : LinkTable α group} {pairs : List (α × β)} {src : α} {dst : β}

/-- A row links the source to the target. -/
def Related (t : LinkTable α group) (src : α) (dst : β) : Prop := ∃ row ∈ t.rows, row.src = src ∧ row.dst = dst

theorem eq_of_unique {row row' : Link α β} (h : row ∈ t.rows) (h' : row' ∈ t.rows) (hsrc : row.src = row'.src)
    (hgroup : group row.dst = group row'.dst) : row = row' :=
  List.inj_on_of_nodup_map t.unique h h' (Prod.ext hsrc hgroup)

instance [DecidableEq α] [DecidableEq β] (t : LinkTable α group) (src : α) (dst : β) : Decidable (t.Related src dst) :=
  inferInstanceAs (Decidable (∃ row ∈ t.rows, row.src = src ∧ row.dst = dst))

/-- No pair is there twice. -/
theorem pairs_nodup : (t.rows.map fun row => (row.src, row.dst)).Nodup := by
  refine List.Nodup.of_map (fun pair => (pair.1, group pair.2)) ?_
  rw [List.map_map]
  exact t.unique

/-- The target of a group that a source is linked to is the only one. -/
theorem Related.eq {dst' : β} (h : t.Related src dst) (h' : t.Related src dst') (hgroup : group dst = group dst') :
    dst = dst' := by
  obtain ⟨row, hrow, rfl, rfl⟩ := h
  obtain ⟨row', hrow', hsrc, rfl⟩ := h'
  rw [eq_of_unique hrow hrow' hsrc.symm hgroup]

/-! ## Rows removed -/

/-- The rows of the ids are removed. -/
def remove (t : LinkTable α group) (ids : List ℕ) : LinkTable α group where
  rows := t.rows.filter fun row => decide (row.id ∉ ids)
  next := t.next
  id_lt row hrow := t.id_lt row (List.mem_filter.mp hrow).1
  id_nodup := t.id_nodup.sublist (List.filter_sublist.map _)
  unique := t.unique.sublist (List.filter_sublist.map _)

theorem mem_rows_remove {ids : List ℕ} {row : Link α β} : row ∈ (t.remove ids).rows ↔ row ∈ t.rows ∧ row.id ∉ ids := by
  unfold remove
  rw [List.mem_filter, decide_eq_true_iff]

/-! ## Rows inserted -/

/-- The constraint after an insertion of the pairs. -/
def Fits (t : LinkTable α group) (pairs : List (α × β)) : Prop :=
  ((t.rows.map fun row => (row.src, group row.dst)) ++ pairs.map fun pair => (pair.1, group pair.2)).Nodup

instance [DecidableEq α] [DecidableEq κ] (t : LinkTable α group) (pairs : List (α × β)) : Decidable (t.Fits pairs) :=
  inferInstanceAs (Decidable (List.Nodup _))

/-- The pairs in new rows, all of them or none: refused when the constraint breaks. -/
def insert [DecidableEq α] [DecidableEq κ] (t : LinkTable α group) (pairs : List (α × β)) :
    Option (LinkTable α group) :=
  if h : t.Fits pairs then
    some {
      rows := t.rows ++ links t.next pairs
      next := t.next + pairs.length
      id_lt := by
        intro row hrow
        rcases List.mem_append.mp hrow with hrow | hrow
        · have hlt := t.id_lt row hrow
          omega
        · exact (mem_links hrow).2.1
      id_nodup := by
        rw [List.map_append]
        refine List.Nodup.append t.id_nodup links_id_nodup fun id hold hnew => ?_
        obtain ⟨row, hrow, rfl⟩ := List.mem_map.mp hold
        obtain ⟨row', hrow', hid⟩ := List.mem_map.mp hnew
        have hlt := t.id_lt row hrow
        have hle := (mem_links hrow').1
        omega
      unique := by
        rw [List.map_append, map_links fun pair => (pair.1, group pair.2)]
        exact h }
  else none

variable [DecidableEq α] [DecidableEq κ]

theorem insert_isSome_iff : (t.insert pairs).isSome = true ↔ t.Fits pairs := by
  unfold insert
  split_ifs with h
  · exact ⟨fun _ => h, fun _ => rfl⟩
  · exact ⟨nofun, fun h' => absurd h' h⟩

theorem mem_rows_of_insert (h : t.insert pairs = some t') {row : Link α β} :
    row ∈ t'.rows ↔ row ∈ t.rows ∨ row ∈ links t.next pairs := by
  unfold insert at h
  split_ifs at h
  obtain rfl := Option.some.inj h
  exact List.mem_append

/-- **The pairs are added**, and nothing else. -/
theorem related_insert (h : t.insert pairs = some t') :
    t'.Related src dst ↔ t.Related src dst ∨ (src, dst) ∈ pairs := by
  unfold Related
  simp only [mem_rows_of_insert h]
  constructor
  · rintro ⟨row, hrow | hrow, rfl, rfl⟩
    · exact .inl ⟨row, hrow, rfl, rfl⟩
    · exact .inr (mem_links hrow).2.2
  · rintro (⟨row, hrow, hpair⟩ | hmem)
    · exact ⟨row, .inl hrow, hpair⟩
    · obtain ⟨row, hrow, hpair⟩ := exists_mem_links t.next hmem
      exact ⟨row, .inr hrow, hpair⟩

end LinkTable

end Totem.Lib
