import Totem.Lib.Recursion
import Mathlib.Data.List.Dedup
import Mathlib.Data.List.Perm.Subperm

/-!
# Totem.Lib.DepthFirst — a search along a graph that refuses cycles

The search marks a node once it has marked all its successors, and keeps the path it has come by: a node of
that path met again is a cycle.  What marking a node does to the state is a parameter.

* `search_finds`: what is marked, and in what order; `search_error`: what is refused is on a cycle.
* `search_ne_none`: no path is longer than there are nodes.
* `each_search_ok_iff`: the search from some nodes succeeds exactly when it can reach no cycle.
-/

namespace Totem.Lib.DepthFirst

/-! ## Loops -/

/-- The order in which a set is iterated, given what was added to it. -/
structure SetOrder (α : Type*) [DecidableEq α] where
  order : List α → List α
  perm : ∀ added, (order added).Perm added.dedup

theorem SetOrder.mem_order {α : Type*} [DecidableEq α] (setOrder : SetOrder α) {added : List α} {a : α} :
    a ∈ setOrder.order added ↔ a ∈ added := (setOrder.perm added).mem_iff.trans List.mem_dedup

theorem SetOrder.nodup_order {α : Type*} [DecidableEq α] (setOrder : SetOrder α) (added : List α) :
    (setOrder.order added).Nodup := (setOrder.perm added).nodup_iff.mpr (List.nodup_dedup added)

section Each

variable {β σ ε : Type*}

/-- A loop whose body may fail, or not end. -/
def each (f : σ → β → Option (Except ε σ)) : List β → σ → Option (Except ε σ)
  | [], s => some (.ok s)
  | b :: bs, s =>
    match f s b with
    | some (.ok s') => each f bs s'
    | some (.error e) => some (.error e)
    | none => none

variable {f : σ → β → Option (Except ε σ)} {b : β} {bs : List β} {s s' : σ} {e : ε}

theorem each_cons_ok : each f (b :: bs) s = some (.ok s') ↔
    ∃ t, f s b = some (.ok t) ∧ each f bs t = some (.ok s') := by
  rw [each]
  split
  next t h => simp [h]
  next e h => simp [h]
  next h => simp [h]

/-- A loop fails at one of its turns, the turns before it done. -/
theorem each_error (h : each f bs s = some (.error e)) : ∃ b ∈ bs, ∃ t, f t b = some (.error e) := by
  induction bs generalizing s with
  | nil => cases h
  | cons b bs ih =>
    rw [each] at h
    split at h
    next t _ =>
      obtain ⟨b', hb', ht⟩ := ih h
      exact ⟨b', List.mem_cons_of_mem b hb', ht⟩
    next e' hb =>
      obtain rfl : e' = e := by simpa using h
      exact ⟨b, List.mem_cons_self, s, hb⟩
    next => cases h

theorem each_ok_of_mem (h : each f bs s = some (.ok s')) : ∀ b ∈ bs, ∃ t t', f t b = some (.ok t') := by
  induction bs generalizing s with
  | nil => exact fun b hb => absurd hb List.not_mem_nil
  | cons b bs ih =>
    obtain ⟨t, ht, h⟩ := each_cons_ok.mp h
    exact List.forall_mem_cons.mpr ⟨⟨s, t, ht⟩, ih h⟩

theorem each_ne_none (h : ∀ b ∈ bs, ∀ t, f t b ≠ none) : each f bs s ≠ none := by
  induction bs generalizing s with
  | nil => exact Option.some_ne_none _
  | cons b bs ih =>
    rw [each]
    split
    next => exact ih fun b' hb' => h b' (List.mem_cons_of_mem b hb')
    next => exact Option.some_ne_none _
    next hb => exact absurd hb (h b List.mem_cons_self s)

/-- A result with its states and its errors seen as others. -/
def relabel {σ' ε' : Type*} (lift : σ → σ') (label : ε → ε') : Except ε σ → Except ε' σ'
  | .ok s => .ok (lift s)
  | .error e => .error (label e)

/-- A loop that does what another does, on states seen as others. -/
theorem each_relabel {σ' ε' : Type*} (lift : σ → σ') (label : ε → ε') {g : σ' → β → Option (Except ε' σ')}
    (hg : ∀ s, ∀ b ∈ bs, ∀ r, f s b = some r → g (lift s) b = some (relabel lift label r)) {r : Except ε σ}
    (h : each f bs s = some r) : each g bs (lift s) = some (relabel lift label r) := by
  induction bs generalizing s with
  | nil =>
    obtain rfl : .ok s = r := Option.some.inj h
    rfl
  | cons b bs ih =>
    have hb := hg s b List.mem_cons_self
    rw [each] at h
    split at h
    next t ht =>
      rw [each, hb _ ht]
      exact ih (fun s b' hb' => hg s b' (List.mem_cons_of_mem b hb')) h
    next e he =>
      obtain rfl : .error e = r := Option.some.inj h
      rw [each, hb _ he]
      rfl
    next => cases h

end Each

/-! ## The search -/

/-- What a state has of the nodes marked, in the order in which they were, and how one more is. -/
structure Marks (α σ : Type*) where
  done : σ → List α
  finish : σ → α → σ
  done_finish : ∀ s, ∀ a ∉ done s, done (finish s a) = done s ++ [a]

variable {α σ : Type*} [DecidableEq α] (m : Marks α σ) (next : α → List α)

/-- The search from a node, by a path; an error is a node of that path met again, and there is no result where the
fuel does not suffice. -/
def search : ℕ → List α → σ → α → Option (Except α σ)
  | 0, _, _, _ => none
  | fuel + 1, path, s, a =>
    if a ∈ m.done s then some (.ok s)
    else if a ∈ path then some (.error a)
    else
      match each (search fuel (a :: path)) (next a) s with
      | some (.ok s') => some (.ok (m.finish s' a))
      | some (.error e) => some (.error e)
      | none => none

/-- Nodes are marked one after the other, each after its successors. -/
inductive Passed : σ → σ → Prop
  | refl (s : σ) : Passed s s
  | finish {s s' : σ} {a : α} (h : Passed s s') (ha : a ∉ m.done s') (hnext : ∀ b ∈ next a, b ∈ m.done s') :
      Passed s (m.finish s' a)

/-- What a search from `roots` has done: these are marked, and nothing else than what they lead to. -/
structure Finds (path roots : List α) (s s' : σ) : Prop where
  passed : Passed m next s s'
  marked : ∀ a ∈ roots, a ∈ m.done s'
  only : ∀ b ∈ m.done s', b ∈ m.done s ∨
    b ∉ path ∧ ∃ a ∈ roots, Relation.ReflTransGen (fun a b => b ∈ next a) a b

section

variable {m next} {fuel : ℕ} {path roots : List α} {s s' t : σ} {a b c : α}

omit [DecidableEq α] in
theorem Passed.trans (h : Passed m next s t) (h' : Passed m next t s') : Passed m next s s' := by
  induction h' with
  | refl => exact h
  | finish _ ha hnext ih => exact .finish ih ha hnext

omit [DecidableEq α] in
theorem Passed.mem (h : Passed m next s s') (ha : a ∈ m.done s) : a ∈ m.done s' := by
  induction h with
  | refl => exact ha
  | finish _ ha' _ ih =>
    rw [m.done_finish _ _ ha']
    exact List.mem_append_left _ ih

omit [DecidableEq α] in
theorem Passed.nodup (h : Passed m next s s') (hs : (m.done s).Nodup) : (m.done s').Nodup := by
  induction h with
  | refl => exact hs
  | finish _ ha _ ih =>
    rw [m.done_finish _ _ ha]
    exact List.nodup_append.mpr ⟨ih, List.nodup_singleton _, fun x hx y hy => by
      rw [List.mem_singleton.mp hy]
      exact fun heq => ha (heq ▸ hx)⟩

omit [DecidableEq α] in
/-- What holds of the marked nodes whenever it holds of their successors. -/
theorem Passed.forall_mem {P : α → Prop} (hP : ∀ a, (∀ b ∈ next a, P b) → P a) (h : Passed m next s s')
    (hs : ∀ a ∈ m.done s, P a) : ∀ a ∈ m.done s', P a := by
  induction h with
  | refl => exact hs
  | finish _ ha hnext ih =>
    intro b hb
    rw [m.done_finish _ _ ha] at hb
    rcases List.mem_append.mp hb with hb | hb
    · exact ih b hb
    · rw [List.mem_singleton.mp hb]
      exact hP _ fun c hc => ih c (hnext c hc)

omit [DecidableEq α] in
/-- All that a marked node leads to is marked. -/
theorem Passed.closed (h : Passed m next s s') (hs : ∀ a ∈ m.done s, ∀ b ∈ next a, b ∈ m.done s) :
    ∀ a ∈ m.done s', ∀ b ∈ next a, b ∈ m.done s' := by
  induction h with
  | refl => exact hs
  | finish _ hnew hnext ih =>
    intro a ha b hb
    rw [m.done_finish _ _ hnew] at ha ⊢
    rcases List.mem_append.mp ha with ha | ha
    · exact List.mem_append_left _ (ih a ha b hb)
    · rw [List.mem_singleton.mp ha] at hb
      exact List.mem_append_left _ (hnext b hb)

omit [DecidableEq α] in
theorem Finds.nil : Finds m next path [] s s :=
  ⟨.refl s, fun _ ha => absurd ha List.not_mem_nil, fun _ hb => .inl hb⟩

omit [DecidableEq α] in
theorem Finds.cons (h : Finds m next path [a] s t) (h' : Finds m next path roots t s') :
    Finds m next path (a :: roots) s s' := by
  refine ⟨h.passed.trans h'.passed, ?_, fun b hb => ?_⟩
  · exact List.forall_mem_cons.mpr ⟨h'.passed.mem (h.marked a List.mem_cons_self), h'.marked⟩
  · rcases h'.only b hb with hb | ⟨hpath, r, hr, hreach⟩
    · rcases h.only b hb with hb | ⟨hpath, r, hr, hreach⟩
      · exact .inl hb
      · exact .inr ⟨hpath, a, List.mem_cons_self, List.mem_singleton.mp hr ▸ hreach⟩
    · exact .inr ⟨hpath, r, List.mem_cons_of_mem a hr, hreach⟩

omit [DecidableEq α] in
theorem each_finds {f : σ → α → Option (Except α σ)}
    (hf : ∀ s a s', f s a = some (.ok s') → Finds m next path [a] s s')
    (h : each f roots s = some (.ok s')) : Finds m next path roots s s' := by
  induction roots generalizing s with
  | nil =>
    obtain rfl : s = s' := by simpa [each] using h
    exact .nil
  | cons a roots ih =>
    obtain ⟨t, ht, h⟩ := each_cons_ok.mp h
    exact (hf s a t ht).cons (ih h)

/-- A search with enough fuel for one call stops at a node that is marked. -/
theorem search_of_done (ha : a ∈ m.done s) {r : Except α σ} (h : search m next fuel path s a = some r) :
    r = .ok s := by
  cases fuel with
  | zero => cases h
  | succ fuel =>
    rw [search, if_pos ha] at h
    exact (Option.some.inj h).symm

theorem search_of_path (ha : a ∉ m.done s) (hpath : a ∈ path) {r : Except α σ}
    (h : search m next fuel path s a = some r) : r = .error a := by
  cases fuel with
  | zero => cases h
  | succ fuel =>
    rw [search, if_neg ha, if_pos hpath] at h
    exact (Option.some.inj h).symm

/-- **What a search marks**: its node after all that this leads to. -/
theorem search_finds (h : search m next fuel path s a = some (.ok s')) : Finds m next path [a] s s' := by
  induction fuel generalizing path s a s' with
  | zero => cases h
  | succ fuel ih =>
    rw [search] at h
    split_ifs at h with hdone hpath
    · obtain rfl : s = s' := by simpa using h
      exact ⟨.refl s, by simpa using hdone, fun b hb => .inl hb⟩
    · cases h
    · split at h
      next t ht =>
        obtain rfl : m.finish t a = s' := by simpa using h
        have hfinds := each_finds (fun s a s' => ih) ht
        -- `a` is on the path of its successors, so none of them has marked it
        have ha : a ∉ m.done t := by
          intro ha
          rcases hfinds.only a ha with ha | ⟨ha, -⟩
          · exact hdone ha
          · exact ha List.mem_cons_self
        refine ⟨.finish hfinds.passed ha hfinds.marked, ?_, fun b hb => ?_⟩
        · simp [m.done_finish _ _ ha]
        · rw [m.done_finish _ _ ha] at hb
          rcases List.mem_append.mp hb with hb | hb
          · rcases hfinds.only b hb with hb | ⟨hb, c, hc, hreach⟩
            · exact .inl hb
            · exact .inr ⟨fun h => hb (List.mem_cons_of_mem a h), a, List.mem_cons_self, .head hc hreach⟩
          · rw [List.mem_singleton.mp hb]
            exact .inr ⟨hpath, a, List.mem_cons_self, .refl⟩
      next => cases h
      next => cases h

/-- **What a search refuses is on a cycle**, and the search has come there. -/
theorem search_error (h : search m next fuel path s a = some (.error c))
    (hpath : ∀ b ∈ path, Relation.TransGen (fun a b => b ∈ next a) b a) :
    Relation.ReflTransGen (fun a b => b ∈ next a) a c ∧ Relation.TransGen (fun a b => b ∈ next a) c c := by
  induction fuel generalizing path s a with
  | zero => cases h
  | succ fuel ih =>
    rw [search] at h
    split_ifs at h with hdone hmem
    · cases h
    · obtain rfl : a = c := by simpa using h
      exact ⟨.refl, hpath a hmem⟩
    · split at h
      next => cases h
      next e he =>
        obtain rfl : e = c := by simpa using h
        obtain ⟨b, hb, t, ht⟩ := each_error he
        have hback : ∀ x ∈ a :: path, Relation.TransGen (fun a b => b ∈ next a) x b :=
          List.forall_mem_cons.mpr ⟨.single hb, fun x hx => (hpath x hx).tail hb⟩
        obtain ⟨hreach, hcycle⟩ := ih ht hback
        exact ⟨.head hb hreach, hcycle⟩
      next => cases h

/-- **No path is longer than there are nodes.** -/
theorem search_ne_none {nodes : List α} (hnodes : ∀ x ∈ nodes, ∀ y ∈ next x, y ∈ nodes) (ha : a ∈ nodes)
    (hnodup : path.Nodup) (hpath : path ⊆ nodes) (hfuel : nodes.length < fuel + path.length) :
    search m next fuel path s a ≠ none := by
  induction fuel generalizing path s a with
  | zero =>
    have hle := (List.subperm_of_subset hnodup hpath).length_le
    omega
  | succ fuel ih =>
    rw [search]
    split_ifs with hdone hmem
    · exact Option.some_ne_none _
    · exact Option.some_ne_none _
    · have hall : each (search m next fuel (a :: path)) (next a) s ≠ none := by
        refine each_ne_none fun b hb t => ?_
        refine ih (hnodes a ha b hb) (List.nodup_cons.mpr ⟨hmem, hnodup⟩)
          (List.cons_subset.mpr ⟨ha, hpath⟩) ?_
        rw [List.length_cons]
        omega
      split
      next => exact Option.some_ne_none _
      next => exact Option.some_ne_none _
      next h => exact absurd h hall

omit [DecidableEq α] in
/-- What is marked from nothing is all that the roots lead to. -/
theorem Finds.mem_iff (h : Finds m next path roots s s') (hs : m.done s = []) :
    b ∈ m.done s' ↔ ∃ a ∈ roots, Relation.ReflTransGen (fun a b => b ∈ next a) a b := by
  constructor
  · intro hb
    rcases h.only b hb with hb | ⟨-, hreach⟩
    · rw [hs] at hb
      cases hb
    · exact hreach
  · rintro ⟨a, ha, hreach⟩
    have hclosed := h.passed.closed fun a ha => by
      rw [hs] at ha
      cases ha
    induction hreach with
    | refl => exact h.marked a ha
    | tail _ hc ih => exact hclosed _ ih _ hc

omit [DecidableEq α] in
/-- Nothing that is marked from nothing is on a cycle. -/
theorem Passed.ends (h : Passed m next s s') (hs : m.done s = []) : ∀ a ∈ m.done s', Ends next a :=
  h.forall_mem (fun _ h => ends_iff.mpr h) fun a ha => by
    rw [hs] at ha
    cases ha

/-- **The search succeeds exactly when it can reach no cycle.** -/
theorem each_search_ok_iff {nodes : List α} (hnodes : ∀ x ∈ nodes, ∀ y ∈ next x, y ∈ nodes)
    (hroots : ∀ a ∈ roots, a ∈ nodes) (hfuel : nodes.length < fuel) (hs : m.done s = []) :
    (∃ s', each (search m next fuel []) roots s = some (.ok s')) ↔
      ∀ a ∈ roots, ∀ c, Relation.ReflTransGen (fun a b => b ∈ next a) a c →
        ¬ Relation.TransGen (fun a b => b ∈ next a) c c := by
  constructor
  · rintro ⟨s', hs'⟩ a ha c hreach
    have hfinds := each_finds (fun s a s' => search_finds) hs'
    have hends := hfinds.passed.ends hs c ((hfinds.mem_iff hs).mpr ⟨a, ha, hreach⟩)
    exact fun hcycle => not_ends_of_cycle hcycle hends
  · intro hacyclic
    have hsome : each (search m next fuel []) roots s ≠ none := by
      refine each_ne_none fun a ha t => search_ne_none hnodes (hroots a ha) List.nodup_nil ?_ ?_
      · exact List.nil_subset _
      · rwa [List.length_nil, Nat.add_zero]
    cases hrun : each (search m next fuel []) roots s with
    | none => exact absurd hrun hsome
    | some r =>
      cases r with
      | ok s' => exact ⟨s', rfl⟩
      | error c =>
        obtain ⟨a, ha, t, ht⟩ := each_error hrun
        obtain ⟨hreach, hcycle⟩ := search_error ht fun _ hb => absurd hb List.not_mem_nil
        exact absurd hcycle (hacyclic a ha c hreach)

end

end Totem.Lib.DepthFirst
