import Totem.Computed.Dependency

/-!
# Totem.Computed.Context — what a unit of work has made stale

`RefreshComputedFieldsContext` and `bulk_refresh_fields`.  A write only records which stored fields are
stale on which rows; the outermost exit recomputes them, by increasing depth.

* `mem_modified`, `mem_created`: which rows a write queues.
* `flush`: the refresh; `none` only if it ran out of fuel.
-/

namespace Totem.Computed

open Totem.Lib

section Context

variable {M N K V : Type*} [DecidableEq M] [DecidableEq N] [DecidableEq K]

/-- `_pending`: the rows a stored field is stale on. -/
abbrev Pending (M N K : Type*) := M × N → Finset K

def Pending.empty : Pending M N K := fun _ => ∅

/-- `_pending[field].update(pks)`. -/
def Pending.add (p : Pending M N K) (f : M × N) (pks : Finset K) : Pending M N K :=
  Function.update p f (p f ∪ pks)

omit [DecidableEq K] in
theorem Pending.mem_add [DecidableEq K] {p : Pending M N K} {f g : M × N} {pks : Finset K} {r : K} :
    r ∈ p.add f pks g ↔ r ∈ p g ∨ g = f ∧ r ∈ pks := by
  unfold Pending.add
  by_cases hg : g = f
  · subst hg
    simp
  · simp [hg]

/-- `_roots`; `instances` are the rows just created, with what the attributes of their keys hold. -/
def roots (S : Schema M N K V) (db : Db M N K V) (b : Binding M N) (pks : Finset K)
    (instances : Option (Table K (Row N K V))) : Finset K :=
  if b.isLocal then pks
  else
    match instances, b.fkAttname with
    | some rows, some a => rows.keys.biUnion fun k => ((rows.get k).bind fun row => row.key a).toFinset
    | _, _ => S.lookup db b.field.1 b.path pks

/-- `_resolve`: the bindings of one root model and path have the same roots. -/
def resolve (S : Schema M N K V) (db : Db M N K V) (bs : List (Binding M N)) (pks : Finset K)
    (instances : Option (Table K (Row N K V))) (p : Pending M N K) : Pending M N K :=
  bs.foldl (fun p b => p.add b.field (roots S db b pks instances)) p

/-- `_existence_changed`. -/
def existenceChanged (S : Schema M N K V) (reg : Registry M N) (db : Db M N K V) (m : M) (pks : Finset K)
    (instances : Option (Table K (Row N K V))) (p : Pending M N K) : Pending M N K :=
  resolve S db ((bindingsFor reg.bindings m).filter fun b => b.onExistence && !b.isLocal) pks instances p

/-- `created`. -/
def created (S : Schema M N K V) (reg : Registry M N) (db : Db M N K V) (m : M)
    (rows : Table K (Row N K V)) (p : Pending M N K) : Pending M N K :=
  if rows.keys = ∅ then p
  else
    let p' := (S.stored m).foldl (fun p x => p.add (m, x.1) rows.keys) p
    existenceChanged S reg db m rows.keys (some rows) p'

/-- `modified`. -/
def modified (S : Schema M N K V) (reg : Registry M N) (db : Db M N K V) (m : M) (pks : Finset K)
    (updateFields : Finset N) (before : Bool) (p : Pending M N K) : Pending M N K :=
  if pks = ∅ ∨ updateFields = ∅ then p
  else
    resolve S db ((bindingsFor reg.bindings m).filter fun b =>
      decide (b.triggers ∩ updateFields).Nonempty &&
        (!before || decide (b.membership ∩ updateFields).Nonempty)) pks none p

/-- `has_relation_to_modify`. -/
def hasRelationToModify (reg : Registry M N) (m : M) (updateFields : Finset N) : Bool :=
  (bindingsFor reg.bindings m).any fun b => decide (b.membership ∩ updateFields).Nonempty

/-- `refresh`. -/
def refresh (m : M) (pks : Finset K) (names : List N) (p : Pending M N K) : Pending M N K :=
  names.foldl (fun p n => p.add (m, n) pks) p

/-! ## The refresh -/

/-- The stored fields `names` of the rows `pks` set to what they compute, in one statement. -/
def writeComputed (S : Schema M N K V) (db : Db M N K V) (m : M) (pks : Finset K) (names : List N) :
    Db M N K V :=
  Function.update db m ((db m).map fun k row =>
    if k ∈ pks then
      { row with col := fun n => if n ∈ names then S.compute m n db k else row.col n }
    else row)

/-- Whether a stored field is computed by its `prefetch_method`. -/
def Schema.isPrefetch (S : Schema M N K V) (m : M) (n : N) : Bool :=
  (S.fields m).any fun f =>
    decide (f.name = n) && match f.kind with
      | .computed _ prefetch => prefetch
      | _ => false

/-- `bulk_refresh_fields`: the annotations in one UPDATE, then what python computes. -/
def bulkRefreshFields (S : Schema M N K V) (db : Db M N K V) (m : M) (pks : Finset K) (names : List N) :
    Db M N K V :=
  let db' := writeComputed S db m pks (names.filter fun n => !S.isPrefetch m n)
  writeComputed S db' m pks (names.filter fun n => S.isPrefetch m n)

/-- The fields something is pending for. -/
def pendingFields (S : Schema M N K V) (p : Pending M N K) : List (M × N) :=
  (S.storedFields.map Prod.fst).filter fun f => decide (p f).Nonempty

/-- The smallest depth of a pending field. -/
def lowest (S : Schema M N K V) (reg : Registry M N) (p : Pending M N K) : Option ℕ :=
  ((pendingFields S p).map reg.depthOf).min?

/-- The refresh of one model in a round: `fields` are those of the round, `popped` their rows. -/
def flushModel (S : Schema M N K V) (reg : Registry M N) (fields : List (M × N)) (popped : Pending M N K)
    (s : Db M N K V × Pending M N K) (m : M) : Db M N K V × Pending M N K :=
  let names := (fields.filter fun f => decide (f.1 = m)).map Prod.snd
  let pks := names.foldr (fun n s => popped (m, n) ∪ s) ∅
  let db' := bulkRefreshFields S s.1 m pks names
  (db', modified S reg db' m pks names.toFinset false s.2)

/-- One round: the pending fields of the smallest depth, one model after the other. -/
def flushLevel (S : Schema M N K V) (reg : Registry M N) (level : ℕ)
    (s : Db M N K V × Pending M N K) : Db M N K V × Pending M N K :=
  let fields := (pendingFields S s.2).filter fun f => decide (reg.depthOf f = level)
  S.models.foldl (flushModel S reg fields s.2) (s.1, fun f => if f ∈ fields then ∅ else s.2 f)

/-- The loop of `flush`. -/
def flushLoop (S : Schema M N K V) (reg : Registry M N) :
    ℕ → Db M N K V × Pending M N K → Option (Db M N K V × Pending M N K)
  | 0, _ => none
  | fuel + 1, s =>
    match lowest S reg s.2 with
    | none => some s
    | some level => flushLoop S reg fuel (flushLevel S reg level s)

/-- `flush`: every round is deeper than the one before. -/
def flush (S : Schema M N K V) (reg : Registry M N) (s : Db M N K V × Pending M N K) :
    Option (Db M N K V × Pending M N K) :=
  flushLoop S reg (S.storedFields.length + 2) s

/-! ## What a write queues -/

variable {S : Schema M N K V} {reg : Registry M N} {db : Db M N K V} {p : Pending M N K} {m : M}
variable {r : K} {f : M × N} {pks : Finset K} {instances : Option (Table K (Row N K V))}

omit [DecidableEq M] [DecidableEq N] [DecidableEq K] in
/-- What a loop queues, when each turn only adds. -/
theorem mem_foldl {α : Type*} {step : Pending M N K → α → Pending M N K} {Q : α → Prop}
    (h : ∀ p a, r ∈ step p a f ↔ r ∈ p f ∨ Q a) (as : List α) (p : Pending M N K) :
    r ∈ as.foldl step p f ↔ r ∈ p f ∨ ∃ a ∈ as, Q a := by
  induction as generalizing p with
  | nil => simp
  | cons a as ih => rw [List.foldl_cons, ih, h, List.exists_mem_cons_iff, or_assoc]

theorem mem_resolve {bs : List (Binding M N)} :
    r ∈ resolve S db bs pks instances p f ↔
      r ∈ p f ∨ ∃ b ∈ bs, b.field = f ∧ r ∈ roots S db b pks instances :=
  mem_foldl (fun p b => by rw [Pending.mem_add, eq_comm (a := f)]) bs p

omit [DecidableEq M] in
/-- The root rows of watched rows, found by a lookup that tells the row by its primary key. -/
theorem mem_roots {b : Binding M N} {x : K} (hr : (db b.field.1).get r ≠ none)
    (hx : Reaches db b.field.1 r b.path b.watched x) (hpks : x ∈ pks)
    (hcompares : S.compares db b.field.1 b.path x x = true) : r ∈ roots S db b pks none := by
  unfold roots
  split
  · rename_i hlocal
    rw [Binding.isLocal, List.isEmpty_iff] at hlocal
    have hfollow := mem_follow.mpr ⟨_, hx⟩
    rw [hlocal, follow, Finset.mem_singleton] at hfollow
    exact hfollow ▸ hpks
  · exact Schema.mem_lookup.mpr ⟨hr, x, mem_follow.mpr ⟨_, hx⟩, x, hpks, hcompares⟩

omit [DecidableEq M] in
/-- The root rows of rows just created: read from a key of theirs when there is one. -/
theorem mem_roots_created {b : Binding M N} {rows : Table K (Row N K V)} {x : K} {row : Row N K V}
    (hb : b.FkOk) (hcompares : S.compares db b.field.1 b.path x x = true) (hr : (db b.field.1).get r ≠ none)
    (hx : Reaches db b.field.1 r b.path b.watched x)
    (hrows : rows.get x = some row) (hrow : (db b.watched).get x = some row) :
    r ∈ roots S db b rows.keys (some rows) := by
  have hkeys : x ∈ rows.keys := Table.mem_keys_of_get hrows
  have hfound : r ∈ roots S db b rows.keys none := mem_roots hr hx hkeys hcompares
  unfold roots at hfound ⊢
  split_ifs at hfound ⊢ with hlocal
  · exact hfound
  · cases ha : b.fkAttname with
    | none =>
      rw [ha] at hfound
      exact hfound
    | some a =>
      have hpath := hb a ha
      have hfollow := mem_follow.mpr ⟨_, hx⟩
      rw [hpath] at hfollow
      simp only [follow, Finset.singleton_biUnion] at hfollow
      obtain ⟨row', hrow', hmem⟩ := mem_next_reverse.mp hfollow
      obtain rfl := Option.some.inj (hrow.symm.trans hrow')
      refine Finset.mem_biUnion.mpr ⟨x, hkeys, ?_⟩
      simpa [hrows, Row.related] using hmem

omit [DecidableEq N] [DecidableEq K] in
theorem mem_bindingsFor {bs : List (Binding M N)} {b : Binding M N} :
    b ∈ bindingsFor bs m ↔ b ∈ bs ∧ b.watched = m := by
  simp [bindingsFor]

omit [DecidableEq M] in
theorem roots_of_empty {b : Binding M N} : roots S db b ∅ none = ∅ := by
  unfold roots
  split
  · rfl
  · ext r
    simp [Schema.mem_lookup]

/-- **What a modification queues.** -/
theorem mem_modified {names : Finset N} {before : Bool} :
    r ∈ modified S reg db m pks names before p f ↔
      r ∈ p f ∨ ∃ b ∈ reg.bindings, b.watched = m ∧ b.field = f ∧ (b.triggers ∩ names).Nonempty ∧
        (before = true → (b.membership ∩ names).Nonempty) ∧ r ∈ roots S db b pks none := by
  unfold modified
  split
  · rename_i hempty
    constructor
    · exact .inl
    · rintro (h | ⟨b, -, -, -, htr, -, hroot⟩)
      · exact h
      · rcases hempty with rfl | rfl
        · rw [roots_of_empty] at hroot
          exact absurd hroot (Finset.notMem_empty r)
        · rw [Finset.inter_empty] at htr
          exact absurd htr Finset.not_nonempty_empty
  · rw [mem_resolve]
    apply or_congr_right
    constructor
    · rintro ⟨b, hb, hf, hroot⟩
      rw [List.mem_filter, mem_bindingsFor] at hb
      obtain ⟨⟨hb, hm⟩, hcond⟩ := hb
      simp only [Bool.and_eq_true, Bool.or_eq_true, Bool.not_eq_true', decide_eq_true_eq] at hcond
      refine ⟨b, hb, hm, hf, hcond.1, fun hbefore => ?_, hroot⟩
      rcases hcond.2 with hfalse | hmem
      · rw [hbefore] at hfalse
        cases hfalse
      · exact hmem
    · rintro ⟨b, hb, hm, hf, htr, hmem, hroot⟩
      refine ⟨b, ?_, hf, hroot⟩
      rw [List.mem_filter, mem_bindingsFor]
      refine ⟨⟨hb, hm⟩, ?_⟩
      cases before with
      | false => simpa using htr
      | true => simpa [htr] using hmem

theorem mem_existenceChanged :
    r ∈ existenceChanged S reg db m pks instances p f ↔
      r ∈ p f ∨ ∃ b ∈ reg.bindings, b.watched = m ∧ b.field = f ∧ b.onExistence = true ∧
        b.isLocal = false ∧ r ∈ roots S db b pks instances := by
  rw [existenceChanged, mem_resolve]
  apply or_congr_right
  constructor
  · rintro ⟨b, hb, hf, hroot⟩
    rw [List.mem_filter, mem_bindingsFor] at hb
    obtain ⟨⟨hb, hm⟩, hcond⟩ := hb
    simp only [Bool.and_eq_true, Bool.not_eq_true'] at hcond
    exact ⟨b, hb, hm, hf, hcond.1, hcond.2, hroot⟩
  · rintro ⟨b, hb, hm, hf, hex, hlocal, hroot⟩
    refine ⟨b, ?_, hf, hroot⟩
    rw [List.mem_filter, mem_bindingsFor]
    exact ⟨⟨hb, hm⟩, by simp [hex, hlocal]⟩

/-- **What a creation queues**: the stored fields of the new rows, and the roots that watch them. -/
theorem mem_created {rows : Table K (Row N K V)} :
    r ∈ created S reg db m rows p f ↔
      r ∈ p f ∨ (∃ x ∈ S.stored m, (m, x.1) = f) ∧ r ∈ rows.keys ∨
        rows.keys ≠ ∅ ∧ ∃ b ∈ reg.bindings, b.watched = m ∧ b.field = f ∧ b.onExistence = true ∧
          b.isLocal = false ∧ r ∈ roots S db b rows.keys (some rows) := by
  unfold created
  by_cases hempty : rows.keys = ∅
  · simp [hempty]
  · have hstored : ∀ (p : Pending M N K) (x : N × List (List N)),
        r ∈ p.add (m, x.1) rows.keys f ↔ r ∈ p f ∨ f = (m, x.1) ∧ r ∈ rows.keys :=
      fun p x => Pending.mem_add
    rw [if_neg hempty, mem_existenceChanged, mem_foldl hstored, or_assoc]
    simp only [← and_assoc, exists_and_right, ne_eq, hempty, not_false_eq_true, true_and,
      eq_comm (a := f)]

end Context

end Totem.Computed
