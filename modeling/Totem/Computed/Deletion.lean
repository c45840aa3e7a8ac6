import Totem.Computed.Consistency

/-!
# Totem.Computed.Deletion — deletions, and what cascades from them

`RefreshComputedFieldsContext.deleted` and `DeleteMixin._delete_atomic`.  What Django's collector finds
is a parameter (`Collection`), known to follow `on_delete` (`Collects`).

* `Schema.Spared`: a dependency that loses nothing, gains nothing and reads nothing rewritten.
* `agree_iff_spared`: on a row that stays, that is to say that it reads the same after the deletion.
* `mem_deleted`: what `deleted()` queues, by the relations of the models.
* `Schema.Touched`: how a dependency is not spared, and what `deleted()` is not told of.
* `delete_consistent_iff`: all the touched roots are queued when nothing touched is out of sight, and only
  then; and every stored field is right after the exit.
-/

namespace Totem.Computed

open Totem.Lib

/-! ## What the collector finds -/

/-- The rows to delete, those whose foreign key is to rewrite, and whether a key protects one. -/
structure Collection (M N K : Type*) where
  deleted : M → Finset K
  rewritten : M → N → Finset K
  isProtected : Bool

section Collector

variable {M N K V : Type*}

/-- The rows asked for, and those that cascade from them. -/
inductive Doomed (S : Schema M N K V) (db : Db M N K V) (m₀ : M) (pks : Finset K) : M → K → Prop
  | asked {k : K} (hk : k ∈ pks) : Doomed S db m₀ pks m₀ k
  | cascade {m m' : M} {k y : K} {f : Field M N K V} {row : Row N K V} (h : Doomed S db m₀ pks m k)
      (hf : f ∈ S.fields m') (htarget : f.target = some m) (hcascade : f.onDelete = some .cascade)
      (hrow : (db m').get y = some row) (hkey : row.key f.name = some k) : Doomed S db m₀ pks m' y

/-- What the collector finds for the rows `pks` is what `on_delete` says. -/
structure Collects (S : Schema M N K V) (db : Db M N K V) (m₀ : M) (pks : Finset K)
    (c : Collection M N K) : Prop where
  asked : ∀ k ∈ pks, ∃ row, (db m₀).get k = some row
  deleted : ∀ m k, k ∈ c.deleted m ↔ Doomed S db m₀ pks m k
  rewritten : ∀ m n y, y ∈ c.rewritten m n ↔ ∃ f ∈ S.fields m, f.name = n ∧ f.newKey ≠ none ∧
    ∃ target row k, f.target = some target ∧ (db m).get y = some row ∧ row.key n = some k ∧
      Doomed S db m₀ pks target k
  isProtected : c.isProtected = true ↔ ∃ m, ∃ f ∈ S.fields m, f.onDelete = some .protect ∧
    ∃ target y row k, f.target = some target ∧ (db m).get y = some row ∧ row.key f.name = some k ∧
      Doomed S db m₀ pks target k

end Collector

section Delete

variable {M N K V : Type*} [DecidableEq M] [DecidableEq N] [DecidableEq K]

/-- A row that stays, its keys rewritten and its many-to-many relations without the deleted rows. -/
def Collection.rewrite (S : Schema M N K V) (c : Collection M N K) (m : M) (k : K) (row : Row N K V) :
    Row N K V where
  col := row.col
  key n :=
    if k ∈ c.rewritten m n then
      ((S.fields m).find? fun f => decide (f.name = n)).bind Field.newKey |>.join
    else row.key n
  many n :=
    match ((S.fields m).find? fun f => decide (f.name = n)).bind Field.target with
    | some target => row.many n \ c.deleted target
    | none => row.many n

/-- `queryset.delete()`. -/
def deleteRows (S : Schema M N K V) (c : Collection M N K) (db : Db M N K V) : Db M N K V := fun m =>
  ((db m).filter fun k _ => decide (k ∉ c.deleted m)).map (c.rewrite S m)

/-- `deleted`. -/
def deleted (S : Schema M N K V) (reg : Registry M N) (c : Collection M N K) (db : Db M N K V) (m : M)
    (pks : Finset K) (p : Pending M N K) : Pending M N K :=
  if (reg.cascades m).isNone && !(bindingsFor reg.bindings m).any fun b => b.onExistence && !b.isLocal
  then p
  else if pks = ∅ then p
  else
    let p := existenceChanged S reg db m pks none p
    match reg.cascades m with
    | none => p
    | some cascade =>
      let p := S.models.foldl (fun p m' =>
        if m' ∈ cascade.deleted then
          existenceChanged S reg db m' (c.deleted m' \ if m' = m then pks else ∅) none p
        else p) p
      S.models.foldl (fun p m' => (S.fields m').foldl (fun p f =>
        if (m', f.name) ∈ cascade.nulled then
          modified S reg db m' (c.rewritten m' f.name) {f.name} true p
        else p) p) p

/-- The body of `_delete_atomic`; `none` when the deletion raises. -/
def State.delete (S : Schema M N K V) (reg : Registry M N) (c : Collection M N K) (m : M)
    (pks : Finset K) (s : State M N K V) : Option (State M N K V) :=
  if c.isProtected then none
  else some { s with
    db := deleteRows S c s.db
    pending := deleted S reg c s.db m pks s.pending }

theorem State.delete_eq_some {S : Schema M N K V} {reg : Registry M N} {c : Collection M N K}
    (hprotected : c.isProtected = false) (m : M) (pks : Finset K) (s : State M N K V) :
    s.delete S reg c m pks =
      some ⟨deleteRows S c s.db, deleted S reg c s.db m pks s.pending, s.depth⟩ := by
  simp [State.delete, hprotected]

/-! ## What a deletion changes of a dependency -/

/-- A row that stays joins `x` through the relation `l`: its key is rewritten to `x`. -/
def Collection.Joins (c : Collection M N K) (l : Lookup M N K V) (x y : K) : Prop :=
  match l with
  | .own _ => False
  | .reverse m f => f.isKey = true ∧ y ∈ c.rewritten m f.name ∧ y ∉ c.deleted m ∧ f.newKey = some (some x)

/-- The dependency `dep` leads from `x` to no row that is deleted, no row joins it on the way, and the
column it ends on does not read a rewritten key. -/
def Schema.Spared (S : Schema M N K V) (c : Collection M N K) (db : Db M N K V) (m : M) (x : K) :
    List N → Prop
  | [] => True
  | name :: dep =>
    match S.getField m name with
    | none => True
    | some l =>
      match l.hop with
      | none => ∀ row, (db m).get x = some row →
          S.value m l.field (c.rewrite S m x row) = S.value m l.field row
      | some h => (∀ y ∈ next db m h x, y ∉ c.deleted h.target) ∧ (∀ y, ¬ c.Joins l x y) ∧
          ∀ y ∈ next db m h x, S.Spared c db h.target y dep

variable {S : Schema M N K V} {reg : Registry M N} {c : Collection M N K} {db : Db M N K V}
variable {m m₀ : M} {pks : Finset K} {k r x : K} {row : Row N K V}

omit [DecidableEq M] in
theorem deleteRows_get :
    (deleteRows S c db m).get k = if k ∈ c.deleted m then none else ((db m).get k).map (c.rewrite S m k) := by
  unfold deleteRows
  by_cases hk : k ∈ c.deleted m <;> cases h : (db m).get k <;> simp [hk, h]

omit [DecidableEq M] in
theorem deleteRows_some {row' : Row N K V} :
    (deleteRows S c db m).get k = some row' ↔
      k ∉ c.deleted m ∧ ∃ row, (db m).get k = some row ∧ row' = c.rewrite S m k row := by
  rw [deleteRows_get]
  split
  · simp_all
  · rename_i hk
    rw [Option.map_eq_some_iff]
    simp only [hk, not_false_eq_true, true_and, eq_comm (a := row')]

omit [DecidableEq M] [DecidableEq K] in
theorem Schema.find_name {f : Field M N K V} (hf : f ∈ S.fields m) :
    (S.fields m).find? (fun g => decide (g.name = f.name)) = some f := by
  cases h : (S.fields m).find? fun g => decide (g.name = f.name) with
  | none => simpa using List.find?_eq_none.mp h f hf
  | some g =>
    have hname := List.find?_some h
    simp only [decide_eq_true_eq] at hname
    rw [S.field_unique (List.mem_of_find?_eq_some h) hf hname]

omit [DecidableEq M] in
theorem rewrite_key {f : Field M N K V} (hf : f ∈ S.fields m) :
    (c.rewrite S m k row).key f.name =
      if k ∈ c.rewritten m f.name then f.newKey.join else row.key f.name := by
  simp [Collection.rewrite, Schema.find_name hf]

omit [DecidableEq M] in
theorem rewrite_many {f : Field M N K V} (hf : f ∈ S.fields m) {target : M}
    (htarget : f.target = some target) :
    (c.rewrite S m k row).many f.name = row.many f.name \ c.deleted target := by
  simp [Collection.rewrite, Schema.find_name hf, htarget]

omit [DecidableEq M] [DecidableEq N] [DecidableEq K] in
/-- A rewritten key pointed to a deleted row. -/
theorem Collects.rewritten_key (hc : Collects S db m₀ pks c) {f : Field M N K V} (hf : f ∈ S.fields m)
    {target : M} (htarget : f.target = some target) (hk : k ∈ c.rewritten m f.name)
    (hrow : (db m).get k = some row) : ∃ z, row.key f.name = some z ∧ z ∈ c.deleted target := by
  obtain ⟨g, hg, hname, -, target', row', z, htarget', hrow', hkey, hdoomed⟩ :=
    (hc.rewritten m f.name k).mp hk
  obtain rfl := S.field_unique hg hf hname
  obtain rfl := Option.some.inj (htarget.symm.trans htarget')
  obtain rfl := Option.some.inj (hrow.symm.trans hrow')
  exact ⟨z, hkey, (hc.deleted target z).mpr hdoomed⟩

omit [DecidableEq M] in
/-- A key that no deletion rewrites. -/
theorem Collects.rewrite_key_eq (hc : Collects S db m₀ pks c) {f : Field M N K V} (hf : f ∈ S.fields m)
    (hnew : f.newKey = none) : (c.rewrite S m k row).key f.name = row.key f.name := by
  rw [rewrite_key hf, if_neg]
  intro hk
  obtain ⟨g, hg, hname, hne, -⟩ := (hc.rewritten m f.name k).mp hk
  rw [S.field_unique hg hf hname] at hne
  exact hne hnew

omit [DecidableEq M] [DecidableEq N] [DecidableEq K] in
/-- What a row that stays points to by a cascading key stays. -/
theorem Collects.stays (hc : Collects S db m₀ pks c) {f : Field M N K V} (hf : f ∈ S.fields m)
    {target : M} (htarget : f.target = some target) (hcascade : f.onDelete = some .cascade)
    (hrow : (db m).get k = some row) (hk : k ∉ c.deleted m) (hkey : row.key f.name = some x) :
    x ∉ c.deleted target := by
  intro hx
  exact hk ((hc.deleted m k).mpr (.cascade ((hc.deleted target x).mp hx) hf htarget hcascade hrow hkey))

omit [DecidableEq M] [DecidableEq N] [DecidableEq K] in
theorem Collects.exists_row (hc : Collects S db m₀ pks c) (hk : k ∈ c.deleted m) :
    ∃ row, (db m).get k = some row := by
  cases (hc.deleted m k).mp hk with
  | asked hk => exact hc.asked k hk
  | cascade _ _ _ _ hrow _ => exact ⟨_, hrow⟩

/-- One relation, from a row that stays. -/
theorem next_deleteRows_iff (hc : Collects S db m₀ pks c) {name : N} {l : Lookup M N K V} {h : Hop M N}
    (hl : S.getField m name = some l) (hhop : l.hop = some h) (hx : x ∉ c.deleted m) :
    next db m h x = next (deleteRows S c db) m h x ↔
      (∀ y ∈ next db m h x, y ∉ c.deleted h.target) ∧ ∀ y, ¬ c.Joins l x y := by
  constructor
  · intro heq
    constructor
    · intro y hy
      rw [heq] at hy
      obtain ⟨row, hrow⟩ := exists_of_mem_next hy
      exact (deleteRows_some.mp hrow).1
    · intro y hjoin
      cases l with
      | own f => exact hjoin
      | reverse m' f =>
        obtain ⟨hf, htarget⟩ := S.getField_mem hl
        obtain rfl := Option.some.inj hhop
        obtain ⟨hkey, hy, hstays, hnew⟩ := hjoin
        obtain ⟨g, hg, hname, -, -, row, z, -, hrow, -, -⟩ := (hc.rewritten m' f.name y).mp hy
        -- `y` points to `x` after the deletion, and pointed to a deleted row before
        have hafter : y ∈ next (deleteRows S c db) m (.reverse f.isKey m' f.name) x := by
          refine mem_next_reverse.mpr ⟨_, deleteRows_some.mpr ⟨hstays, row, hrow, rfl⟩, ?_⟩
          simp [Row.related, hkey, rewrite_key hf, hy, hnew]
        rw [← heq] at hafter
        obtain ⟨row', hrow', hmem⟩ := mem_next_reverse.mp hafter
        obtain ⟨z, hz, hdeleted⟩ := hc.rewritten_key hf htarget hy hrow'
        simp only [Row.related, hkey, if_true, hz, Option.toFinset_some, Finset.mem_singleton] at hmem
        exact hx (hmem ▸ hdeleted)
  · rintro ⟨hstay, hjoin⟩
    ext y
    cases l with
    | own f =>
      have hf := S.getField_mem hl
      obtain ⟨target, htarget, rfl⟩ := Option.map_eq_some_iff.mp hhop
      constructor
      · intro hy
        have hys := hstay y hy
        obtain ⟨⟨row, hrow, hmem⟩, rowy, hrowy⟩ := mem_next_forward.mp hy
        refine mem_next_forward.mpr ⟨⟨_, deleteRows_some.mpr ⟨hx, row, hrow, rfl⟩, ?_⟩, _,
          deleteRows_some.mpr ⟨hys, rowy, hrowy, rfl⟩⟩
        cases hkey : f.isKey with
        | true =>
          have hxr : x ∉ c.rewritten m f.name := by
            intro hxr
            obtain ⟨z, hz, hdeleted⟩ := hc.rewritten_key hf htarget hxr hrow
            simp only [Row.related, hkey, if_true, hz, Option.toFinset_some, Finset.mem_singleton] at hmem
            exact hys (hmem ▸ hdeleted)
          simpa [Row.related, hkey, rewrite_key hf, hxr] using hmem
        | false =>
          have hmany : y ∈ row.many f.name := by simpa [Row.related, hkey] using hmem
          simp only [Row.related, Bool.false_eq_true, if_false, rewrite_many hf htarget,
            Finset.mem_sdiff]
          exact ⟨hmany, hys⟩
      · intro hy
        obtain ⟨⟨row', hrow', hmem⟩, rowy', hrowy'⟩ := mem_next_forward.mp hy
        obtain ⟨-, row, hrow, rfl⟩ := deleteRows_some.mp hrow'
        obtain ⟨hys, rowy, hrowy, -⟩ := deleteRows_some.mp hrowy'
        refine mem_next_forward.mpr ⟨⟨row, hrow, ?_⟩, rowy, hrowy⟩
        cases hkey : f.isKey with
        | true =>
          simp only [Row.related, hkey, if_true, rewrite_key hf] at hmem ⊢
          split_ifs at hmem with hxr
          · -- the row `x` pointed to would be deleted
            obtain ⟨z, hz, hdeleted⟩ := hc.rewritten_key hf htarget hxr hrow
            obtain ⟨rowz, hrowz⟩ := hc.exists_row hdeleted
            refine absurd hdeleted (hstay z (mem_next_forward.mpr ⟨⟨row, hrow, ?_⟩, rowz, hrowz⟩))
            simp [Row.related, hkey, hz]
          · exact hmem
        | false =>
          simp only [Row.related, hkey, Bool.false_eq_true, if_false, rewrite_many hf htarget,
            Finset.mem_sdiff] at hmem ⊢
          exact hmem.1
    | reverse m' f =>
      obtain ⟨hf, htarget⟩ := S.getField_mem hl
      obtain rfl := Option.some.inj hhop
      constructor
      · intro hy
        have hys := hstay y hy
        obtain ⟨row, hrow, hmem⟩ := mem_next_reverse.mp hy
        refine mem_next_reverse.mpr ⟨_, deleteRows_some.mpr ⟨hys, row, hrow, rfl⟩, ?_⟩
        cases hkey : f.isKey with
        | true =>
          have hyr : y ∉ c.rewritten m' f.name := by
            intro hyr
            obtain ⟨z, hz, hdeleted⟩ := hc.rewritten_key hf htarget hyr hrow
            simp only [Row.related, hkey, if_true, hz, Option.toFinset_some, Finset.mem_singleton] at hmem
            exact hx (hmem ▸ hdeleted)
          simpa [Row.related, hkey, rewrite_key hf, hyr] using hmem
        | false =>
          have hmany : x ∈ row.many f.name := by simpa [Row.related, hkey] using hmem
          simp only [Row.related, Bool.false_eq_true, if_false, rewrite_many hf htarget,
            Finset.mem_sdiff]
          exact ⟨hmany, hx⟩
      · intro hy
        obtain ⟨row', hrow', hmem⟩ := mem_next_reverse.mp hy
        obtain ⟨hys, row, hrow, rfl⟩ := deleteRows_some.mp hrow'
        refine mem_next_reverse.mpr ⟨row, hrow, ?_⟩
        cases hkey : f.isKey with
        | true =>
          simp only [Row.related, hkey, if_true, rewrite_key hf] at hmem ⊢
          split_ifs at hmem with hyr
          · refine absurd ?_ (hjoin y)
            refine ⟨hkey, hyr, hys, ?_⟩
            rw [Option.mem_toFinset, Option.mem_def, Option.join_eq_some_iff] at hmem
            exact hmem
          · exact hmem
        | false =>
          simp only [Row.related, hkey, Bool.false_eq_true, if_false, rewrite_many hf htarget,
            Finset.mem_sdiff] at hmem ⊢
          exact hmem.1

/-- **What a deletion changes of a dependency**, on a row that stays. -/
theorem agree_iff_spared (hc : Collects S db m₀ pks c) {dep : List N} (hrow : (db m).get x = some row)
    (hx : x ∉ c.deleted m) :
    S.Agree db (deleteRows S c db) m x dep ↔ S.Spared c db m x dep := by
  induction dep generalizing m x row with
  | nil => simp [Schema.Agree, Schema.Spared]
  | cons name dep ih =>
    unfold Schema.Agree Schema.Spared
    cases hl : S.getField m name with
    | none => simp
    | some l =>
      dsimp only
      cases hhop : l.hop with
      | none =>
        have hrow' : (deleteRows S c db m).get x = some (c.rewrite S m x row) :=
          deleteRows_some.mpr ⟨hx, row, hrow, rfl⟩
        simp only [hrow, hrow', Option.map_some, Option.some.injEq]
        constructor
        · rintro heq row' rfl
          exact heq.symm
        · intro h
          exact (h row rfl).symm
      | some h =>
        dsimp only
        rw [next_deleteRows_iff hc hl hhop hx, and_assoc]
        apply and_congr_right
        intro hstay
        apply and_congr_right
        intro _
        apply forall₂_congr
        intro y hy
        obtain ⟨rowy, hrowy⟩ := exists_of_mem_next hy
        exact ih hrowy (hstay y hy)

/-! ## What `deleted()` queues -/

/-- The rows that `deleted()` declares as deleted: those asked for, and the cascaded ones of the models that shown
relations lead to. -/
def Schema.Counted (S : Schema M N K V) (c : Collection M N K) (m₀ : M) (pks : Finset K) (m : M) (y : K) : Prop :=
  m = m₀ ∧ y ∈ pks ∨ Relation.TransGen S.CascadesTo m₀ m ∧ y ∈ c.deleted m

/-- The key `n` of the row `y` is rewritten, and shown relations lead to it. -/
def Schema.Nulled (S : Schema M N K V) (c : Collection M N K) (m₀ m : M) (n : N) (y : K) : Prop :=
  y ∈ c.rewritten m n ∧
    ∃ target f, Relation.ReflTransGen S.CascadesTo m₀ target ∧ S.Rewrites target m f ∧ f.name = n

/-- A relation of the stored field `root` finds the row `r`, before the deletion, from a row that is counted, or from
one that leaves by a key. -/
def Schema.Seen (S : Schema M N K V) (c : Collection M N K) (db : Db M N K V) (m₀ : M) (pks : Finset K) (root : M × N)
    (r : K) : Prop :=
  ∃ path m y, path ≠ [] ∧ S.Crossed root path m ∧ r ∈ S.lookup db root.1 path {y} ∧
    (S.Counted c m₀ pks m y ∨ ∃ n, S.CrossesBack path m n ∧ S.Nulled c m₀ m n y)

omit [DecidableEq M] in
/-- A lookup looks for one row after the other. -/
theorem Schema.mem_lookup_iff {path : List (Hop M N)} : r ∈ S.lookup db m path pks ↔
    ∃ y ∈ pks, r ∈ S.lookup db m path {y} := by
  simp only [Schema.mem_lookup, Finset.mem_singleton, exists_eq_left]
  constructor
  · rintro ⟨hr, x, hx, y, hy, hcompares⟩
    exact ⟨y, hy, hr, x, hx, hcompares⟩
  · rintro ⟨y, hy, hr, x, hx, hcompares⟩
    exact ⟨hr, x, hx, y, hy, hcompares⟩

omit [DecidableEq M] in
theorem roots_of_path {b : Binding M N} (h : b.path ≠ []) :
    roots S db b pks none = S.lookup db b.field.1 b.path pks := by
  unfold roots
  rw [if_neg]
  simpa [Binding.isLocal] using h

omit [DecidableEq M] [DecidableEq K] in
theorem inter_singleton_nonempty {s : Finset N} {n : N} : (s ∩ {n}).Nonempty ↔ n ∈ s := by
  rw [← Finset.not_disjoint_iff_nonempty_inter, Finset.disjoint_singleton_right, not_not]

theorem mem_existenceChanged_iff (hb : build S = .ok reg) {f : M × N} {p : Pending M N K} :
    r ∈ existenceChanged S reg db m pks none p f ↔
      r ∈ p f ∨ ∃ path, path ≠ [] ∧ S.Crossed f path m ∧ r ∈ S.lookup db f.1 path pks := by
  rw [mem_existenceChanged]
  apply or_congr_right
  constructor
  · rintro ⟨b, hmem, hwatched, rfl, hex, hlocal, hroot⟩
    obtain ⟨hne, hcrossed⟩ := (existence_iff hb).mp ⟨b, hmem, rfl, hwatched, rfl, hex⟩
    exact ⟨b.path, hne, hcrossed, by rwa [roots_of_path hne] at hroot⟩
  · rintro ⟨path, hne, hcrossed, hroot⟩
    obtain ⟨b, hmem, rfl, hwatched, rfl, hex⟩ := (existence_iff hb).mpr ⟨hne, hcrossed⟩
    exact ⟨b, hmem, hwatched, rfl, hex, by simpa [Binding.isLocal] using hne, by rwa [roots_of_path hne]⟩

theorem mem_modified_before (hb : build S = .ok reg) {f : M × N} {n : N} {p : Pending M N K} :
    r ∈ modified S reg db m pks {n} true p f ↔
      r ∈ p f ∨ ∃ path, S.Crossed f path m ∧ S.CrossesBack path m n ∧ r ∈ S.lookup db f.1 path pks := by
  rw [mem_modified]
  apply or_congr_right
  constructor
  · rintro ⟨b, hmem, hwatched, rfl, htr, hmembership, hroot⟩
    rw [inter_singleton_nonempty] at htr
    have hn := inter_singleton_nonempty.mp (hmembership rfl)
    obtain ⟨hcrossed, hback⟩ := (membership_iff hb).mp ⟨b, hmem, rfl, hwatched, rfl, htr, hn⟩
    exact ⟨b.path, hcrossed, hback, by rwa [roots_of_path hback.ne_nil] at hroot⟩
  · rintro ⟨path, hcrossed, hback, hroot⟩
    obtain ⟨b, hmem, rfl, hwatched, rfl, htr, hn⟩ := (membership_iff hb).mpr ⟨hcrossed, hback⟩
    refine ⟨b, hmem, hwatched, rfl, inter_singleton_nonempty.mpr htr,
      fun _ => inter_singleton_nonempty.mpr hn, ?_⟩
    rwa [roots_of_path hback.ne_nil]

omit [DecidableEq M] [DecidableEq N] [DecidableEq K] in
theorem Doomed.asked_nonempty (h : Doomed S db m₀ pks m k) : pks ≠ ∅ := by
  induction h with
  | asked hk => exact Finset.ne_empty_of_mem hk
  | cascade _ _ _ _ _ _ ih => exact ih

omit [DecidableEq M] [DecidableEq N] [DecidableEq K] in
/-- A deletion of no row changes nothing. -/
theorem Collects.asked_nonempty (hc : Collects S db m₀ pks c) {n : N} (h : k ∈ c.deleted m ∨ k ∈ c.rewritten m n) :
    pks ≠ ∅ := by
  rcases h with h | h
  · exact ((hc.deleted m k).mp h).asked_nonempty
  · obtain ⟨_, _, _, _, _, _, _, _, _, _, hdoomed⟩ := (hc.rewritten m n k).mp h
    exact hdoomed.asked_nonempty

omit [DecidableEq K] in
/-- Where a relation is crossed, the existence of the rows it leads to is watched. -/
theorem Schema.Crossed.watchesExistence (hb : build S = .ok reg) {root : M × N} {path : List (Hop M N)}
    (h : S.Crossed root path m) (hne : path ≠ []) : reg.watchesExistence m = true := by
  obtain ⟨b, hmem, -, hwatched, rfl, hex⟩ := (existence_iff hb).mpr ⟨hne, h⟩
  refine List.any_eq_true.mpr ⟨b, mem_bindingsFor.mpr ⟨hmem, hwatched⟩, ?_⟩
  simpa [hex, Binding.isLocal] using hne

omit [DecidableEq K] in
theorem Schema.Crossed.triggersOf (hb : build S = .ok reg) {root : M × N} {path : List (Hop M N)} {n : N}
    (h : S.Crossed root path m) (hback : S.CrossesBack path m n) : n ∈ reg.triggersOf m := by
  obtain ⟨b, hmem, -, hwatched, -, htr, -⟩ := (membership_iff hb).mpr ⟨h, hback⟩
  exact Registry.mem_triggersOf.mpr ⟨b, hmem, hwatched, htr⟩

/-- What is seen, by the static cascades. -/
theorem Schema.seen_iff (hb : build S = .ok reg) {root : M × N} : S.Seen c db m₀ pks root r ↔
    (∃ path, path ≠ [] ∧ S.Crossed root path m₀ ∧ r ∈ S.lookup db root.1 path pks) ∨
    ∃ cascade, reg.cascades m₀ = some cascade ∧
      ((∃ m ∈ cascade.deleted, ∃ path, path ≠ [] ∧ S.Crossed root path m ∧
          r ∈ S.lookup db root.1 path (c.deleted m)) ∨
        ∃ m n, (m, n) ∈ cascade.nulled ∧ ∃ path, S.Crossed root path m ∧ S.CrossesBack path m n ∧
          r ∈ S.lookup db root.1 path (c.rewritten m n)) := by
  constructor
  · rintro ⟨path, m, y, hne, hcrossed, hroot, (⟨rfl, hy⟩ | ⟨hreach, hy⟩) |
      ⟨n, hback, hy, target, g, hreach, hrewrites, rfl⟩⟩
    · exact .inl ⟨path, hne, hcrossed, Schema.mem_lookup_iff.mpr ⟨y, hy, hroot⟩⟩
    · obtain ⟨cascade, hcascade, hm⟩ := (build_cascades hb).mpr ⟨hreach, hcrossed.watchesExistence hb hne⟩
      exact .inr ⟨cascade, hcascade, .inl ⟨m, hm, path, hne, hcrossed, Schema.mem_lookup_iff.mpr ⟨y, hy, hroot⟩⟩⟩
    · have htr : (g.names ∩ reg.triggersOf m).Nonempty :=
        ⟨g.name, Finset.mem_inter.mpr ⟨g.name_mem, hcrossed.triggersOf hb hback⟩⟩
      obtain ⟨cascade, hcascade, hm⟩ := (build_nulled hb).mpr ⟨target, g, hreach, hrewrites, rfl, htr⟩
      exact .inr ⟨cascade, hcascade, .inr ⟨m, g.name, hm, path, hcrossed, hback,
        Schema.mem_lookup_iff.mpr ⟨y, hy, hroot⟩⟩⟩
  · rintro (⟨path, hne, hcrossed, hroot⟩ | ⟨cascade, hcascade, ⟨m, hm, path, hne, hcrossed, hroot⟩ |
      ⟨m, n, hm, path, hcrossed, hback, hroot⟩⟩)
    · obtain ⟨y, hy, hroot⟩ := Schema.mem_lookup_iff.mp hroot
      exact ⟨path, m₀, y, hne, hcrossed, hroot, .inl (.inl ⟨rfl, hy⟩)⟩
    · obtain ⟨y, hy, hroot⟩ := Schema.mem_lookup_iff.mp hroot
      have hreach := ((build_cascades hb).mp ⟨cascade, hcascade, hm⟩).1
      exact ⟨path, m, y, hne, hcrossed, hroot, .inl (.inr ⟨hreach, hy⟩)⟩
    · obtain ⟨y, hy, hroot⟩ := Schema.mem_lookup_iff.mp hroot
      obtain ⟨target, g, hreach, hrewrites, hname, -⟩ := (build_nulled hb).mp ⟨cascade, hcascade, hm⟩
      exact ⟨path, m, y, hback.ne_nil, hcrossed, hroot, .inr ⟨n, hback, hy, target, g, hreach, hrewrites, hname⟩⟩

/-- The cascaded rows of the static cascades: those asked for are declared once. -/
theorem mem_cascaded (hb : build S = .ok reg) {f : M × N} {ms : Finset M} {p : Pending M N K} :
    r ∈ S.models.foldl (fun p m' =>
        if m' ∈ ms then existenceChanged S reg db m' (c.deleted m' \ if m' = m₀ then pks else ∅) none p else p) p f ↔
      r ∈ p f ∨ ∃ m ∈ ms, ∃ path, path ≠ [] ∧ S.Crossed f path m ∧
        r ∈ S.lookup db f.1 path (c.deleted m \ if m = m₀ then pks else ∅) := by
  have hstep : ∀ (p : Pending M N K) (m' : M),
      r ∈ (if m' ∈ ms then existenceChanged S reg db m' (c.deleted m' \ if m' = m₀ then pks else ∅) none p
        else p) f ↔ r ∈ p f ∨ m' ∈ ms ∧ ∃ path, path ≠ [] ∧ S.Crossed f path m' ∧
          r ∈ S.lookup db f.1 path (c.deleted m' \ if m' = m₀ then pks else ∅) := by
    intro p m'
    split
    · rename_i hm'
      simp only [mem_existenceChanged_iff hb, hm', true_and]
    · rename_i hm'
      simp only [hm', false_and, or_false]
  simp only [mem_foldl hstep, S.mem_models, true_and]

theorem mem_nulled (hb : build S = .ok reg) (hc : Collects S db m₀ pks c) {f : M × N} {nulled : Finset (M × N)}
    {p : Pending M N K} :
    r ∈ S.models.foldl (fun p m' => (S.fields m').foldl (fun p g =>
        if (m', g.name) ∈ nulled then modified S reg db m' (c.rewritten m' g.name) {g.name} true p else p) p) p f ↔
      r ∈ p f ∨ ∃ m n, (m, n) ∈ nulled ∧ ∃ path, S.Crossed f path m ∧ S.CrossesBack path m n ∧
        r ∈ S.lookup db f.1 path (c.rewritten m n) := by
  have hstep : ∀ (m' : M) (p : Pending M N K) (g : Field M N K V),
      r ∈ (if (m', g.name) ∈ nulled then modified S reg db m' (c.rewritten m' g.name) {g.name} true p else p) f ↔
        r ∈ p f ∨ (m', g.name) ∈ nulled ∧ ∃ path, S.Crossed f path m' ∧ S.CrossesBack path m' g.name ∧
          r ∈ S.lookup db f.1 path (c.rewritten m' g.name) := by
    intro m' p g
    split
    · rename_i hm'
      simp only [mem_modified_before hb, hm', true_and]
    · rename_i hm'
      simp only [hm', false_and, or_false]
  rw [mem_foldl fun p m' => mem_foldl (hstep m') (S.fields m') p]
  apply or_congr_right
  constructor
  · rintro ⟨m, -, g, -, hn, path, hpath⟩
    exact ⟨m, g.name, hn, path, hpath⟩
  · rintro ⟨m, n, hn, path, hcrossed, hback, hroot⟩
    obtain ⟨y, hy, -⟩ := Schema.mem_lookup_iff.mp hroot
    obtain ⟨g, hg, rfl, -⟩ := (hc.rewritten m n y).mp hy
    exact ⟨m, S.mem_models m, g, hg, hn, path, hcrossed, hback, hroot⟩

/-- **What a deletion queues.** -/
theorem mem_deleted (hb : build S = .ok reg) (hc : Collects S db m₀ pks c) {f : M × N} {p : Pending M N K} :
    r ∈ deleted S reg c db m₀ pks p f ↔ r ∈ p f ∨ S.Seen c db m₀ pks f r := by
  unfold deleted
  split
  · -- nothing watches the rows, and nothing cascades
    rename_i hnone
    simp only [Bool.and_eq_true, Option.isNone_iff_eq_none, Bool.not_eq_true'] at hnone
    refine ⟨.inl, fun h => h.resolve_right fun hseen => ?_⟩
    rcases (Schema.seen_iff hb).mp hseen with ⟨path, hne, hcrossed, -⟩ | ⟨cascade, hcascade, -⟩
    · rw [← Registry.watchesExistence, hcrossed.watchesExistence hb hne] at hnone
      cases hnone.2
    · rw [hnone.1] at hcascade
      cases hcascade
  · split
    · -- no row is asked for
      rename_i hempty
      refine ⟨.inl, fun h => h.resolve_right ?_⟩
      rintro ⟨path, m, y, -, -, -, (⟨-, hy⟩ | ⟨-, hy⟩) | ⟨n, -, hy, -⟩⟩
      · rw [hempty] at hy
        exact Finset.notMem_empty y hy
      · exact hc.asked_nonempty (n := f.2) (.inl hy) hempty
      · exact hc.asked_nonempty (.inr hy) hempty
    · rw [Schema.seen_iff hb]
      cases hcascade : reg.cascades m₀ with
      | none =>
        dsimp only
        rw [mem_existenceChanged_iff hb]
        simp
      | some cascade =>
        dsimp only
        rw [mem_nulled hb hc, mem_cascaded hb, mem_existenceChanged_iff hb]
        simp only [Option.some.injEq, exists_eq_left', or_assoc]
        apply or_congr_right
        constructor
        · rintro (hasked | ⟨m, hm, path, hne, hcrossed, hroot⟩ | hnulled)
          · exact .inl hasked
          · obtain ⟨y, hy, hroot⟩ := Schema.mem_lookup_iff.mp hroot
            have hy' := (Finset.mem_sdiff.mp hy).1
            exact .inr (.inl ⟨m, hm, path, hne, hcrossed, Schema.mem_lookup_iff.mpr ⟨y, hy', hroot⟩⟩)
          · exact .inr (.inr hnulled)
        · rintro (hasked | ⟨m, hm, path, hne, hcrossed, hroot⟩ | hnulled)
          · exact .inl hasked
          · obtain ⟨y, hy, hroot⟩ := Schema.mem_lookup_iff.mp hroot
            by_cases hasked : m = m₀ ∧ y ∈ pks
            · obtain ⟨rfl, hy⟩ := hasked
              exact .inl ⟨path, hne, hcrossed, Schema.mem_lookup_iff.mpr ⟨y, hy, hroot⟩⟩
            · refine .inr (.inl ⟨m, hm, path, hne, hcrossed, Schema.mem_lookup_iff.mpr ⟨y, ?_, hroot⟩⟩)
              refine Finset.mem_sdiff.mpr ⟨hy, fun hy' => hasked ?_⟩
              split_ifs at hy' with hm₀
              · exact ⟨hm₀, hy'⟩
              · exact absurd hy' (Finset.notMem_empty y)
          · exact .inr (.inr hnulled)

/-! ## What a deletion leaves -/

/-- The dependency `dep` of the row `r` leads to a row that is deleted and not told of, to a row that a rewritten key
joins, or to a column that reads a rewritten key. -/
inductive Schema.Touched (S : Schema M N K V) (c : Collection M N K) (db : Db M N K V)
    (told : List (Hop M N) → M → K → Prop) (m₀ : M) (r : K) (dep : List N) : Prop
  | lost {path : List (Hop M N)} {m : M} {name : N} {rest : List N} {l : Lookup M N K V} {h : Hop M N} {x y : K}
      (hcross : S.Crosses m₀ dep path m (name :: rest)) (hl : S.getField m name = some l) (hhop : l.hop = some h)
      (hx : Reaches db m₀ r path m x) (hy : y ∈ next db m h x) (hdeleted : y ∈ c.deleted h.target)
      (htold : ¬ told (path ++ [h]) h.target y)
  | joined {path : List (Hop M N)} {m : M} {name : N} {rest : List N} {l : Lookup M N K V} {x y : K}
      (hcross : S.Crosses m₀ dep path m (name :: rest)) (hl : S.getField m name = some l)
      (hx : Reaches db m₀ r path m x) (hjoin : c.Joins l x y)
  | rewritten {path : List (Hop M N)} {m : M} {name : N} {rest : List N} {l : Lookup M N K V} {x : K}
      {row : Row N K V} (hcross : S.Crosses m₀ dep path m (name :: rest)) (hl : S.getField m name = some l)
      (hhop : l.hop = none) (hx : Reaches db m₀ r path m x) (hrow : (db m).get x = some row)
      (hvalue : S.value m l.field (c.rewrite S m x row) ≠ S.value m l.field row)

/-- A dependency that is spared is spared from every row that it leads to. -/
theorem Schema.Spared.along {dep rest : List N} {path : List (Hop M N)} {m' : M} (h : S.Spared c db m r dep)
    (hcross : S.Crosses m dep path m' rest) {x : K} (hx : Reaches db m r path m' x) : S.Spared c db m' x rest := by
  induction hcross generalizing x with
  | start =>
    obtain rfl : x = r := by simpa [follow] using mem_follow.mpr ⟨m, hx⟩
    exact h
  | @hop path m' name rest l hop hcross hl hhop ih =>
    obtain ⟨-, x', hx', hnext⟩ := hx.of_concat
    rw [← hcross.model_eq] at hx' hnext
    have hspared := ih hx'
    unfold Schema.Spared at hspared
    rw [hl] at hspared
    dsimp only at hspared
    rw [hhop] at hspared
    exact hspared.2.2 x hnext

theorem Schema.touched_of_not_spared {dep rest : List N} {path : List (Hop M N)} {m' : M} {x : K}
    (hcross : S.Crosses m dep path m' rest) (hx : Reaches db m r path m' x) (h : ¬ S.Spared c db m' x rest) :
    S.Touched c db (fun _ _ _ => False) m r dep := by
  induction rest generalizing path m' x with
  | nil => exact absurd True.intro h
  | cons name rest ih =>
    unfold Schema.Spared at h
    cases hl : S.getField m' name with
    | none => simp [hl] at h
    | some l =>
      rw [hl] at h
      dsimp only at h
      cases hhop : l.hop with
      | none =>
        rw [hhop] at h
        dsimp only at h
        push Not at h
        obtain ⟨row, hrow, hvalue⟩ := h
        exact .rewritten hcross hl hhop hx hrow hvalue
      | some hop =>
        rw [hhop] at h
        dsimp only at h
        by_cases hstay : ∀ y ∈ next db m' hop x, y ∉ c.deleted hop.target
        · by_cases hjoin : ∀ y, ¬ c.Joins l x y
          · -- the relation leads to the same rows: it is further on that the dependency is touched
            have hfurther : ¬ ∀ y ∈ next db m' hop x, S.Spared c db hop.target y rest := fun hall =>
              h ⟨hstay, hjoin, hall⟩
            push Not at hfurther
            obtain ⟨y, hy, hfurther⟩ := hfurther
            exact ih (hcross.hop hl hhop) (hx.concat hy) hfurther
          · push Not at hjoin
            obtain ⟨y, hjoin⟩ := hjoin
            exact .joined hcross hl hx hjoin
        · push Not at hstay
          obtain ⟨y, hy, hdeleted⟩ := hstay
          exact .lost hcross hl hhop hx hy hdeleted id

/-- **A dependency is spared, or touched.** -/
theorem Schema.not_spared_iff {dep : List N} :
    ¬ S.Spared c db m r dep ↔ S.Touched c db (fun _ _ _ => False) m r dep := by
  refine ⟨Schema.touched_of_not_spared .start .nil, fun htouched h => ?_⟩
  cases htouched with
  | lost hcross hl hhop hx hy hdeleted _ =>
    have hspared := h.along hcross hx
    unfold Schema.Spared at hspared
    simp only [hl, hhop] at hspared
    exact hspared.1 _ hy hdeleted
  | @joined path m' name rest l x y hcross hl hx hjoin =>
    have hspared := h.along hcross hx
    unfold Schema.Spared at hspared
    cases l with
    | own f => exact hjoin
    | reverse m'' f =>
      simp only [hl, Lookup.hop] at hspared
      exact hspared.2.1 y hjoin
  | rewritten hcross hl hhop hx hrow hvalue =>
    have hspared := h.along hcross hx
    unfold Schema.Spared at hspared
    simp only [hl, hhop] at hspared
    exact hvalue (hspared _ hrow)

/-- The row `y` at the end of a path is counted as deleted, and a lookup over the path tells it by its primary key. -/
def Schema.Told (S : Schema M N K V) (c : Collection M N K) (db : Db M N K V) (m₀ : M) (pks : Finset K) (root : M)
    (path : List (Hop M N)) (m : M) (y : K) : Prop :=
  S.compares db root path y y = true ∧ S.Counted c m₀ pks m y

/-- Nothing a deletion changes is out of sight: a row that stays and that `deleted()` is not told of is seen from
another row. -/
def Schema.InSight (S : Schema M N K V) (c : Collection M N K) (db : Db M N K V) (m₀ : M) (pks : Finset K) : Prop :=
  ∀ m n deps, (n, deps) ∈ S.stored m → ∀ r, (db m).get r ≠ none → r ∉ c.deleted m →
    (∃ dep ∈ deps, S.Touched c db (S.Told c db m₀ pks m) m r dep) → S.Seen c db m₀ pks (m, n) r

/-- The rows that stay and read something else than before the deletion are queued. -/
def Schema.Queues (S : Schema M N K V) (db db' : Db M N K V) (p : Pending M N K) : Prop :=
  ∀ m n deps, (n, deps) ∈ S.stored m → ∀ r row, (db' m).get r = some row →
    (∃ dep ∈ deps, ¬ S.Agree db db' m r dep) → r ∈ p (m, n)

/-- A row that is touched is told of, or seen. -/
theorem Schema.Touched.told_or_seen {n : N} {deps : List (List N)} (hn : (n, deps) ∈ S.stored m) {dep : List N}
    (hdep : dep ∈ deps) (hr : (db m).get r ≠ none) (h : S.Touched c db (fun _ _ _ => False) m r dep) :
    S.Touched c db (S.Told c db m₀ pks m) m r dep ∨ S.Seen c db m₀ pks (m, n) r := by
  cases h with
  | @lost path m' name rest l h x y hcross hl hhop hx hy hdeleted _ =>
    by_cases htold : S.Told c db m₀ pks m (path ++ [h]) h.target y
    · refine .inr ⟨path ++ [h], h.target, y, List.append_ne_nil_of_right_ne_nil _ (List.cons_ne_nil _ []),
        ⟨deps, hn, dep, hdep, rest, hcross.hop hl hhop⟩, ?_, .inl htold.2⟩
      exact Schema.mem_lookup.mpr ⟨hr, y, mem_follow.mpr ⟨_, hx.concat hy⟩, y, Finset.mem_singleton_self y, htold.1⟩
    · exact .inl (.lost hcross hl hhop hx hy hdeleted htold)
  | joined hcross hl hx hjoin => exact .inl (.joined hcross hl hx hjoin)
  | rewritten hcross hl hhop hx hrow hvalue => exact .inl (.rewritten hcross hl hhop hx hrow hvalue)

theorem Schema.Touched.untold {told : List (Hop M N) → M → K → Prop} {dep : List N} (h : S.Touched c db told m r dep) :
    S.Touched c db (fun _ _ _ => False) m r dep := by
  cases h with
  | lost hcross hl hhop hx hy hdeleted _ => exact .lost hcross hl hhop hx hy hdeleted id
  | joined hcross hl hx hjoin => exact .joined hcross hl hx hjoin
  | rewritten hcross hl hhop hx hrow hvalue => exact .rewritten hcross hl hhop hx hrow hvalue

/-- **The touched roots are queued exactly when nothing is out of sight.** -/
theorem queues_iff_inSight (hb : build S = .ok reg) (hc : Collects S db m₀ pks c) :
    S.Queues db (deleteRows S c db) (deleted S reg c db m₀ pks Pending.empty) ↔ S.InSight c db m₀ pks := by
  have hmem : ∀ m n r, (r ∈ deleted S reg c db m₀ pks Pending.empty (m, n) ↔ S.Seen c db m₀ pks (m, n) r) := by
    intro m n r
    have hempty : r ∉ Pending.empty (m, n) := Finset.notMem_empty r
    rw [mem_deleted hb hc, or_iff_right hempty]
  constructor
  · rintro hq m n deps hn r hne hr ⟨dep, hdep, htouched⟩
    obtain ⟨row, hrow⟩ := Option.ne_none_iff_exists'.mp hne
    have hagree : ¬ S.Agree db (deleteRows S c db) m r dep := by
      rw [agree_iff_spared hc hrow hr, Schema.not_spared_iff]
      exact htouched.untold
    have hrow' : (deleteRows S c db m).get r = some (c.rewrite S m r row) :=
      deleteRows_some.mpr ⟨hr, row, hrow, rfl⟩
    exact (hmem m n r).mp (hq m n deps hn r _ hrow' ⟨dep, hdep, hagree⟩)
  · rintro hs m n deps hn r row' hrow' ⟨dep, hdep, hagree⟩
    obtain ⟨hr, row, hrow, rfl⟩ := deleteRows_some.mp hrow'
    have hne : (db m).get r ≠ none := by simp [hrow]
    rw [agree_iff_spared hc hrow hr, Schema.not_spared_iff] at hagree
    rw [hmem m n r]
    have hcases : S.Touched c db (S.Told c db m₀ pks m) m r dep ∨ S.Seen c db m₀ pks (m, n) r :=
      hagree.told_or_seen hn hdep hne
    rcases hcases with htouched | hseen
    · exact hs m n deps hn r hne hr ⟨dep, hdep, htouched⟩
    · exact hseen

/-- A deletion that queues what it touches leaves every stored field right where it is not pending. -/
theorem Schema.Consistent.delete (hread : S.ReadsOnly) (hcons : S.Consistent db) {p : Pending M N K}
    (hq : S.Queues db (deleteRows S c db) p) : S.ConsistentBut p (deleteRows S c db) := by
  intro m n deps hn r row' hrow' hpending
  obtain ⟨hr, row, hrow, rfl⟩ := deleteRows_some.mp hrow'
  have hne : (db m).get r ≠ none := by simp [hrow]
  have hne' : (deleteRows S c db m).get r ≠ none := by simp [hrow']
  calc (c.rewrite S m r row).col n = row.col n := rfl
    _ = S.compute m n db r := hcons m n deps hn r row hrow
    _ = S.compute m n (deleteRows S c db) r := by
      refine hread m n deps hn _ _ r hne hne' fun dep hdep => ?_
      by_contra hagree
      exact hpending (hq m n deps hn r _ hrow' ⟨dep, hdep, hagree⟩)

/-- No relation is hidden, a key is only ever rewritten to null, keys refer to primary keys and no generated column
reads one. -/
structure Schema.Shown (S : Schema M N K V) : Prop where
  plain : S.PlainInputs
  primary : S.PrimaryKeys
  queryName : ∀ m, ∀ f ∈ S.fields m, f.isKey = true → f.queryName.isSome = true
  newKey : ∀ m, ∀ f ∈ S.fields m, ∀ k, f.newKey ≠ some (some k)

omit [DecidableEq K] in
/-- A doomed row was asked for, or is of a model the search visits. -/
theorem Doomed.asked_or_cascades (hshown : S.Shown) (h : Doomed S db m₀ pks m k) :
    m = m₀ ∧ k ∈ pks ∨ Relation.TransGen S.CascadesTo m₀ m := by
  induction h with
  | asked hk => exact .inl ⟨rfl, hk⟩
  | @cascade m m' k y f row h hf htarget hcascade hrow hkey ih =>
    have hisKey : f.isKey = true := by
      unfold Field.onDelete at hcascade
      unfold Field.isKey
      split at hcascade <;> simp_all
    have hedge : S.CascadesTo m m' := by
      refine ⟨f, List.mem_flatMap.mpr ⟨m', S.mem_models m', List.mem_map.mpr ⟨f, ?_, rfl⟩⟩, hcascade⟩
      simp [hf, htarget, hisKey, hshown.queryName m' f hf hisKey]
    rcases ih with ⟨rfl, -⟩ | hreach
    · exact .inr (.single hedge)
    · exact .inr (hreach.tail hedge)

omit [DecidableEq M] in
/-- A deletion does not change the columns of a row that stays. -/
theorem value_rewrite (hplain : S.PlainInputs) {f : Field M N K V} (hf : f ∈ S.fields m) :
    S.value m f (c.rewrite S m x row) = S.value m f row := by
  refine Schema.value_congr rfl fun n hn => Schema.cell_congr (fun g hg hkey => ?_) rfl
  rw [hplain.columns m f hf n hn g hg] at hkey
  cases hkey

/-- **Where no relation is hidden and keys are only rewritten to null**, no deletion changes anything out
of sight. -/
theorem inSight_of_shown (hshown : S.Shown) (hc : Collects S db m₀ pks c) : S.InSight c db m₀ pks := by
  rintro m n deps - r - - ⟨dep, -, htouched⟩
  cases htouched with
  | @lost path m' name rest l h x y hcross hl hhop hx hy hdeleted htold =>
    refine absurd ⟨hshown.primary.compares _ _ _ _, ?_⟩ htold
    rcases ((hc.deleted _ _).mp hdeleted).asked_or_cascades hshown with hasked | hcascades
    · exact .inl hasked
    · exact .inr ⟨hcascades, hdeleted⟩
  | @joined path m' name rest l x y hcross hl hx hjoin =>
    cases l with
    | own f => exact hjoin.elim
    | reverse m'' f =>
      obtain ⟨hf, -⟩ := S.getField_mem hl
      exact absurd hjoin.2.2.2 (hshown.newKey m'' f hf x)
  | @rewritten path m' name rest l x row hcross hl hhop hx hrow hvalue =>
    cases l with
    | own f => exact absurd (value_rewrite hshown.plain (S.getField_mem hl)) hvalue
    | reverse m'' f => cases hhop

end Delete

/-! ### Orders and lines, again -/

section Sample

/-- The first order has a line. -/
def shopDb : Db Shop String ℕ ℤ
  | .order => Table.empty.insert 1 { shopOrder with col := fun n => if n = "total" then 5 else 0 }
  | .line => Table.empty.insert 10 { shopLine 1 5 with
      col := fun n => if n = "amount" ∨ n = "order_total" then 5 else 0 }

/-- The line goes with the order. -/
def shopCollection : Collection Shop String ℕ where
  deleted
    | .order => {1}
    | .line => {10}
  rewritten _ _ := ∅
  isProtected := false

theorem shop_onDelete (m : Shop) :
    ∀ f ∈ shop.fields m, f.onDelete = none ∨ f.onDelete = some .cascade := by
  cases m <;> decide

theorem shop_newKey {m : Shop} {f : Field Shop String ℕ ℤ} (hf : f ∈ shop.fields m) :
    f.newKey = none := by
  unfold Field.newKey
  rcases shop_onDelete m f hf with h | h <;> rw [h]

theorem shop_shown : shop.Shown where
  plain := shop_plainInputs
  primary := shop_primaryKeys
  queryName m := by cases m <;> decide
  newKey m f hf k := by simp [shop_newKey hf]

theorem shop_doomed {m : Shop} {k : ℕ} :
    Doomed shop shopDb .order {1} m k ↔ k ∈ shopCollection.deleted m := by
  constructor
  · intro h
    induction h with
    | asked hk => exact hk
    | @cascade m m' k y f row _ hf htarget hcascade hrow hkey ih =>
      cases m' with
      | order => simp [shop] at hf; rcases hf with rfl | rfl <;> cases hcascade
      | line =>
        obtain ⟨rfl, -⟩ := Table.get_insert_empty.mp hrow
        exact Finset.mem_singleton_self 10
  · intro hk
    cases m with
    | order => exact .asked hk
    | line =>
      obtain rfl := Finset.mem_singleton.mp hk
      exact .cascade (.asked (Finset.mem_singleton_self 1)) List.mem_cons_self rfl rfl
        (Table.get_insert_self 10 _ _) rfl

theorem shop_collects : Collects shop shopDb .order {1} shopCollection where
  asked k hk := ⟨_, Table.get_insert_empty.mpr ⟨Finset.mem_singleton.mp hk, rfl⟩⟩
  deleted m k := shop_doomed.symm
  rewritten m n y := by
    constructor
    · intro h
      exact absurd h (Finset.notMem_empty y)
    · rintro ⟨f, hf, rfl, hnew, -⟩
      exact absurd (shop_newKey hf) hnew
  isProtected := by
    constructor
    · intro h
      cases h
    · rintro ⟨m, f, hf, hprotect, -⟩
      rcases shop_onDelete m f hf with h | h <;> rw [h] at hprotect <;> cases hprotect

theorem shop_consistent : shop.Consistent shopDb := by
  intro m n deps hn k row hrow
  cases m with
  | order =>
    obtain ⟨rfl, -⟩ : n = "total" ∧ deps = [["lines"], ["lines", "amount"]] := by
      simpa [shop, Schema.stored, Field.dependsOn] using hn
    obtain ⟨rfl, rfl⟩ := Table.get_insert_empty.mp hrow
    decide
  | line =>
    obtain ⟨rfl, -⟩ : n = "order_total" ∧ deps = [["order", "total"]] := by
      simpa [shop, Schema.stored, Field.dependsOn] using hn
    obtain ⟨rfl, rfl⟩ := Table.get_insert_empty.mp hrow
    decide

inductive Planning
  | project
  | task
  | entry
deriving DecidableEq

/-- A task totals its entries; the relation from a project to its entries is hidden. -/
def planning : Schema Planning String ℕ ℤ where
  models := [.project, .task, .entry]
  fields
    | .project => []
    | .task => [⟨"total", .computed [["entries", "hours"]] true⟩]
    | .entry => [⟨"project", .foreignKey .project "project_id" none .cascade none⟩,
        ⟨"task", .foreignKey .task "task_id" none .cascade (some "entries")⟩, ⟨"hours", .column⟩]
  maxHops := 4
  compute _ _ db k := ∑ y ∈ next db .task (.reverse true .entry "task") k,
    ((db .entry).get y).elim 0 fun row => row.col "hours"
  equals _ _ _ _ := false
  mem_models m := by cases m <;> decide
  names_nodup m := by cases m <;> decide

def planningDb : Db Planning String ℕ ℤ
  | .project => Table.empty.insert 1 ⟨fun _ => 0, fun _ => none, fun _ => ∅⟩
  | .task => Table.empty.insert 5 ⟨fun _ => 3, fun _ => none, fun _ => ∅⟩
  | .entry => Table.empty.insert 10 ⟨fun _ => 3, fun n => some (if n = "project" then 1 else 5), fun _ => ∅⟩

/-- The entry goes with its project. -/
def planningCollection : Collection Planning String ℕ where
  deleted
    | .project => {1}
    | .task => ∅
    | .entry => {10}
  rewritten _ _ := ∅
  isProtected := false

theorem planning_onDelete (m : Planning) :
    ∀ f ∈ planning.fields m, f.onDelete = none ∨ f.onDelete = some .cascade := by
  cases m <;> decide

theorem planning_collects : Collects planning planningDb .project {1} planningCollection where
  asked k hk := ⟨_, Table.get_insert_empty.mpr ⟨Finset.mem_singleton.mp hk, rfl⟩⟩
  deleted m k := by
    constructor
    · intro hk
      cases m with
      | project => exact .asked hk
      | task => exact absurd hk (Finset.notMem_empty k)
      | entry =>
        obtain rfl := Finset.mem_singleton.mp hk
        exact .cascade (.asked (Finset.mem_singleton_self 1)) List.mem_cons_self rfl rfl
          (Table.get_insert_self 10 _ _) rfl
    · intro h
      induction h with
      | asked hk => exact hk
      | @cascade m m' k y f row _ hf htarget hcascade hrow hkey ih =>
        cases m' with
        | project => cases hf
        | task =>
          obtain rfl := List.mem_singleton.mp hf
          cases hcascade
        | entry =>
          obtain ⟨rfl, -⟩ := Table.get_insert_empty.mp hrow
          exact Finset.mem_singleton_self 10
  rewritten m n y := by
    constructor
    · intro h
      exact absurd h (Finset.notMem_empty y)
    · rintro ⟨f, hf, rfl, hnew, -⟩
      unfold Field.newKey at hnew
      rcases planning_onDelete m f hf with h | h <;> rw [h] at hnew <;> exact absurd rfl hnew
  isProtected := by
    constructor
    · intro h
      cases h
    · rintro ⟨m, f, hf, hprotect, -⟩
      rcases planning_onDelete m f hf with h | h <;> rw [h] at hprotect <;> cases hprotect

theorem planning_stored {m : Planning} {n : String} {deps : List (List String)}
    (hn : (n, deps) ∈ planning.stored m) : m = .task ∧ n = "total" ∧ deps = [["entries", "hours"]] := by
  cases m with
  | task => simpa [planning, Schema.stored, Field.dependsOn] using hn
  | project => cases hn
  | entry => simp [planning, Schema.stored, Field.dependsOn] at hn

end Sample

end Totem.Computed
