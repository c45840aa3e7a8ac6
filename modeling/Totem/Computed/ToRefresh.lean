import Totem.Computed.Flush

/-!
# Totem.Computed.ToRefresh — what one written instance makes stale

`computed_fields_to_refresh`, for code that writes one instance around the service layer.  It reads the roots off the
instance, where the first relation of a path is a key of it, and asks the database otherwise; the context only reads
them off rows just created.

* `build_full`: the bindings of one root model and path find their roots in the same way.
* `agrees_iff`: when the two agree.
-/

namespace Totem.Computed

open Totem.Lib

/-! ## The bindings of a path -/

section Full

variable {M N K V : Type*} [DecidableEq M] [DecidableEq N] {S : Schema M N K V}

/-- A binding that has all that the relations of its path ask of it. -/
structure Binding.Full (b : Binding M N) : Prop where
  placed : b.path = [] → b.watched = b.field.1
  existence : b.path ≠ [] → b.onExistence = true
  key : ∀ m a, b.path = [.reverse true m a] → b.fkAttname.isSome = true

omit [DecidableEq M] in
theorem Binding.Full.union {b c : Binding M N} (h : b.Full) : (b.union c).Full where
  placed := h.placed
  existence hpath := by
    rw [Binding.union, h.existence hpath, Bool.true_or]
  key m a hpath := by
    rw [Binding.union, Option.isSome_or, h.key m a hpath, Bool.true_or]

theorem full_mergeInto {c : Binding M N} {bs : List (Binding M N)} (h : ∀ b ∈ bs, b.Full)
    (hc : c.Full ∨ ∃ b ∈ bs, b.SameKey c) : ∀ b ∈ mergeInto c bs, b.Full := by
  intro b hb
  rcases mem_mergeInto hb with hb | ⟨b', hb', -, rfl⟩ | ⟨rfl, hnone⟩
  · exact h b hb
  · exact (h b' hb').union
  · obtain hfull | ⟨b', hb', hsame⟩ := hc
    · exact hfull
    · exact absurd hsame (hnone b' hb')

theorem full_merge {bs : List (Binding M N)} (h : ∀ b ∈ bs, b.Full) : ∀ b ∈ merge bs, b.Full :=
  merge_induct (fun _ _ hb _ _ => hb.union) h

/-- A path watched from its root, or one whose relations are watched already. -/
def Started (root : M × N) (m : M) (path : List (Hop M N)) (acc : List (Binding M N)) : Prop :=
  path = [] ∧ m = root.1 ∨ ∃ c ∈ acc, c.field = root ∧ c.watched = m ∧ c.path = path

theorem Started.full_mergeInto {root : M × N} {m : M} {path : List (Hop M N)} {acc : List (Binding M N)}
    (hstart : Started root m path acc) (h : ∀ b ∈ acc, b.Full) (names : Finset N) :
    ∀ b ∈ mergeInto ⟨root, m, path, names, ∅, false, none⟩ acc, b.Full := by
  refine Computed.full_mergeInto h ?_
  obtain ⟨rfl, rfl⟩ | ⟨c, hc, hfield, hwatched, hpath⟩ := hstart
  · exact .inl ⟨fun _ => rfl, fun hne => absurd rfl hne, fun m a hpath => by cases hpath⟩
  · exact .inr ⟨c, hc, hfield, hwatched, hpath⟩

/-- A relation crossed: the bindings stay full, and the path goes on from there. -/
theorem full_hopWatches {root : M × N} {m : M} {path : List (Hop M N)} {l : Lookup M N K V} {h : Hop M N}
    {acc : List (Binding M N)} (hhop : l.hop = some h) (hstart : Started root m path acc)
    (hacc : ∀ b ∈ acc, b.Full) :
    (∀ b ∈ (hopWatches root m path l h).foldl (fun acc b => mergeInto b acc) acc, b.Full) ∧
      Started root h.target (path ++ [h])
        ((hopWatches root m path l h).foldl (fun acc b => mergeInto b acc) acc) := by
  have hne : path ++ [h] ≠ [] := List.append_ne_nil_of_right_ne_nil _ (List.cons_ne_nil h [])
  have hreaches {w : Binding M N} {bs : List (Binding M N)}
      (hw : w.SameKey ⟨root, h.target, path ++ [h], ∅, ∅, true, none⟩) :
      Started root h.target (path ++ [h]) (mergeInto w bs) := by
    obtain ⟨b, hb, hincl⟩ : Has (mergeInto w bs) w := has_mergeInto_self
    exact .inr ⟨b, hb, hincl.key.trans hw⟩
  cases l with
  | own f =>
    obtain ⟨target, -, rfl⟩ := Option.map_eq_some_iff.mp hhop
    refine ⟨full_mergeInto (hstart.full_mergeInto hacc f.names) (.inl ⟨fun hnil => absurd hnil hne, fun _ => rfl, ?_⟩),
      hreaches (.refl _)⟩
    -- the path ends on a forward relation
    intro m' a (hpath : path ++ [_] = [] ++ [_])
    cases (List.append_inj' hpath rfl).2
  | reverse m' f =>
    obtain rfl := Option.some.inj hhop
    refine ⟨full_mergeInto hacc (.inl ⟨fun hnil => absurd hnil hne, fun _ => rfl, ?_⟩), hreaches ⟨rfl, rfl, rfl⟩⟩
    intro m'' a (hpath : path ++ [_] = [] ++ [_])
    obtain ⟨hnil, hlast⟩ := List.append_inj' hpath rfl
    have hkey : f.isKey = true := by
      injection hlast with hhop
      injection hhop
    rw [hnil, hkey]
    rfl

theorem full_watches {root : M × N} {dep rest : List N} {left : ℕ} {m : M} {path : List (Hop M N)}
    {ws acc : List (Binding M N)} (hws : watches S root dep left m path rest = .ok ws)
    (hstart : Started root m path acc) (hacc : ∀ b ∈ acc, b.Full) :
    ∀ b ∈ ws.foldl (fun acc b => mergeInto b acc) acc, b.Full := by
  induction rest generalizing left m path ws acc with
  | nil =>
    obtain rfl : [] = ws := by simpa [watches] using hws
    exact hacc
  | cons name rest ih =>
    unfold watches at hws
    split at hws
    · cases hws
    · rename_i l hl
      split at hws
      · split_ifs at hws
        obtain rfl := Except.ok.inj hws
        exact hstart.full_mergeInto hacc l.field.names
      · rename_i h hhop
        cases left with
        | zero => cases hws
        | succ left =>
          obtain ⟨ws', hws', hws⟩ := bind_eq_ok.mp hws
          obtain rfl := Except.ok.inj hws
          obtain ⟨hfull, hstart'⟩ := full_hopWatches hhop hstart hacc
          rw [List.foldl_append]
          exact ih hws' hstart' hfull

/-- **The bindings of a registry are full.** -/
theorem build_full {reg : Registry M N} (h : build S = .ok reg) : ∀ b ∈ reg.bindings, b.Full :=
  build_induct (fun _ => full_merge)
    (fun _ _ _ _ _ _ hws => full_watches hws (.inl ⟨rfl, rfl⟩) fun _ hb => absurd hb List.not_mem_nil) h

/-- The bindings of one path read the same key, or none. -/
theorem build_fkAttname {reg : Registry M N} (h : build S = .ok reg) {b c : Binding M N} (hb : b ∈ reg.bindings)
    (hc : c ∈ reg.bindings) (hpath : b.path = c.path) : b.fkAttname = c.fkAttname := by
  have hread {b c : Binding M N} (hb : b ∈ reg.bindings) (hc : c ∈ reg.bindings) (hpath : b.path = c.path) {a : N}
      (ha : b.fkAttname = some a) : c.fkAttname = some a := by
    have hkey : c.path = [.reverse true b.watched a] := hpath.symm.trans (build_fkOk h b hb a ha)
    obtain ⟨a', ha'⟩ := Option.isSome_iff_exists.mp ((build_full h c hc).key _ _ hkey)
    have hkey' := build_fkOk h c hc a' ha'
    rw [hkey] at hkey'
    injection hkey' with hhop
    injection hhop with _ _ hname
    rw [ha', hname]
  refine Option.ext fun a => ⟨hread hb hc hpath, hread hc hb hpath.symm⟩

end Full

/-! ## The fields and rows -/

section ToRefresh

variable {M N K V : Type*} [DecidableEq M] [DecidableEq N] [DecidableEq K]

/-- An instance: its primary key, and its attributes.  The attribute of a foreign key holds what is in the column that
the key targets; `key` of a row of the database is the row that it refers to. -/
structure Instance (N K V : Type*) where
  pk : Option K
  row : Row N K V

/-- The instance among those `created` is told of: one without a primary key is left out. -/
def Instance.rows (inst : Instance N K V) : Table K (Row N K V) :=
  match inst.pk with
  | some k => Table.empty.insert k inst.row
  | none => .empty

/-- `{(root_model, root_pk): {field_name, ...}}`. -/
abbrev Result (M N K : Type*) := M × Option K → Finset N

def Result.add (result : Result M N K) (root : M × Option K) (n : N) : Result M N K :=
  Function.update result root (insert n (result root))

/-- The field added to the rows `pks` of a model; a `None` among them is none. -/
def Result.addRoots (result : Result M N K) (model : M) (pks : Finset (Option K)) (n : N) : Result M N K :=
  fun root => if root.1 = model ∧ root.2 ≠ none ∧ root.2 ∈ pks then insert n (result root) else result root

/-- The local `roots` and `result`. -/
structure Search (M N K : Type*) where
  roots : M × List (Hop M N) → Option (Finset (Option K))
  result : Result M N K

/-- The roots of a binding: read off the instance, or a query. -/
def instanceRoots (S : Schema M N K V) (db : Db M N K V) (inst : Instance N K V) (b : Binding M N) :
    Finset (Option K) :=
  match b.fkAttname with
  | some a => {inst.row.key a}
  | none => (S.lookup db b.field.1 b.path inst.pk.toFinset).image some

/-- `changed is None or binding.trigger_fields & changed`. -/
def Binding.touchedBy (b : Binding M N) (changed : Option (Finset N)) : Bool :=
  changed.all fun names => decide (b.triggers ∩ names).Nonempty

/-- One binding of the model of the instance. -/
def visitBinding (S : Schema M N K V) (db : Db M N K V) (m : M) (inst : Instance N K V) (changed : Option (Finset N))
    (isCreated : Bool) (s : Search M N K) (b : Binding M N) : Search M N K :=
  if b.isLocal then
    if isCreated || b.touchedBy changed then { s with result := s.result.add (m, inst.pk) b.field.2 } else s
  else if isCreated && b.onExistence || b.touchedBy changed then
    let found := (s.roots (b.field.1, b.path)).getD (instanceRoots S db inst b)
    { roots := Function.update s.roots (b.field.1, b.path) (some found)
      result := s.result.addRoots b.field.1 found b.field.2 }
  else s

/-- `computed_fields_to_refresh`, of an instance of `m`. -/
def computedFieldsToRefresh (S : Schema M N K V) (reg : Registry M N) (db : Db M N K V) (m : M)
    (inst : Instance N K V) (changedFields : Option (Finset N)) (isCreated : Bool) : Result M N K :=
  let result : Result M N K :=
    if isCreated then (S.stored m).foldl (fun result x => result.add (m, inst.pk) x.1) fun _ => ∅ else fun _ => ∅
  ((bindingsFor reg.bindings m).foldl (visitBinding S db m inst changedFields isCreated) ⟨fun _ => none, result⟩).result

/-! ## What is given -/

variable {S : Schema M N K V} {reg : Registry M N} {db : Db M N K V} {m : M} {inst : Instance N K V}
variable {changed : Option (Finset N)} {isCreated : Bool} {root : M × Option K} {n : N} {b : Binding M N}

theorem Result.mem_add {result : Result M N K} {root' : M × Option K} {n' : N} :
    n ∈ result.add root' n' root ↔ n ∈ result root ∨ n = n' ∧ root = root' := by
  unfold Result.add
  by_cases hroot : root = root'
  · subst hroot
    rw [Function.update_self, Finset.mem_insert, or_comm, and_iff_left rfl]
  · rw [Function.update_of_ne hroot]
    simp [hroot]

theorem Result.mem_addRoots {result : Result M N K} {model : M} {pks : Finset (Option K)} {n' : N} :
    n ∈ result.addRoots model pks n' root ↔
      n ∈ result root ∨ n = n' ∧ root.1 = model ∧ root.2 ≠ none ∧ root.2 ∈ pks := by
  unfold Result.addRoots
  split_ifs with hroot
  · rw [Finset.mem_insert, or_comm, and_iff_left hroot]
  · rw [or_iff_left fun h => hroot h.2]

/-- The rows on which a binding makes its field stale. -/
def Binding.Adds (b : Binding M N) (S : Schema M N K V) (db : Db M N K V) (m : M) (inst : Instance N K V)
    (changed : Option (Finset N)) (isCreated : Bool) (root : M × Option K) : Prop :=
  (isCreated = true ∨ b.touchedBy changed = true) ∧
    if b.isLocal then root = (m, inst.pk)
    else root.1 = b.field.1 ∧ root.2 ≠ none ∧ root.2 ∈ instanceRoots S db inst b

/-- The roots found so far are those of the bindings. -/
def Search.Known (s : Search M N K) (S : Schema M N K V) (reg : Registry M N) (db : Db M N K V)
    (inst : Instance N K V) : Prop :=
  ∀ b ∈ reg.bindings, ∀ found, s.roots (b.field.1, b.path) = some found → found = instanceRoots S db inst b

/-- Two bindings of one root model and path have the same roots. -/
theorem instanceRoots_congr (h : build S = .ok reg) {b c : Binding M N} (hb : b ∈ reg.bindings)
    (hc : c ∈ reg.bindings) (hmodel : b.field.1 = c.field.1) (hpath : b.path = c.path) :
    instanceRoots S db inst b = instanceRoots S db inst c := by
  unfold instanceRoots
  rw [build_fkAttname h hb hc hpath, hmodel, hpath]

/-- **One binding**: what is known stays right, and its field is added to its roots. -/
theorem visitBinding_spec (h : build S = .ok reg) {b : Binding M N} (hb : b ∈ reg.bindings) {s : Search M N K}
    (hs : s.Known S reg db inst) :
    (visitBinding S db m inst changed isCreated s b).Known S reg db inst ∧
      ∀ n root, n ∈ (visitBinding S db m inst changed isCreated s b).result root ↔
        n ∈ s.result root ∨ n = b.field.2 ∧ b.Adds S db m inst changed isCreated root := by
  unfold visitBinding Binding.Adds
  by_cases hlocal : b.isLocal = true
  · simp only [if_pos hlocal]
    split_ifs with hfires
    · rw [Bool.or_eq_true] at hfires
      refine ⟨hs, fun n root => ?_⟩
      rw [Result.mem_add, and_iff_right hfires]
    · rw [Bool.or_eq_true] at hfires
      exact ⟨hs, fun n root => (or_iff_left fun hadds => hfires hadds.2.1).symm⟩
  · have hexistence : b.onExistence = true := by
      refine (build_full h b hb).existence fun hpath => hlocal ?_
      rw [Binding.isLocal, hpath]
      rfl
    simp only [if_neg hlocal, hexistence, Bool.and_true]
    split_ifs with hfires
    · have hfound : (s.roots (b.field.1, b.path)).getD (instanceRoots S db inst b) = instanceRoots S db inst b := by
        cases hroots : s.roots (b.field.1, b.path) with
        | none => rfl
        | some found => exact hs b hb found hroots
      rw [Bool.or_eq_true] at hfires
      dsimp only
      rw [hfound]
      constructor
      · intro c hc found hroots
        dsimp only at hroots
        by_cases hkey : (c.field.1, c.path) = (b.field.1, b.path)
        · rw [hkey, Function.update_self] at hroots
          obtain ⟨hmodel, hpath⟩ := Prod.mk.inj hkey
          rw [← Option.some.inj hroots, instanceRoots_congr h hb hc hmodel.symm hpath.symm]
        · rw [Function.update_of_ne hkey] at hroots
          exact hs c hc found hroots
      · intro n root
        rw [Result.mem_addRoots, and_iff_right hfires]
    · rw [Bool.or_eq_true] at hfires
      exact ⟨hs, fun n root => (or_iff_left fun hadds => hfires hadds.2.1).symm⟩

/-- The bindings one after the other. -/
theorem foldl_visitBinding (h : build S = .ok reg) {bs : List (Binding M N)} (hbs : ∀ b ∈ bs, b ∈ reg.bindings)
    {s : Search M N K} (hs : s.Known S reg db inst) :
    n ∈ (bs.foldl (visitBinding S db m inst changed isCreated) s).result root ↔
      n ∈ s.result root ∨ ∃ b ∈ bs, n = b.field.2 ∧ b.Adds S db m inst changed isCreated root := by
  induction bs generalizing s with
  | nil => simp
  | cons b bs ih =>
    have hb : b ∈ reg.bindings := hbs b List.mem_cons_self
    obtain ⟨hknown, hmem⟩ := visitBinding_spec h hb hs
    rw [List.foldl_cons, ih (fun c hc => hbs c (List.mem_cons_of_mem b hc)) hknown, hmem, List.exists_mem_cons_iff,
      or_assoc]

/-- **What `computed_fields_to_refresh` gives.** -/
theorem mem_computedFieldsToRefresh (h : build S = .ok reg) :
    n ∈ computedFieldsToRefresh S reg db m inst changed isCreated root ↔
      isCreated = true ∧ S.isStored m n = true ∧ root = (m, inst.pk) ∨
        ∃ b ∈ reg.bindings, b.watched = m ∧ n = b.field.2 ∧ b.Adds S db m inst changed isCreated root := by
  have hknown (result : Result M N K) : Search.Known ⟨fun _ => none, result⟩ S reg db inst :=
    fun b hb found hroots => by cases hroots
  have hstored (xs : List (N × List (List N))) (result : Result M N K) :
      n ∈ xs.foldl (fun result x => result.add (m, inst.pk) x.1) result root ↔
        n ∈ result root ∨ (∃ x ∈ xs, n = x.1) ∧ root = (m, inst.pk) := by
    induction xs generalizing result with
    | nil => simp
    | cons x xs ih => rw [List.foldl_cons, ih, Result.mem_add, List.exists_mem_cons_iff, or_and_right, or_assoc]
  rw [computedFieldsToRefresh, foldl_visitBinding h (fun b hb => (mem_bindingsFor.mp hb).1) (hknown _)]
  refine or_congr ?_ ?_
  · cases isCreated with
    | false => simp
    | true =>
      rw [if_pos rfl, hstored]
      simp [Schema.isStored, eq_comm (a := n)]
  · constructor
    · rintro ⟨b, hb, hadds⟩
      obtain ⟨hb, hwatched⟩ := mem_bindingsFor.mp hb
      exact ⟨b, hb, hwatched, hadds⟩
    · rintro ⟨b, hb, hwatched, hadds⟩
      exact ⟨b, mem_bindingsFor.mpr ⟨hb, hwatched⟩, hadds⟩

/-! ## Agreement with the context -/

/-- What is given is what is queued. -/
def Result.IsQueued (result : Result M N K) (p : Pending M N K) : Prop :=
  ∀ f root, f.2 ∈ result (f.1, root) ↔ ∃ r, root = some r ∧ r ∈ p f

/-- `computed_fields_to_refresh` agrees with the context on an instance of `m`, in the database after the write: after
an update of any fields, and for a new instance; and a root read off the instance is the one a query finds. -/
structure Agrees (S : Schema M N K V) (reg : Registry M N) (db : Db M N K V) (m : M) (inst : Instance N K V) :
    Prop where
  modified : ∀ changed, (computedFieldsToRefresh S reg db m inst (some changed) false).IsQueued
    (Computed.modified S reg db m inst.pk.toFinset changed false Pending.empty)
  created : ∀ changed, (computedFieldsToRefresh S reg db m inst changed true).IsQueued
    (Computed.created S reg db m inst.rows Pending.empty)
  fastPath : ∀ b ∈ reg.bindings, b.watched = m → ∀ a, b.fkAttname = some a →
    (inst.row.key a).toFinset = roots S db b inst.pk.toFinset none

/-- The row of `target` that the foreign key `a` of the row of the instance refers to. -/
def referred (db : Db M N K V) (target m : M) (inst : Instance N K V) (a : N) : Option K :=
  (inst.pk.bind (db m).get).bind fun row => (row.key a).filter fun r => decide (r ∈ (db target).keys)

/-- The attributes that the roots are read off hold the primary keys of the rows that the keys refer to; and without a
primary key there is nothing to refresh on the instance itself. -/
structure HoldsRoots (S : Schema M N K V) (reg : Registry M N) (db : Db M N K V) (m : M) (inst : Instance N K V) :
    Prop where
  saved : inst.pk = none → S.stored m = []
  keys : ∀ b ∈ reg.bindings, b.watched = m → ∀ a, b.fkAttname = some a →
    inst.row.key a = referred db b.field.1 m inst a

omit [DecidableEq M] in
/-- The roots found by a query. -/
theorem roots_of_not_local {pks : Finset K} (hlocal : b.isLocal = false) :
    roots S db b pks none = S.lookup db b.field.1 b.path pks := by
  unfold roots
  rw [hlocal]
  rfl

/-- The root that a query over a foreign key finds. -/
theorem roots_eq_referred (h : build S = .ok reg) (hb : b ∈ reg.bindings) {a : N} (ha : b.fkAttname = some a) :
    roots S db b inst.pk.toFinset none = (referred db b.field.1 b.watched inst a).toFinset := by
  have hpath := build_fkOk h b hb a ha
  have hlocal : b.isLocal = false := by rw [Binding.isLocal, hpath]; rfl
  have hend : S.endColumn b.field.1 b.path = none := by rw [hpath]; rfl
  ext r
  rw [roots_of_not_local hlocal, Schema.mem_lookup_of_endColumn hend, Option.mem_toFinset, Option.mem_def, referred]
  simp only [hpath, follow, Finset.singleton_biUnion, mem_next_reverse, Option.mem_toFinset, Option.mem_def]
  constructor
  · rintro ⟨hroot, x, ⟨row, hrow, hkey⟩, hpk⟩
    obtain ⟨rootRow, hroot⟩ := Option.ne_none_iff_exists'.mp hroot
    rw [Row.related, if_pos rfl, Option.mem_toFinset, Option.mem_def] at hkey
    rw [hpk, Option.bind_some, hrow, Option.bind_some, hkey]
    exact Option.filter_eq_some_iff.mpr ⟨rfl, decide_eq_true (Table.mem_keys_of_get hroot)⟩
  · intro hreferred
    obtain ⟨row, hrow, hfilter⟩ := Option.bind_eq_some_iff.mp hreferred
    obtain ⟨x, hpk, hrow⟩ := Option.bind_eq_some_iff.mp hrow
    obtain ⟨hkey, hmem⟩ := Option.filter_eq_some_iff.mp hfilter
    obtain ⟨rootRow, hroot⟩ := Table.mem_keys_iff.mp (of_decide_eq_true hmem)
    refine ⟨by simp [hroot], x, ⟨row, hrow, ?_⟩, hpk⟩
    rw [Row.related, if_pos rfl, Option.mem_toFinset, Option.mem_def]
    exact hkey

omit [DecidableEq M] in
/-- The roots read off the instance, or found by the query that the context makes. -/
theorem mem_instanceRoots (hlocal : b.isLocal = false) {root : Option K} :
    root ≠ none ∧ root ∈ instanceRoots S db inst b ↔ ∃ r, root = some r ∧
      r ∈ b.fkAttname.elim (roots S db b inst.pk.toFinset none) fun a => (inst.row.key a).toFinset := by
  unfold instanceRoots
  cases hkey : b.fkAttname with
  | some a =>
    simp only [Finset.mem_singleton, Option.elim_some, Option.mem_toFinset, Option.mem_def]
    cases root with
    | none => simp
    | some r => simp [eq_comm]
  | none =>
    rw [Option.elim_none, roots_of_not_local hlocal]
    cases root <;> simp

omit [DecidableEq K] in
/-- A dependency on a field of the row itself is of a stored field of its model. -/
theorem local_binding (h : build S = .ok reg) (hb : b ∈ reg.bindings) (hlocal : b.isLocal = true) :
    b.field.1 = b.watched ∧ S.isStored b.watched b.field.2 = true := by
  rw [Binding.isLocal, List.isEmpty_iff] at hlocal
  have hplaced := (build_full h b hb).placed hlocal
  have hstored := build_stored h hb
  rw [← hplaced] at hstored
  exact ⟨hplaced.symm, hstored⟩

/-- The roots of a binding that is not local, for the instance. -/
def Binding.rootsOf (b : Binding M N) (S : Schema M N K V) (db : Db M N K V) (inst : Instance N K V) : Finset K :=
  b.fkAttname.elim (roots S db b inst.pk.toFinset none) fun a => (inst.row.key a).toFinset

omit [DecidableEq M] in
/-- Where a binding adds a field, when it is not local. -/
theorem adds_iff (hlocal : b.isLocal = false) {f : M × N} {root : Option K} :
    f.2 = b.field.2 ∧ b.Adds S db m inst changed isCreated (f.1, root) ↔
      b.field = f ∧ (isCreated = true ∨ b.touchedBy changed = true) ∧ ∃ r, root = some r ∧ r ∈ b.rootsOf S db inst := by
  unfold Binding.Adds Binding.rootsOf
  rw [hlocal, if_neg Bool.false_ne_true, ← mem_instanceRoots hlocal]
  constructor
  · rintro ⟨hname, hfires, hmodel, hroot⟩
    exact ⟨Prod.ext hmodel.symm hname.symm, hfires, hroot⟩
  · rintro ⟨rfl, hfires, hroot⟩
    exact ⟨rfl, hfires, rfl, hroot⟩

/-- Where a local binding adds its field. -/
theorem adds_iff_of_local (h : build S = .ok reg) (hb : b ∈ reg.bindings) (hlocal : b.isLocal = true) {f : M × N}
    {root : Option K} : f.2 = b.field.2 ∧ b.Adds S db b.watched inst changed isCreated (f.1, root) ↔
      b.field = f ∧ (isCreated = true ∨ b.touchedBy changed = true) ∧ root = inst.pk := by
  obtain ⟨hmodel, -⟩ := local_binding h hb hlocal
  unfold Binding.Adds
  rw [hlocal, if_pos rfl]
  constructor
  · rintro ⟨hname, hfires, hroot⟩
    obtain ⟨hm, hroot⟩ := Prod.mk.inj hroot
    exact ⟨Prod.ext (hmodel.trans hm.symm) hname.symm, hfires, hroot⟩
  · rintro ⟨rfl, hfires, rfl⟩
    exact ⟨rfl, hfires, by rw [hmodel]⟩

omit [DecidableEq M] in
/-- The roots of a new instance are those that the context queues. -/
theorem roots_created {k : K} (hpk : inst.pk = some k) (hlocal : b.isLocal = false) :
    roots S db b inst.rows.keys (some inst.rows) = b.rootsOf S db inst := by
  have hrows : inst.rows = Table.empty.insert k inst.row := by rw [Instance.rows, hpk]
  have hkeys : inst.rows.keys = inst.pk.toFinset := by rw [hrows, hpk]; rfl
  unfold Binding.rootsOf
  cases hkey : b.fkAttname with
  | none =>
    rw [Option.elim_none, roots_of_not_local hlocal, ← hkeys]
    unfold roots
    rw [hlocal, hkey]
    rfl
  | some a =>
    unfold roots
    rw [hlocal, hkey, if_neg Bool.false_ne_true, Option.elim_some]
    dsimp only
    rw [hkeys, hpk, Option.toFinset_some, Finset.singleton_biUnion, hrows, Table.get_insert_self]
    rfl

omit [DecidableEq M] in
/-- An instance without a primary key has no roots, when its attributes are those of no row. -/
theorem rootsOf_of_unsaved (hpk : inst.pk = none) (hkeys : ∀ a, b.fkAttname = some a → inst.row.key a = none) :
    b.rootsOf S db inst = ∅ := by
  unfold Binding.rootsOf
  cases hkey : b.fkAttname with
  | none =>
    rw [Option.elim_none, hpk, Option.toFinset_none]
    exact roots_of_empty
  | some a => rw [Option.elim_some, hkeys a hkey, Option.toFinset_none]

theorem HoldsRoots.rootsOf_eq (hholds : HoldsRoots S reg db m inst) (h : build S = .ok reg) (hb : b ∈ reg.bindings)
    (hwatched : b.watched = m) : b.rootsOf S db inst = roots S db b inst.pk.toFinset none := by
  unfold Binding.rootsOf
  cases hkey : b.fkAttname with
  | none => rfl
  | some a => rw [Option.elim_some, hholds.keys b hb hwatched a hkey, roots_eq_referred h hb hkey, hwatched]

/-- **An update**: what is given is what the context queues. -/
theorem HoldsRoots.modified (hholds : HoldsRoots S reg db m inst) (h : build S = .ok reg) (names : Finset N) :
    (computedFieldsToRefresh S reg db m inst (some names) false).IsQueued
      (Computed.modified S reg db m inst.pk.toFinset names false Pending.empty) := by
  intro f root
  have hbinding {b : Binding M N} (hb : b ∈ reg.bindings) (hwatched : b.watched = m) :
      f.2 = b.field.2 ∧ b.Adds S db m inst (some names) false (f.1, root) ↔
        b.field = f ∧ (b.triggers ∩ names).Nonempty ∧ ∃ r, root = some r ∧ r ∈ roots S db b inst.pk.toFinset none := by
    have hfires : (false = true ∨ b.touchedBy (some names) = true) ↔ (b.triggers ∩ names).Nonempty := by
      simp [Binding.touchedBy]
    cases hlocal : b.isLocal with
    | false => rw [adds_iff hlocal, hfires, hholds.rootsOf_eq h hb hwatched]
    | true =>
      obtain ⟨-, hstored⟩ := local_binding h hb hlocal
      have hroots : roots S db b inst.pk.toFinset none = inst.pk.toFinset := by
        unfold roots
        rw [if_pos hlocal]
      subst hwatched
      rw [adds_iff_of_local h hb hlocal, hfires, hroots]
      cases hpk : inst.pk with
      | none => simp [Schema.isStored, hholds.saved hpk] at hstored
      | some k => simp
  rw [mem_computedFieldsToRefresh h]
  simp only [mem_modified]
  constructor
  · rintro (⟨hcreated, -⟩ | ⟨b, hb, hwatched, hadds⟩)
    · cases hcreated
    · obtain ⟨hfield, htr, r, hroot, hr⟩ := (hbinding hb hwatched).mp hadds
      exact ⟨r, hroot, .inr ⟨b, hb, hwatched, hfield, htr, fun hbefore => absurd hbefore Bool.false_ne_true, hr⟩⟩
  · rintro ⟨r, hroot, hr | ⟨b, hb, hwatched, hfield, htr, -, hr⟩⟩
    · cases hr
    · exact .inr ⟨b, hb, hwatched, (hbinding hb hwatched).mpr ⟨hfield, htr, r, hroot, hr⟩⟩

/-- **A new instance**: what is given is what the context queues. -/
theorem HoldsRoots.created (hholds : HoldsRoots S reg db m inst) (h : build S = .ok reg) (changed : Option (Finset N)) :
    (computedFieldsToRefresh S reg db m inst changed true).IsQueued
      (Computed.created S reg db m inst.rows Pending.empty) := by
  intro f root
  rw [mem_computedFieldsToRefresh h]
  simp only [mem_created]
  cases hpk : inst.pk with
  | none =>
    have hnone : inst.rows.keys = ∅ := by rw [Instance.rows, hpk]; rfl
    have hstored (n : N) : S.isStored m n = false := by rw [Schema.isStored, hholds.saved hpk]; rfl
    have hkeys {b : Binding M N} (hb : b ∈ reg.bindings) (hwatched : b.watched = m) :
        b.rootsOf S db inst = ∅ := by
      refine rootsOf_of_unsaved hpk fun a ha => ?_
      rw [hholds.keys b hb hwatched a ha, referred, hpk]
      rfl
    constructor
    · rintro (⟨-, hn, -⟩ | ⟨b, hb, hwatched, hadds⟩)
      · rw [hstored] at hn
        cases hn
      · cases hlocal : b.isLocal with
        | true =>
          obtain ⟨-, hn⟩ := local_binding h hb hlocal
          rw [hwatched, hstored] at hn
          cases hn
        | false =>
          obtain ⟨-, -, r, -, hr⟩ := (adds_iff hlocal).mp hadds
          rw [hkeys hb hwatched] at hr
          exact absurd hr (Finset.notMem_empty r)
    · rintro ⟨r, -, hr | ⟨-, hr⟩ | ⟨hne, -⟩⟩
      · cases hr
      · rw [hnone] at hr
        exact absurd hr (Finset.notMem_empty r)
      · exact absurd hnone hne
  | some k =>
    have hkeys : inst.rows.keys = {k} := by rw [Instance.rows, hpk]; rfl
    have hstored {n : N} : S.isStored m n = true ↔ ∃ x ∈ S.stored m, (m, x.1) = (m, n) := by
      simp [Schema.isStored]
    rw [hkeys]
    constructor
    · rintro (⟨-, hn, hroot⟩ | ⟨b, hb, hwatched, hadds⟩)
      · obtain ⟨hmodel, hroot⟩ := Prod.mk.inj hroot
        refine ⟨k, hroot, .inr (.inl ⟨?_, Finset.mem_singleton_self k⟩)⟩
        obtain ⟨x, hx, hname⟩ := hstored.mp hn
        exact ⟨x, hx, hname.trans (Prod.ext hmodel.symm rfl)⟩
      · cases hlocal : b.isLocal with
        | true =>
          obtain ⟨hmodel, hn⟩ := local_binding h hb hlocal
          subst hwatched
          obtain ⟨hfield, -, hroot⟩ := (adds_iff_of_local h hb hlocal).mp hadds
          refine ⟨k, hroot.trans hpk, .inr (.inl ⟨?_, Finset.mem_singleton_self k⟩)⟩
          obtain ⟨x, hx, hname⟩ := hstored.mp hn
          refine ⟨x, hx, hname.trans ?_⟩
          rw [← hfield, ← hmodel]
        | false =>
          obtain ⟨hfield, -, r, hroot, hr⟩ := (adds_iff hlocal).mp hadds
          rw [← roots_created hpk hlocal, hkeys] at hr
          have hexistence := (build_full h b hb).existence fun hpath => by
            rw [Binding.isLocal, hpath] at hlocal
            cases hlocal
          exact ⟨r, hroot, .inr (.inr ⟨Finset.singleton_ne_empty k, b, hb, hwatched, hfield, hexistence, hlocal, hr⟩)⟩
    · rintro ⟨r, hroot, hr | ⟨⟨x, hx, hfield⟩, hr⟩ | ⟨-, b, hb, hwatched, hfield, -, hlocal, hr⟩⟩
      · cases hr
      · obtain rfl := Finset.mem_singleton.mp hr
        subst hfield
        exact .inl ⟨trivial, hstored.mpr ⟨x, hx, rfl⟩, by rw [hroot]⟩
      · rw [← hkeys, roots_created hpk hlocal] at hr
        exact .inr ⟨b, hb, hwatched, (adds_iff hlocal).mpr ⟨hfield, .inl rfl, r, hroot, hr⟩⟩

/-- **Agreement with the context**: exactly when the keys of the instance hold the primary keys of its roots. -/
theorem agrees_iff (h : build S = .ok reg) : Agrees S reg db m inst ↔ HoldsRoots S reg db m inst := by
  constructor
  · intro hagrees
    refine ⟨fun hpk => ?_, fun b hb hwatched a ha => ?_⟩
    · -- the stored fields of the instance would be given for no row
      refine List.eq_nil_iff_forall_not_mem.mpr fun x hx => ?_
      have hgiven : x.1 ∈ computedFieldsToRefresh S reg db m inst none true (m, none) := by
        refine (mem_computedFieldsToRefresh h).mpr (.inl ⟨rfl, Schema.isStored_iff.mpr ⟨x.2, hx⟩, ?_⟩)
        rw [hpk]
      obtain ⟨r, hr, -⟩ := (hagrees.created none (m, x.1) none).mp hgiven
      cases hr
    · have hroots := hagrees.fastPath b hb hwatched a ha
      rw [roots_eq_referred h hb ha, hwatched] at hroots
      ext r
      rw [← Option.mem_def, ← Option.mem_toFinset, hroots, Option.mem_toFinset, Option.mem_def]
  · intro hholds
    refine ⟨hholds.modified h, hholds.created h, fun b hb hwatched a ha => ?_⟩
    rw [← hholds.rootsOf_eq h hb hwatched, Binding.rootsOf, ha, Option.elim_some]

/-! ## The columns that keys target -/

/-- The instance of a row.  `column a r` is what the row `r` has in the column that the key `a` targets: `r` itself when
it is the primary key, another value with a `to_field`. -/
def Instance.ofRow (column : N → K → K) (k : K) (row : Row N K V) : Instance N K V :=
  ⟨some k, { row with key := fun a => (row.key a).map (column a) }⟩

omit [DecidableEq M] [DecidableEq N] in
/-- **The instance of a row holds its roots when its keys do not tell the target column from the primary key.** -/
theorem holdsRoots_ofRow {column : N → K → K} {k : K} {row : Row N K V} (hrow : (db m).get k = some row)
    (hrefers : ∀ b ∈ reg.bindings, b.watched = m → ∀ a, b.fkAttname = some a → ∀ r, row.key a = some r →
      r ∈ (db b.field.1).keys) :
    HoldsRoots S reg db m (Instance.ofRow column k row) ↔
      ∀ b ∈ reg.bindings, b.watched = m → ∀ a, b.fkAttname = some a → ∀ r, row.key a = some r → column a r = r := by
  have hkey {b : Binding M N} (hb : b ∈ reg.bindings) (hwatched : b.watched = m) {a : N} (ha : b.fkAttname = some a) :
      referred db b.field.1 m (Instance.ofRow column k row) a = row.key a := by
    have hpk : (Instance.ofRow column k row).pk.bind (db m).get = some row := hrow
    rw [referred, hpk, Option.bind_some]
    cases hr : row.key a with
    | none => rfl
    | some r => exact Option.filter_eq_some_iff.mpr ⟨rfl, decide_eq_true (hrefers b hb hwatched a ha r hr)⟩
  constructor
  · intro hholds b hb hwatched a ha r hr
    have hholds : (row.key a).map (column a) = referred db b.field.1 m (Instance.ofRow column k row) a :=
      hholds.keys b hb hwatched a ha
    rw [hkey hb hwatched ha, hr] at hholds
    exact Option.some.inj hholds
  · refine fun hcolumn => ⟨fun hpk => absurd hpk (Option.some_ne_none k), fun b hb hwatched a ha => ?_⟩
    rw [hkey hb hwatched ha, Instance.ofRow]
    cases hr : row.key a with
    | none => simp [hr]
    | some r => simp [hr, hcolumn b hb hwatched a ha r hr]

end ToRefresh

/-! ### Orders and lines -/

section Sample

/-- One order, of the number 500, and a line of it. -/
def lineDb : Db Shop String ℕ ℤ
  | .order => Table.empty.insert 1 shopOrder
  | .line => Table.empty.insert 10 (shopLine 1 5)

theorem agrees_sample : ∃ reg, build shop = .ok reg ∧
    (Agrees shop reg lineDb .line (Instance.ofRow (fun _ r => r) 10 (shopLine 1 5)) ↔
      HoldsRoots shop reg lineDb .line (Instance.ofRow (fun _ r => r) 10 (shopLine 1 5))) := by
  obtain ⟨reg, hb⟩ : ∃ reg, build shop = .ok reg := ⟨_, rfl⟩
  exact ⟨reg, hb, agrees_iff hb⟩

/-- The lines of the shop hold the numbers of the orders. -/
theorem order_number : ∃ reg, build shop = .ok reg ∧
    ¬ Agrees shop reg lineDb .line (Instance.ofRow (fun _ r => r + 499) 10 (shopLine 1 5)) := by
  obtain ⟨reg, hb⟩ : ∃ reg, build shop = .ok reg := ⟨_, rfl⟩
  refine ⟨reg, hb, fun hagrees => ?_⟩
  -- the binding of the lines of an order
  have hstored : ("total", [["lines"], ["lines", "amount"]]) ∈ shop.stored .order := by decide
  obtain ⟨ws, hws, hhas⟩ := build_has hb hstored ["lines"] (by decide)
  obtain rfl := Except.ok.inj hws
  obtain ⟨b, hmem, ⟨hfield, hwatched, hpath⟩, -, -, -⟩ := hhas _ List.mem_cons_self
  have hkey : b.fkAttname = some "order" := by
    obtain ⟨a, ha⟩ := Option.isSome_iff_exists.mp ((build_full hb b hmem).key _ _ hpath)
    have hread := build_fkOk hb b hmem a ha
    rw [hpath] at hread
    injection hread with hhop
    injection hhop with _ _ hname
    rw [ha, ← hname]
  have hroots := hagrees.fastPath b hmem hwatched "order" hkey
  rw [roots_eq_referred hb hmem hkey, hfield, hwatched] at hroots
  exact absurd hroots (by decide)

end Sample

end Totem.Computed
