import Totem.Computed.Reconcile
import Totem.Services.Relations

/-!
# Totem.Services.Resequence — numbering records after a list of their keys

`ResequenceMixin` of `core.services.mixins`: the values are coerced to primary keys and refused when one is repeated;
in one transaction they are matched against the records the user may update, numbered by one UPDATE, and the stored
computed fields that read the sequence are refreshed.

* `flush_keptBut`: a refresh writes the fields that follow from what was queued.
* `resequence_all_or_nothing`: nothing happens, or the listed records have their numbers.
* `resequence_agrees`: what `Totem.Services.resequence` says of the records it is asked for.
-/

namespace Totem.Computed

open Totem.Lib

/-! ## What a refresh may write -/

section Kept

variable {M N K V : Type*} [DecidableEq M] [DecidableEq N] [DecidableEq K]

/-- A write of the field `f` queues the stored field `g`. -/
def Triggers (reg : Registry M N) (f g : M × N) : Prop :=
  ∃ b ∈ reg.bindings, b.watched = f.1 ∧ f.2 ∈ b.triggers ∧ b.field = g

/-- The rows, their keys and relations, and the columns outside of `P`. -/
structure KeptBut (P : M → K → N → Prop) (db db' : Db M N K V) : Prop where
  gone : ∀ m k, (db m).get k = none → (db' m).get k = none
  rows : ∀ m k row, (db m).get k = some row → ∃ row', (db' m).get k = some row' ∧ row'.key = row.key ∧
    row'.many = row.many ∧ ∀ n, ¬ P m k n → row'.col n = row.col n

variable {S : Schema M N K V} {reg : Registry M N} {db db' db'' : Db M N K V} {m : M} {pks : Finset K}
variable {names : List N} {q : Queue M N K} {s : FlushState M N K V} {P Q : M → K → N → Prop}
variable {T : M × N → Prop}

omit [DecidableEq M] [DecidableEq N] [DecidableEq K] in
theorem KeptBut.refl (db : Db M N K V) : KeptBut P db db where
  gone _ _ h := h
  rows _ _ row h := ⟨row, h, rfl, rfl, fun _ _ => rfl⟩

omit [DecidableEq M] [DecidableEq N] [DecidableEq K] in
theorem KeptBut.mono (h : KeptBut P db db') (hPQ : ∀ m k n, P m k n → Q m k n) : KeptBut Q db db' where
  gone := h.gone
  rows m k row hrow := by
    obtain ⟨row', hrow', hkey, hmany, hcol⟩ := h.rows m k row hrow
    exact ⟨row', hrow', hkey, hmany, fun n hn => hcol n fun hP => hn (hPQ m k n hP)⟩

omit [DecidableEq M] [DecidableEq N] [DecidableEq K] in
theorem KeptBut.trans (h : KeptBut P db db') (h' : KeptBut P db' db'') : KeptBut P db db'' where
  gone m k hk := h'.gone m k (h.gone m k hk)
  rows m k row hrow := by
    obtain ⟨row', hrow', hkey, hmany, hcol⟩ := h.rows m k row hrow
    obtain ⟨row'', hrow'', hkey', hmany', hcol'⟩ := h'.rows m k row' hrow'
    exact ⟨row'', hrow'', hkey'.trans hkey, hmany'.trans hmany, fun n hn => (hcol' n hn).trans (hcol n hn)⟩

omit [DecidableEq M] [DecidableEq N] [DecidableEq K] in
/-- A row with no column in `P` is the same. -/
theorem KeptBut.get_eq (h : KeptBut P db db') {k : K} (hP : ∀ n, ¬ P m k n) : (db' m).get k = (db m).get k := by
  cases hrow : (db m).get k with
  | none => exact h.gone m k hrow
  | some row =>
    obtain ⟨⟨col', key', many'⟩, hrow', hkey, hmany, hcol⟩ := h.rows m k row hrow
    rw [hrow']
    obtain ⟨col, key, many⟩ := row
    congr 2
    exact funext fun n => hcol n (hP n)

theorem keptBut_writeComputed (hnames : ∀ n ∈ names, T (m, n)) :
    KeptBut (fun m _ n => T (m, n)) db (writeComputed S db m pks names) where
  gone _ _ := writeComputed_get_none
  rows m' k row hrow := by
    obtain ⟨row', hrow', hkey, hmany, hcol⟩ := writeComputed_get hrow
    refine ⟨row', hrow', hkey, hmany, fun n hn => ?_⟩
    rw [hcol n, if_neg]
    rintro ⟨rfl, -, hmem⟩
    exact hn (hnames n hmem)

/-- What a modification queues is triggered by one of the fields written. -/
theorem triggers_of_modified {f : M × N} {written : Finset N} (h : f ∈ (q.modified S reg db m pks written).keys) :
    f ∈ q.keys ∨ ∃ n ∈ written, Triggers reg (m, n) f := by
  refine (Queue.mem_keys_modified h).imp_right ?_
  rintro ⟨-, r, hr⟩
  rcases mem_modified.mp hr with hr | ⟨b, hb, hm, hfield, ⟨n, hn⟩, -, -⟩
  · exact absurd hr (Finset.notMem_empty r)
  · rw [Finset.mem_inter] at hn
    exact ⟨n, hn.2, b, hb, hm, hn.1, hfield⟩

variable (S s) in
theorem keptBut_flushModels (hclosed : ∀ f g, T f → Triggers reg f g → T g) {fields : List (M × N)}
    (hfields : ∀ f ∈ fields, T f) (popped : Pending M N K) (ms : List M) (hq : ∀ f ∈ s.queue.keys, T f) :
    KeptBut (fun m _ n => T (m, n)) s.db (ms.foldl (Queue.flushModel S reg fields popped) s).db ∧
      ∀ f ∈ (ms.foldl (Queue.flushModel S reg fields popped) s).queue.keys, T f := by
  induction ms generalizing s with
  | nil => exact ⟨.refl s.db, hq⟩
  | cons m ms ih =>
    have hnames : ∀ n ∈ namesOf fields m, T (m, n) := fun n hn => hfields (m, n) (mem_namesOf.mp hn)
    have hstep : KeptBut (fun m _ n => T (m, n)) s.db (Queue.flushModel S reg fields popped s m).db :=
      (keptBut_writeComputed fun n hn => hnames n (List.mem_of_mem_filter hn)).trans
        (keptBut_writeComputed fun n hn => hnames n (List.mem_of_mem_filter hn))
    have hqueue : ∀ f ∈ (Queue.flushModel S reg fields popped s m).queue.keys, T f := by
      intro f hf
      rcases triggers_of_modified hf with hf | ⟨n, hn, htriggers⟩
      · exact hq f hf
      · exact hclosed (m, n) f (hnames n (List.mem_toFinset.mp hn)) htriggers
    obtain ⟨hkept, hkeys⟩ := ih _ hqueue
    exact ⟨hstep.trans hkept, hkeys⟩

/-- **A flush** writes no field outside of what was queued and what that triggers. -/
theorem flush_keptBut (hb : build S = .ok reg) (hclosed : ∀ f g, T f → Triggers reg f g → T g)
    (hstored : ∀ f ∈ q.keys, S.isStored f.1 f.2 = true) (hq : ∀ f ∈ q.keys, T f) (hs : q.flush S reg db = some s) :
    KeptBut (fun m _ n => T (m, n)) db s.db := by
  refine (flushLoop_rule hb (P := fun s => KeptBut (fun m _ n => T (m, n)) db s.db ∧ ∀ f ∈ s.queue.keys, T f)
    (fun s level _ hs => ?_) hs hstored ⟨.refl db, hq⟩).1.1
  obtain ⟨hkept, hkeys⟩ := hs
  obtain ⟨hkept', hkeys'⟩ := keptBut_flushModels S
    { s with queue := s.queue.pop (levelFields reg level s.queue) } hclosed
    (fun f hf => hkeys f (mem_levelFields.mp hf).1) s.queue.rows (firsts ((levelFields reg level s.queue).map Prod.fst))
    fun f hf => hkeys f (List.mem_of_mem_filter hf)
  exact ⟨hkept.trans hkept', hkeys'⟩

omit [DecidableEq K] in
/-- A triggered field is a stored one. -/
theorem Triggers.isStored (hb : build S = .ok reg) {f g : M × N} (h : Triggers reg f g) :
    S.isStored g.1 g.2 = true := by
  obtain ⟨b, hmem, -, -, rfl⟩ := h
  exact build_stored hb hmem

/-! ### Writes of columns -/

omit [DecidableEq M] [DecidableEq N] in
theorem follow_congr (h : ∀ m k, ((db' m).get k).map Row.links = ((db m).get k).map Row.links) (m : M)
    (path : List (Hop M N)) (rows : Finset K) : follow db' m path rows = follow db m path rows := by
  induction path generalizing m rows with
  | nil => rfl
  | cons hop path ih =>
    unfold follow
    rw [funext (next_congr h hop), ih]

omit [DecidableEq M] in
theorem roots_congr (hprimary : S.PrimaryKeys)
    (h : ∀ m k, ((db' m).get k).map Row.links = ((db m).get k).map Row.links) (b : Binding M N) (pks : Finset K) :
    roots S db' b pks none = roots S db b pks none := by
  unfold roots
  split_ifs
  · rfl
  · ext r
    have hend := hprimary.endColumn b.field.1 b.path
    have hrow := congrArg Option.isSome (h b.field.1 r)
    rw [Option.isSome_map, Option.isSome_map] at hrow
    simp only [Schema.mem_lookup_of_endColumn hend, follow_congr h, ← Option.isSome_iff_ne_none, hrow]

/-- A write that moves no row between roots is declared after it only. -/
theorem declareUpdate_of_links (hprimary : S.PrimaryKeys)
    (h : ∀ m k, ((db' m).get k).map Row.links = ((db m).get k).map Row.links) {written : Finset N}
    {p : Pending M N K} {f : M × N} {r : K} (hr : r ∈ declareUpdate S reg db db' m pks written p f) :
    r ∈ modified S reg db' m pks written false p f := by
  refine mem_modified.mpr ((mem_modified.mp hr).elim (fun hr => ?_) .inr)
  split at hr
  · refine (mem_modified.mp hr).imp_right ?_
    rintro ⟨b, hb, hm, hfield, htr, -, hroot⟩
    exact ⟨b, hb, hm, hfield, htr, by simp, by rwa [roots_congr hprimary h]⟩
  · exact .inl hr

end Kept

end Totem.Computed

namespace Totem.Services

open Lib Computed

/-! ## The service -/

/-- What `pk_field.to_python` makes of a value. -/
inductive Coerced (K : Type)
  | pk (k : K)
  | validationError
  | otherError

/-- What `resequence` raises. -/
inductive ResequenceError
  /-- `ServiceValidationMultiError`, with its message on `ids`. -/
  | ids (message : String)
  /-- Whatever `to_python` raises but a `ValidationError`. -/
  | toPython
  /-- The column cannot hold a number. -/
  | dataError
  /-- The refresh does not end. -/
  | endless

/-- A service with a `sequence_field`, a column of its model. -/
structure ResequenceMixin (M N K V User Rel J Raw : Type) [DecidableEq M] [DecidableEq N] where
  schema : Schema M N K V
  registry : Registry M N
  built : build schema = .ok registry
  model : M
  sequenceField : N
  isColumn : ∃ f ∈ schema.fields model, f.name = sequenceField ∧ f.kind = .column
  joins : Computed.Db M N K V → Joins (K × Row N K V) Rel J
  toPython : Raw → Coerced K
  str : K → String
  strRaw : Raw → String
  /-- `Value(number)`, if the column can hold it. -/
  value : ℕ → Option V
  /-- The columns that the `update()` of the model's queryset adds to a write. -/
  stamp : N → Option V

section

variable {M N K V User Rel J Raw : Type} [DecidableEq M] [DecidableEq N] [DecidableEq K]

namespace ResequenceMixin

variable (s : ResequenceMixin M N K V User Rel J Raw)

/-- `coerced` and `invalid`; `none` if `to_python` raises anything else. -/
def coerce : List Raw → Option (List K × List Raw)
  | [] => some ([], [])
  | value :: pks =>
    match s.toPython value with
    | .pk k => (coerce pks).map fun x => (k :: x.1, x.2)
    | .validationError => (coerce pks).map fun x => (x.1, value :: x.2)
    | .otherError => none

/-- The keys of the queryset. -/
def found (env : Environment M User (K × Row N K V) Rel J) (filters : Option (Cond (K × Row N K V) Rel J))
    (pks : List K) (db : Computed.Db M N K V) : Finset K :=
  (db s.model).find fun k row => decide (Selects (s.joins db)
    (scope env s.model "update" filters ++ [.column fun r => decide (r.1 ∈ pks)]) (k, row))

/-- `queryset.update()` with the `Case`: each key has the value of its first `When`. -/
def number (found : Finset K) (pks : List K) (values : List V) (db : Computed.Db M N K V) : Computed.Db M N K V :=
  Function.update db s.model ((db s.model).map fun k row =>
    if k ∈ found then
      { row with
        col := fun n =>
          if n = s.sequenceField then (values[pks.idxOf k]?).getD (row.col n) else (s.stamp n).getD (row.col n) }
    else row)

/-- `_resequence`, in its transaction. -/
def resequenceAtomic (env : Environment M User (K × Row N K V) Rel J)
    (filters : Option (Cond (K × Row N K V) Rel J)) (pks : List K) (invalid : List Raw) (offset : ℕ)
    (db : Computed.Db M N K V) : Except ResequenceError (ℕ × Computed.Db M N K V) :=
  let found := s.found env filters pks db
  let missing := invalid.map s.strRaw ++ (pks.filter fun k => decide (k ∉ found)).map s.str
  if missing ≠ [] then .error (.ids ("Invalid value(s): " ++ ",".intercalate missing))
  else
    match (List.range pks.length).mapM fun index => s.value (offset + index + 1) with
    | none => .error .dataError
    | some values =>
      let db' := s.number found pks values db
      match (Queue.empty.modified s.schema s.registry db' s.model pks.toFinset {s.sequenceField}).flush s.schema
        s.registry db' with
      | none => .error .endless
      | some refreshed => .ok (pks.length, refreshed.db)

/-- `resequence`: the number of records, or what it raises, and the database. -/
def resequence (env : Environment M User (K × Row N K V) Rel J) (pks : List Raw)
    (filters : Option (Cond (K × Row N K V) Rel J)) (offset : ℕ) (db : Computed.Db M N K V) :
    Except ResequenceError ℕ × Computed.Db M N K V :=
  if pks.isEmpty then (.ok 0, db)
  else
    match s.coerce pks with
    | none => (.error .toPython, db)
    | some (coerced, invalid) =>
      let duplicates := (coerced.filter fun k => decide (1 < coerced.count k)).dedup
      if duplicates ≠ [] then
        (.error (.ids ("Repeated value(s): "
          ++ ",".intercalate ((duplicates.map s.str).mergeSort fun a b => decide (a ≤ b)))), db)
      else
        match s.resequenceAtomic env filters coerced invalid offset db with
        | .error e => (.error e, db)
        | .ok (n, db') => (.ok n, db')

/-! ## All or nothing -/

/-- A stored computed field that reads the sequence, or reads one that does. -/
def Reads (f : M × N) : Prop := Relation.TransGen (Triggers s.registry) (s.model, s.sequenceField) f

/-- The records `ks` are in scope, and are numbered in this order. -/
structure Numbered (env : Environment M User (K × Row N K V) Rel J) (filters : Option (Cond (K × Row N K V) Rel J))
    (offset : ℕ) (ks : List K) (db db' : Computed.Db M N K V) : Prop where
  nodup : ks.Nodup
  inScope : ∀ k ∈ ks, ∃ row, (db s.model).get k = some row ∧
    Selects (s.joins db) (scope env s.model "update" filters) (k, row)
  number : ∀ i k, ks[i]? = some k → ∃ row', (db' s.model).get k = some row' ∧
    s.value (offset + i + 1) = some (row'.col s.sequenceField)

variable {s} {env : Environment M User (K × Row N K V) Rel J} {filters : Option (Cond (K × Row N K V) Rel J)}
variable {offset : ℕ} {db db' : Computed.Db M N K V}

omit [DecidableEq K] in
theorem coerce_eq_some {pks : List Raw} {coerced : List K} (h : s.coerce pks = some (coerced, [])) :
    pks.map s.toPython = coerced.map .pk := by
  induction pks generalizing coerced with
  | nil =>
    obtain ⟨rfl, -⟩ := Prod.mk.inj (Option.some.inj h)
    rfl
  | cons value pks ih =>
    unfold coerce at h
    split at h
    · next k hk =>
      obtain ⟨⟨coerced', invalid⟩, hrest, heq⟩ := Option.map_eq_some_iff.mp h
      obtain ⟨rfl, rfl⟩ := Prod.mk.inj heq
      rw [List.map_cons, List.map_cons, hk, ih hrest]
    · obtain ⟨x, -, heq⟩ := Option.map_eq_some_iff.mp h
      cases (Prod.mk.inj heq).2
    · cases h

/-- What an update in its transaction has found, and done. -/
theorem resequenceAtomic_ok {pks : List K} {invalid : List Raw} {n : ℕ}
    (h : s.resequenceAtomic env filters pks invalid offset db = .ok (n, db')) :
    n = pks.length ∧ invalid = [] ∧ (∀ k ∈ pks, k ∈ s.found env filters pks db) ∧
      ∃ values, ((List.range pks.length).mapM fun index => s.value (offset + index + 1)) = some values ∧
        ∃ refreshed, (Queue.empty.modified s.schema s.registry (s.number (s.found env filters pks db) pks values db) s.model
          pks.toFinset {s.sequenceField}).flush s.schema s.registry
            (s.number (s.found env filters pks db) pks values db) = some refreshed ∧ refreshed.db = db' := by
  unfold resequenceAtomic at h
  simp only at h
  split_ifs at h with hmissing
  rw [not_not, List.append_eq_nil_iff, List.map_eq_nil_iff, List.map_eq_nil_iff] at hmissing
  obtain ⟨hinvalid, hfound⟩ := hmissing
  split at h
  · cases h
  · next values hvalues =>
    split at h
    · cases h
    · next refreshed hrefreshed =>
      obtain ⟨rfl, rfl⟩ := Prod.mk.inj (Except.ok.inj h)
      refine ⟨rfl, hinvalid, fun k hk => ?_, values, hvalues, refreshed, hrefreshed, rfl⟩
      simpa using List.filter_eq_nil_iff.mp hfound k hk

variable (s db) in
theorem number_get (found : Finset K) (pks : List K) (values : List V) (m : M) (k : K) :
    (s.number found pks values db m).get k = ((db m).get k).map fun row =>
      if m = s.model ∧ k ∈ found then
        { row with
          col := fun n =>
            if n = s.sequenceField then (values[pks.idxOf k]?).getD (row.col n) else (s.stamp n).getD (row.col n) }
      else row := by
  unfold number
  by_cases hm : m = s.model
  · subst hm
    simp
  · simp [hm]

theorem links_number {found : Finset K} {pks : List K} {values : List V} (m : M) (k : K) :
    ((s.number found pks values db m).get k).map Row.links = ((db m).get k).map Row.links := by
  rw [number_get, Option.map_map]
  congr 1
  funext row
  rw [Function.comp_apply]
  split_ifs <;> rfl

/-- The numbers are on the records found, and nothing else is written. -/
theorem keptBut_number {found : Finset K} {pks : List K} {values : List V} :
    KeptBut (fun m k n => (m = s.model ∧ k ∈ found) ∧ (n = s.sequenceField ∨ s.stamp n ≠ none)) db
      (s.number found pks values db) where
  gone m k hk := by rw [number_get, hk, Option.map_none]
  rows m k row hrow := by
    rw [number_get, hrow, Option.map_some]
    split_ifs with hwritten
    · refine ⟨_, rfl, rfl, rfl, fun n hn => ?_⟩
      have hother : n ≠ s.sequenceField ∧ s.stamp n = none := by
        refine ⟨fun h => hn ⟨hwritten, .inl h⟩, ?_⟩
        by_contra h
        exact hn ⟨hwritten, .inr h⟩
      dsimp only
      rw [if_neg hother.1, hother.2, Option.getD_none]
    · exact ⟨row, rfl, rfl, rfl, fun _ _ => rfl⟩

theorem mem_found {pks : List K} {k : K} : k ∈ s.found env filters pks db ↔ k ∈ pks ∧
    ∃ row, (db s.model).get k = some row ∧ Selects (s.joins db) (scope env s.model "update" filters) (k, row) := by
  have hcolumn : ∀ row : Row N K V, Selects (s.joins db) [.column fun r => decide (r.1 ∈ pks)] (k, row) ↔ k ∈ pks := by
    intro row
    rw [Selects, List.forall_mem_singleton, Cond.hits_ne_nil_iff _ rfl, Cond.somewhere, decide_eq_true_eq]
  simp only [found, Table.mem_find, decide_eq_true_eq, selects_append, hcolumn]
  constructor
  · rintro ⟨row, hrow, hsel, hk⟩
    exact ⟨hk, row, hrow, hsel⟩
  · rintro ⟨hk, row, hrow, hsel⟩
    exact ⟨row, hrow, hsel, hk⟩

omit [DecidableEq K] in
theorem not_stored (s : ResequenceMixin M N K V User Rel J Raw) :
    s.schema.isStored s.model s.sequenceField = false := by
  rw [← Bool.not_eq_true]
  intro h
  obtain ⟨deps, hdeps⟩ := Schema.isStored_iff.mp h
  obtain ⟨g, hg, hgdeps⟩ := List.mem_filterMap.mp hdeps
  obtain ⟨c, hc, hname, hkind⟩ := s.isColumn
  obtain ⟨_, hdepends, heq⟩ := Option.map_eq_some_iff.mp hgdeps
  obtain rfl := Schema.field_unique hc hg (hname.trans (Prod.mk.inj heq).1.symm)
  rw [Field.dependsOn, hkind] at hdepends
  cases hdepends

omit [DecidableEq K] in
/-- The refresh does not write the sequence. -/
theorem not_reads (s : ResequenceMixin M N K V User Rel J Raw) : ¬ s.Reads (s.model, s.sequenceField) := by
  intro h
  obtain ⟨f, -, hf⟩ := Relation.TransGen.tail'_iff.mp h
  have hstored := hf.isStored s.built
  rw [s.not_stored] at hstored
  cases hstored

/-- What is queued once the sequence is written. -/
theorem triggers_of_sequence {pks : List K} {f : M × N}
    (h : f ∈ (Queue.empty.modified s.schema s.registry db s.model pks.toFinset {s.sequenceField}).keys) :
    Triggers s.registry (s.model, s.sequenceField) f := by
  rcases triggers_of_modified h with hf | ⟨n, hn, htriggers⟩
  · cases hf
  · rwa [Finset.mem_singleton.mp hn] at htriggers

/-- The refresh of what reads the sequence. -/
theorem keptBut_refresh {pks : List K} {refreshed : FlushState M N K V}
    (h : (Queue.empty.modified s.schema s.registry db s.model pks.toFinset {s.sequenceField}).flush s.schema
      s.registry db = some refreshed) : KeptBut (fun m _ n => s.Reads (m, n)) db refreshed.db :=
  flush_keptBut (T := s.Reads) s.built (fun _ _ hf hg => hf.tail hg)
    (fun _ hf => (triggers_of_sequence hf).isStored s.built) (fun _ hf => .single (triggers_of_sequence hf)) h

/-- A record found has the number of its position. -/
theorem number_value {found : Finset K} {pks : List K} {values : List V} (hnodup : pks.Nodup)
    (hvalues : ((List.range pks.length).mapM fun index => s.value (offset + index + 1)) = some values)
    {i : ℕ} {k : K} (hi : pks[i]? = some k) (hk : k ∈ found) {row : Row N K V} (hrow : (db s.model).get k = some row) :
    ∃ row', (s.number found pks values db s.model).get k = some row' ∧
      s.value (offset + i + 1) = some (row'.col s.sequenceField) := by
  obtain ⟨hlt, hget⟩ := List.getElem?_eq_some_iff.mp hi
  have hall := mapM_eq_some.mp hvalues
  have hlength : values.length = pks.length := by rw [← hall.length_eq, List.length_range]
  have hindex : pks.idxOf k = i := by rw [← hget, hnodup.idxOf_getElem i hlt]
  have hvalue : values[i]? = some values[i] := List.getElem?_eq_getElem (hlength ▸ hlt)
  have hwritten := number_get s db found pks values s.model k
  rw [hrow, Option.map_some, if_pos ⟨rfl, hk⟩] at hwritten
  have hnumber : s.value (offset + i + 1) = some values[i] := forall₂_getElem? hall (List.getElem?_range hlt) hvalue
  refine ⟨_, hwritten, hnumber.trans ?_⟩
  dsimp only
  rw [if_pos rfl, hindex, hvalue, Option.getD_some]

omit [DecidableEq M] [DecidableEq N] in
theorem nodup_of_no_duplicates {pks : List K} (h : (pks.filter fun k => decide (1 < pks.count k)).dedup = []) :
    pks.Nodup := by
  rw [List.nodup_iff_count_le_one]
  intro k
  by_cases hk : k ∈ pks
  · have hnone := List.filter_eq_nil_iff.mp ((List.dedup_eq_nil _).mp h) k hk
    simpa using hnone
  · simp [List.count_eq_zero.mpr hk]

/-- What a transaction that commits leaves. -/
theorem numbered_of_atomic {pks : List K} {invalid : List Raw} {n : ℕ} (hnodup : pks.Nodup)
    (h : s.resequenceAtomic env filters pks invalid offset db = .ok (n, db')) :
    n = pks.length ∧ invalid = [] ∧ s.Numbered env filters offset pks db db' ∧
      KeptBut (fun m k n => s.Reads (m, n) ∨ (m = s.model ∧ k ∈ pks) ∧ (n = s.sequenceField ∨ s.stamp n ≠ none))
        db db' := by
  obtain ⟨hlength, hinvalid, hfound, values, hvalues, refreshed, hrefreshed, rfl⟩ := resequenceAtomic_ok h
  have hrefresh := keptBut_refresh hrefreshed
  refine ⟨hlength, hinvalid, ⟨hnodup, ?_, ?_⟩, ?_⟩
  · exact fun k hk => (mem_found.mp (hfound k hk)).2
  · intro i k hi
    have hk := hfound k (List.mem_of_getElem? hi)
    obtain ⟨row, hrow, -⟩ := (mem_found.mp hk).2
    obtain ⟨row', hrow', hvalue⟩ := number_value hnodup hvalues hi hk hrow
    obtain ⟨row'', hrow'', -, -, hcol⟩ := hrefresh.rows _ _ _ hrow'
    exact ⟨row'', hrow'', by rw [hcol _ s.not_reads, hvalue]⟩
  · exact (keptBut_number.mono fun m k n h => .inr ⟨⟨h.1.1, (mem_found.mp h.1.2).1⟩, h.2⟩).trans
      (hrefresh.mono fun m k n h => .inl h)

variable (s)

/-- **Resequencing is all or nothing.**  It raises and leaves the database as it was, or the values are the keys of
distinct records the user may update, which are numbered in this order; then no column changes but the sequence of
these records, with what goes with any write of them, and the stored computed fields that read a sequence. -/
theorem resequence_all_or_nothing (env : Environment M User (K × Row N K V) Rel J) (pks : List Raw)
    (filters : Option (Cond (K × Row N K V) Rel J)) (offset : ℕ) (db : Computed.Db M N K V) :
    (∃ e, s.resequence env pks filters offset db = (.error e, db)) ∨
      ∃ ks db', s.resequence env pks filters offset db = (.ok pks.length, db') ∧
        pks.map s.toPython = ks.map .pk ∧ s.Numbered env filters offset ks db db' ∧
        KeptBut (fun m k n => s.Reads (m, n) ∨ (m = s.model ∧ k ∈ ks) ∧ (n = s.sequenceField ∨ s.stamp n ≠ none))
          db db' := by
  unfold resequence
  split_ifs with hempty
  · obtain rfl := List.isEmpty_iff.mp hempty
    refine .inr ⟨[], db, rfl, rfl, ⟨List.nodup_nil, ?_, ?_⟩, .refl db⟩
    · intro k hk
      cases hk
    · intro i k hk
      cases hk
  · split
    · exact .inl ⟨_, rfl⟩
    · next coerced invalid hcoerced =>
      simp only
      split_ifs with hduplicates
      · exact .inl ⟨_, rfl⟩
      · split
        · exact .inl ⟨_, rfl⟩
        · next n db' hatomic =>
          obtain ⟨rfl, rfl, hnumbered, hkept⟩ :=
            numbered_of_atomic (nodup_of_no_duplicates (not_not.mp hduplicates)) hatomic
          have hmap := coerce_eq_some hcoerced
          have hlength : pks.length = coerced.length := by
            rw [← List.length_map (f := s.toPython), hmap, List.length_map]
          exact .inr ⟨coerced, db', by rw [hlength], hmap, hnumbered, hkept⟩

omit [DecidableEq K] in
/-- Where no stored field reads the sequence, every other row is as it was. -/
theorem resequence_unread (hunread : ∀ f, ¬ Triggers s.registry (s.model, s.sequenceField) f) {ks : List K}
    (h : KeptBut (fun m k n => s.Reads (m, n) ∨ (m = s.model ∧ k ∈ ks) ∧ (n = s.sequenceField ∨ s.stamp n ≠ none))
      db db') {m : M} {k : K} (hother : ¬ (m = s.model ∧ k ∈ ks)) : (db' m).get k = (db m).get k := by
  refine h.get_eq fun n hn => ?_
  rcases hn with hreads | hn
  · obtain ⟨f, hf, -⟩ := Relation.TransGen.head'_iff.mp hreads
    exact hunread f hf
  · exact hother hn.1

/-- **The refresh is part of it**: the stored computed fields are right after it if they were before it. -/
theorem resequence_consistent (hread : s.schema.ReadsOnly) (hplain : s.schema.PlainInputs)
    (hprimary : s.schema.PrimaryKeys) (hconditions : ∀ root path f, s.schema.EndsOn root path s.model f →
      s.sequenceField ∈ f.conditions → s.sequenceField ∈ f.names) (hstamp : ∀ n, s.stamp n = none)
    {pks : List Raw} (hc : s.schema.Consistent db) :
    s.schema.Consistent (s.resequence env pks filters offset db).2 := by
  unfold resequence
  split_ifs
  · exact hc
  · split
    · exact hc
    · next coerced invalid _ =>
      simp only
      split_ifs
      · exact hc
      · split
        · exact hc
        · next n db' hatomic =>
          obtain ⟨-, -, -, values, -, refreshed, hrefreshed, rfl⟩ := resequenceAtomic_ok hatomic
          have hupdates : Updates s.schema s.model coerced.toFinset {s.sequenceField} db
              (s.number (s.found env filters coerced db) coerced values db) := by
            refine ⟨fun m hm => Function.update_of_ne hm _ _, fun k hk => by rw [number_get, hk, Option.map_none],
              fun k row hrow => ⟨_, by rw [number_get, hrow, Option.map_some], fun hk => if_neg ?_, ?_⟩⟩
            · exact fun h => hk (List.mem_toFinset.mpr (mem_found.mp h.2).1)
            · split_ifs
              · refine ⟨fun n hn => ?_, fun _ _ _ => rfl, fun _ _ => rfl⟩
                dsimp only
                rw [if_neg fun h => hn (Finset.mem_singleton.mpr h), hstamp, Option.getD_none]
              · exact .refl row
          have hcolumn : s.schema.Writable s.model {s.sequenceField} := by
            intro n hn
            rw [Finset.mem_singleton.mp hn]
            exact s.not_stored
          have hnotices := hupdates.notices hplain fun root path f hends ⟨n, hn, hmem⟩ =>
            ⟨s.sequenceField, Finset.mem_inter.mpr ⟨hconditions root path f hends (Finset.mem_singleton.mp hmem ▸ hn),
              Finset.mem_singleton_self _⟩⟩
          have hbut := (hc.but Pending.empty).update hread hprimary s.built hupdates hnotices hcolumn
            fun _ _ _ _ _ hn => hn
          have hc' : s.schema.ConsistentBut Pending.empty refreshed.db := by
            refine flush_stale hread.stored s.built (.of_plain hplain hprimary _) (fun f hf => ?_) hrefreshed
              (hbut.mono fun f r hr => ?_)
            · exact (triggers_of_sequence hf).isStored s.built
            · rw [Queue.rows_modified]
              exact Finset.mem_union_left _ (declareUpdate_of_links hprimary links_number hr)
          exact fun m n deps hn k row hrow => hc' m n deps hn k row hrow (Finset.notMem_empty k)

variable {s}

/-! ### Over the records of the model -/

/-- The records of the model, as the other queries of the service read them. -/
structure RecordsOf (s : ResequenceMixin M N K V User Rel J Raw) (db : Computed.Db M N K V)
    (store : Store K (K × Row N K V) Rel J) : Prop where
  pk : store.pk = Prod.fst
  joins : store.joins = s.joins db
  table : ∀ k row, (k, row) ∈ store.table ↔ (db s.model).get k = some row

omit [DecidableEq K] in
theorem coerce_of_option {toPython : Raw → Option K} {pks : List Raw}
    (hpython : ∀ value ∈ pks, s.toPython value = (toPython value).elim .validationError .pk) :
    s.coerce pks = some (pks.filterMap toPython, pks.filter fun value => (toPython value).isNone) := by
  induction pks with
  | nil => rfl
  | cons value pks ih =>
    have hvalue := hpython value List.mem_cons_self
    have hrest := ih fun v hv => hpython v (List.mem_cons_of_mem _ hv)
    unfold coerce
    cases hk : toPython value with
    | none =>
      rw [hk, Option.elim_none] at hvalue
      rw [List.filterMap_cons_none hk, List.filter_cons_of_pos (by rw [hk]; rfl), hvalue, hrest]
      rfl
    | some k =>
      rw [hk, Option.elim_some] at hvalue
      rw [List.filterMap_cons_some hk, List.filter_cons_of_neg (by rw [hk]; simp), hvalue, hrest]
      rfl

theorem mem_select_iff_found {store : Store K (K × Row N K V) Rel J} (hstore : s.RecordsOf db store)
    {f : K × Row N K V → Bool} {pks : List K} {k : K} :
    k ∈ (select store.joins store.table (applyAccessRules env s.model "update" ++ [.column f]
      ++ [.column fun r => decide (store.pk r ∈ pks)])).map store.pk ↔
      k ∈ s.found env (some (.column f)) pks db := by
  rw [mem_found, List.mem_map]
  simp only [mem_select, selects_append, selects_column, hstore.pk, hstore.joins, decide_eq_true_eq, scope,
    Option.toList_some]
  constructor
  · rintro ⟨⟨k', row⟩, ⟨hmem, hsel, hk⟩, rfl⟩
    exact ⟨hk, row, (hstore.table k' row).mp hmem, hsel⟩
  · rintro ⟨hk, row, hrow, hsel⟩
    exact ⟨(k, row), ⟨(hstore.table k row).mpr hrow, hsel, hk⟩, rfl⟩

/-- A transaction that finds its records fails for another reason, if it does. -/
theorem resequenceAtomic_ne_ids {pks : List K} {invalid : List Raw}
    (h : invalid.map s.strRaw ++ (pks.filter fun k => decide (k ∉ s.found env filters pks db)).map s.str = [])
    (message : String) : s.resequenceAtomic env filters pks invalid offset db ≠ .error (.ids message) := by
  unfold resequenceAtomic
  rw [if_neg (not_not.mpr h)]
  intro herror
  split at herror
  · cases Except.error.inj herror
  · dsimp only at herror
    split at herror
    · cases Except.error.inj herror
    · cases herror

/-- The numbers that are written are those of the list. -/
theorem numbers_of_atomic {ks : List K} {invalid : List Raw} {n : ℕ} (hnodup : ks.Nodup)
    (h : s.resequenceAtomic env filters ks invalid offset db = .ok (n, db')) :
    n = ks.length ∧ ∀ k number, (k, number) ∈ ks.mapIdx (fun index k => (k, offset + index + 1)) →
      ∃ row', (db' s.model).get k = some row' ∧ s.value number = some (row'.col s.sequenceField) := by
  obtain ⟨hlength, -, hnumbered, -⟩ := numbered_of_atomic hnodup h
  refine ⟨hlength, fun k number hmem => ?_⟩
  obtain ⟨i, hi, heq⟩ := List.mem_mapIdx.mp hmem
  obtain ⟨rfl, rfl⟩ := Prod.mk.inj heq
  exact hnumbered.number i _ (List.getElem?_eq_getElem hi)

/-- The two readings look for the same records. -/
theorem missing_eq {store : Store K (K × Row N K V) Rel J} (hstore : s.RecordsOf db store)
    (f : K × Row N K V → Bool) (ks : List K) :
    (ks.filter fun pk => decide (pk ∉ (select store.joins store.table (applyAccessRules env s.model "update" ++
        [.column f] ++ [.column fun r => decide (store.pk r ∈ ks)])).map store.pk)) =
      ks.filter fun k => decide (k ∉ s.found env (some (.column f)) ks db) :=
  List.filter_congr fun _ _ => decide_eq_decide.mpr (not_congr (mem_select_iff_found hstore))

/-- **The two readings of `resequence`** refuse the same values with the same message, and give the records the same
numbers. -/
theorem resequence_agrees {store : Store K (K × Row N K V) Rel J} (hstore : s.RecordsOf db store)
    {toPython : Raw → Option K} {pks : List Raw}
    (hpython : ∀ value ∈ pks, s.toPython value = (toPython value).elim .validationError .pk)
    (f : K × Row N K V → Bool) :
    (∀ message, Services.resequence store env s.model toPython s.str s.strRaw pks f offset = .error message ↔
      s.resequence env pks (some (.column f)) offset db = (.error (.ids message), db)) ∧
    ∀ n db', s.resequence env pks (some (.column f)) offset db = (.ok n, db') → ∃ numbers,
      Services.resequence store env s.model toPython s.str s.strRaw pks f offset = .ok (n, numbers) ∧
        ∀ k number, (k, number) ∈ numbers → ∃ row', (db' s.model).get k = some row' ∧
          s.value number = some (row'.col s.sequenceField) := by
  unfold resequence Services.resequence
  by_cases hempty : pks.isEmpty = true
  · simp only [if_pos hempty]
    refine ⟨fun message => ⟨fun h => (by cases h), fun h => (by cases (Prod.mk.inj h).1)⟩,
      fun n db' h => ?_⟩
    obtain ⟨hn, rfl⟩ := Prod.mk.inj h
    obtain rfl := Except.ok.inj hn
    exact ⟨[], rfl, fun k number hmem => (List.not_mem_nil hmem).elim⟩
  · simp only [if_neg hempty, coerce_of_option hpython]
    by_cases hduplicates : ((pks.filterMap toPython).filter fun k =>
        decide (1 < (pks.filterMap toPython).count k)).dedup = []
    · simp only [if_neg (not_not.mpr hduplicates)]
      rw [missing_eq hstore]
      by_cases hnone : (pks.filter fun value => (toPython value).isNone).map s.strRaw ++
          ((pks.filterMap toPython).filter fun k =>
            decide (k ∉ s.found env (some (.column f)) (pks.filterMap toPython) db)).map s.str = []
      · rw [if_neg (not_not.mpr hnone)]
        refine ⟨fun message => ⟨fun h => (by cases h), fun h => ?_⟩, fun n db' h => ?_⟩
        · cases hatomic : s.resequenceAtomic env (some (.column f)) (pks.filterMap toPython)
              (pks.filter fun value => (toPython value).isNone) offset db with
          | ok x =>
            rw [hatomic] at h
            cases (Prod.mk.inj h).1
          | error e =>
            rw [hatomic] at h
            obtain rfl := Except.error.inj (Prod.mk.inj h).1
            exact absurd hatomic (resequenceAtomic_ne_ids hnone message)
        · cases hatomic : s.resequenceAtomic env (some (.column f)) (pks.filterMap toPython)
              (pks.filter fun value => (toPython value).isNone) offset db with
          | error e =>
            rw [hatomic] at h
            cases (Prod.mk.inj h).1
          | ok x =>
            obtain ⟨n', db''⟩ := x
            rw [hatomic] at h
            obtain ⟨hn, rfl⟩ := Prod.mk.inj h
            obtain rfl := Except.ok.inj hn
            obtain ⟨rfl, hnumbers⟩ := numbers_of_atomic (nodup_of_no_duplicates hduplicates) hatomic
            exact ⟨_, rfl, hnumbers⟩
      · have hatomic : s.resequenceAtomic env (some (.column f)) (pks.filterMap toPython)
            (pks.filter fun value => (toPython value).isNone) offset db = .error (.ids _) := if_pos hnone
        rw [if_pos hnone, hatomic]
        refine ⟨fun message => ⟨fun h => ?_, fun h => ?_⟩, fun n db' h => by cases (Prod.mk.inj h).1⟩
        · rw [Except.error.inj h]
        · rw [ResequenceError.ids.inj (Except.error.inj (Prod.mk.inj h).1)]
    · simp only [if_pos hduplicates]
      refine ⟨fun message => ⟨fun h => ?_, fun h => ?_⟩, fun n db' h => by cases (Prod.mk.inj h).1⟩
      · rw [Except.error.inj h]
      · rw [ResequenceError.ids.inj (Except.error.inj (Prod.mk.inj h).1)]

end ResequenceMixin

end

/-! ### The lines of an order, which copy its total -/

section Sample

/-- The lines, numbered by the column that the total of their order adds up. -/
def lineService : ResequenceMixin Shop String ℕ ℤ Unit Unit Unit ℕ where
  schema := shop
  registry := (build shop).toOption.get rfl
  built := rfl
  model := .line
  sequenceField := "amount"
  isColumn := ⟨⟨"amount", .column⟩, List.mem_cons_of_mem _ (List.mem_cons_self ..), rfl, rfl⟩
  joins _ := ⟨fun _ _ => [()], fun _ => rfl⟩
  toPython := .pk
  str := toString
  strRaw := toString
  value n := some n
  stamp _ := none

/-- Two lines of the order 1. -/
def linesDb : Computed.Db Shop String ℕ ℤ
  | .order => Table.empty.insert 1 ⟨fun n => if n = "total" then 12 else 0, fun _ => none, fun _ => ∅⟩
  | .line => (Table.empty.insert 10 (shopLine 1 5)).insert 11 (shopLine 1 7)

/-- **A row that is not listed may change**: numbering the line 10 changes what the line 11 has of the total. -/
theorem resequence_changes_others :
    ¬ ∀ (s : ResequenceMixin Shop String ℕ ℤ Unit Unit Unit ℕ)
      (env : Environment Shop Unit (ℕ × Row String ℕ ℤ) Unit Unit) (pks : List ℕ)
      (filters : Option (Cond (ℕ × Row String ℕ ℤ) Unit Unit)) (offset : ℕ) (db : Computed.Db Shop String ℕ ℤ),
      (∃ e, s.resequence env pks filters offset db = (.error e, db)) ∨
        ∃ ks db', s.resequence env pks filters offset db = (.ok pks.length, db') ∧
          pks.map s.toPython = ks.map .pk ∧ s.Numbered env filters offset ks db db' ∧
          ∀ m k, ¬ (m = s.model ∧ k ∈ ks) → (db' m).get k = (db m).get k := by
  intro h
  have hrun : ((lineService.resequence ⟨[], none, []⟩ [10] none 0 linesDb).1.toOption,
      ((lineService.resequence ⟨[], none, []⟩ [10] none 0 linesDb).2 .line).get 11 |>.map fun row =>
        row.col "order_total") = (some 1, some 8) := by decide +kernel
  obtain ⟨hone, htotal⟩ := Prod.mk.inj hrun
  rcases h lineService ⟨[], none, []⟩ [10] none 0 linesDb with ⟨e, he⟩ | ⟨ks, db', hok, hks, -, hothers⟩
  · rw [he] at hone
    cases hone
  · obtain rfl : ks = [10] := by
      match ks, hks with
      | [k], hks => rw [Coerced.pk.inj (List.head_eq_of_cons_eq hks)]
    have hkept := hothers .line 11 (by simp)
    rw [hok, hkept] at htotal
    revert htotal
    decide

end Sample

end Totem.Services
