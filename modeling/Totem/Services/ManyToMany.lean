import Mathlib.Data.List.Count
import Mathlib.Data.List.Dedup
import Totem.Lib.Fallible
import Totem.Lib.LinkTable
import Totem.Services.InternalValues

/-!
# Totem.Services.ManyToMany — the many-to-many relations written by `create` and `update`

`UpdateMixin._update_atomic` writes the rows of the `through` tables itself, for all the records of the update
together; `CreateMixin._create_atomic` goes through django's manager.

* `sets_of_updateRelation`: an update that is not refused sets the relation.
* `updateRelation_isSome_iff`: when an update is refused.
* `addRelation_isSome_iff`, `related_addRelation`: the relations of a new record.
* `update_sets_relations_iff`: when an update sets the relations, as a creation does.
-/

namespace Totem.Services

open Lib

variable {Src Dst K : Type} [DecidableEq Src] [DecidableEq Dst] {group : Dst → K}

/-! ## One relation -/

section

variable [DecidableEq K] (t : LinkTable Src group) (pks : List Src) (values : List Dst)

/-- `existing_objs_map`: the ids of the rows of the records of the update, by pair. -/
def existingObjsMap : Dict (Src × Dst) ℕ :=
  (t.rows.filter fun row => decide (row.src ∈ pks)).foldl (fun d row => d.set (row.src, row.dst) row.id) .empty

def relationsToCreate (existing : Dict (Src × Dst) ℕ) : List (Src × Dst) :=
  pks.flatMap fun pk => (values.map fun value => (pk, value)).filter fun pair => (existing.get pair).isNone

def pksToKeep (existing : Dict (Src × Dst) ℕ) : List ℕ :=
  pks.flatMap fun pk => values.filterMap fun value => existing.get (pk, value)

/-- One turn of the loop over the many-to-many fields of an update; `none` is a `DatabaseError`. -/
def updateRelation : Option (LinkTable Src group) :=
  let existing := existingObjsMap t pks
  let keep := pksToKeep pks values existing
  let pksToRemove := (existing.entries.map Prod.snd).filter fun id => decide (id ∉ keep)
  (t.remove pksToRemove).insert (relationsToCreate pks values existing)

/-- `getattr(instance, field_name).add(*value)`, if there are values: the manager takes them as a set. -/
def addRelation (src : Src) : Option (LinkTable Src group) :=
  if values = [] then some t
  else t.insert ((values.dedup.filter fun value => decide (¬ t.Related src value)).map fun value => (src, value))

end

/-- After the update, each record is related to the designated ones, the rows that were there are kept, and the
other records are left alone. -/
structure SetsRelation (before : LinkTable Src group) (pks : List Src) (designated : Dst → Prop)
    (after : LinkTable Src group) : Prop where
  related : ∀ pk ∈ pks, ∀ dst, after.Related pk dst ↔ designated dst
  kept : ∀ row ∈ before.rows, row.src ∈ pks → designated row.dst → row ∈ after.rows
  frame : ∀ row : Link Src Dst, row.src ∉ pks → (row ∈ after.rows ↔ row ∈ before.rows)

section

variable {t t' : LinkTable Src group} {pks : List Src} {values : List Dst} {src pk : Src} {dst : Dst} {id : ℕ}

theorem entries_existingObjsMap : (existingObjsMap t pks).entries =
    (t.rows.filter fun row => decide (row.src ∈ pks)).map fun row => ((row.src, row.dst), row.id) := by
  have hnodup : ((t.rows.filter fun row => decide (row.src ∈ pks)).map fun row => (row.src, row.dst)).Nodup :=
    LinkTable.pairs_nodup.sublist (List.filter_sublist.map _)
  have hentries := Dict.entries_foldl_keys (fun row : Link Src Dst => (row.src, row.dst)) (fun row => some row.id) _
    hnodup
  exact hentries.trans (congrFun List.filterMap_eq_map _)

theorem get_existingObjsMap :
    (existingObjsMap t pks).get (src, dst) = some id ↔ (⟨id, src, dst⟩ : Link Src Dst) ∈ t.rows ∧ src ∈ pks := by
  rw [← Dict.mem_entries, entries_existingObjsMap, List.mem_map]
  simp only [List.mem_filter, decide_eq_true_iff]
  constructor
  · rintro ⟨row, ⟨hrow, hsrc⟩, heq⟩
    obtain ⟨⟨rfl, rfl⟩, rfl⟩ : (row.src = src ∧ row.dst = dst) ∧ row.id = id := by simpa using heq
    exact ⟨hrow, hsrc⟩
  · rintro ⟨hrow, hsrc⟩
    exact ⟨_, ⟨hrow, hsrc⟩, rfl⟩

theorem get_existingObjsMap_eq_none (hpk : pk ∈ pks) :
    (existingObjsMap t pks).get (pk, dst) = none ↔ ¬ t.Related pk dst := by
  rw [Option.eq_none_iff_forall_ne_some]
  constructor
  · rintro h ⟨row, hrow, rfl, rfl⟩
    exact h row.id (get_existingObjsMap.mpr ⟨hrow, hpk⟩)
  · intro h id hid
    exact h ⟨_, (get_existingObjsMap.mp hid).1, rfl, rfl⟩

theorem mem_relationsToCreate : (pk, dst) ∈ relationsToCreate pks values (existingObjsMap t pks) ↔
    pk ∈ pks ∧ dst ∈ values ∧ ¬ t.Related pk dst := by
  unfold relationsToCreate
  simp only [List.mem_flatMap, List.mem_filter, List.mem_map, Prod.mk.injEq, Option.isNone_iff_eq_none]
  constructor
  · rintro ⟨_, hpk, ⟨_, hdst, rfl, rfl⟩, hnone⟩
    exact ⟨hpk, hdst, (get_existingObjsMap_eq_none hpk).mp hnone⟩
  · rintro ⟨hpk, hdst, hnot⟩
    exact ⟨pk, hpk, ⟨dst, hdst, rfl, rfl⟩, (get_existingObjsMap_eq_none hpk).mpr hnot⟩

/-- A row stays unless it is of a record of the update and of another target. -/
theorem mem_rows_keep {row : Link Src Dst} :
    row ∈ (t.remove (((existingObjsMap t pks).entries.map Prod.snd).filter fun id =>
        decide (id ∉ pksToKeep pks values (existingObjsMap t pks)))).rows ↔
      row ∈ t.rows ∧ (row.src ∈ pks → row.dst ∈ values) := by
  have hentry : ∀ other ∈ t.rows, other.id = row.id → row ∈ t.rows → other = row := fun other hother hid hrow =>
    List.inj_on_of_nodup_map t.id_nodup hother hrow hid
  have hold : row ∈ t.rows →
      (row.id ∈ (existingObjsMap t pks).entries.map Prod.snd ↔ row.src ∈ pks) := by
    intro hrow
    rw [entries_existingObjsMap, List.map_map, List.mem_map]
    simp only [List.mem_filter, decide_eq_true_iff]
    constructor
    · rintro ⟨other, ⟨hother, hsrc⟩, hid⟩
      exact hentry other hother hid hrow ▸ hsrc
    · exact fun hsrc => ⟨row, ⟨hrow, hsrc⟩, rfl⟩
  have hkeep : row ∈ t.rows → row.src ∈ pks →
      (row.id ∈ pksToKeep pks values (existingObjsMap t pks) ↔ row.dst ∈ values) := by
    intro hrow hsrc
    unfold pksToKeep
    simp only [List.mem_flatMap, List.mem_filterMap, get_existingObjsMap]
    constructor
    · rintro ⟨pk, -, value, hvalue, hother, -⟩
      exact hentry _ hother rfl hrow ▸ hvalue
    · exact fun hdst => ⟨row.src, hsrc, row.dst, hdst, hrow, hsrc⟩
  rw [LinkTable.mem_rows_remove, List.mem_filter, decide_eq_true_iff]
  refine and_congr_right fun hrow => ?_
  rw [hold hrow, not_and, not_not]
  exact forall_congr' fun hsrc => hkeep hrow hsrc

/-- No two of the targets are in one group. -/
def Compatible (group : Dst → K) (designated : Dst → Prop) : Prop :=
  ∀ dst dst', designated dst → designated dst' → group dst = group dst' → dst = dst'

/-- Each pair that is not there yet is asked for once. -/
def CreatesOnce (t : LinkTable Src group) (pks : List Src) (values : List Dst) : Prop :=
  ∀ pk ∈ pks, ∀ dst ∈ values, ¬ t.Related pk dst → pks.count pk = 1 ∧ values.count dst = 1

variable (pks values) in
theorem count_relationsToCreate (existing : Dict (Src × Dst) ℕ) (hnone : existing.get (pk, dst) = none) :
    (relationsToCreate pks values existing).count (pk, dst) = pks.count pk * values.count dst := by
  have hone : ∀ p : Src,
      ((values.map fun value => (p, value)).filter fun pair => (existing.get pair).isNone).count (pk, dst) =
      if p = pk then values.count dst else 0 := by
    intro p
    split_ifs with hp
    · subst hp
      rw [List.count_filter (by rw [hnone]; rfl)]
      exact List.count_map_of_injective values (fun value => (p, value)) (fun _ _ heq => (Prod.mk.inj heq).2) dst
    · refine List.count_eq_zero.mpr fun hmem => ?_
      obtain ⟨value, -, heq⟩ := List.mem_map.mp (List.mem_filter.mp hmem).1
      exact hp (Prod.mk.inj heq).1
  unfold relationsToCreate
  induction pks with
  | nil => simp
  | cons p pks ih =>
    rw [List.flatMap_cons, List.count_append, hone, ih, List.count_cons]
    split_ifs with hp hbeq hbeq
    · rw [Nat.add_mul, Nat.one_mul, Nat.add_comm]
    · exact absurd (beq_iff_eq.mpr hp) hbeq
    · exact absurd (beq_iff_eq.mp hbeq) hp
    · rw [Nat.zero_add, Nat.add_zero]

theorem relationsToCreate_nodup :
    (relationsToCreate pks values (existingObjsMap t pks)).Nodup ↔ CreatesOnce t pks values := by
  rw [List.nodup_iff_count_le_one]
  constructor
  · intro h pk hpk dst hdst hnot
    have hcount := h (pk, dst)
    rw [count_relationsToCreate pks values _ ((get_existingObjsMap_eq_none hpk).mpr hnot)] at hcount
    have hpos : 0 < pks.count pk := List.count_pos_iff.mpr hpk
    have hpos' : 0 < values.count dst := List.count_pos_iff.mpr hdst
    have hle : pks.count pk ≤ pks.count pk * values.count dst := Nat.le_mul_of_pos_right _ hpos'
    have hle' : values.count dst ≤ pks.count pk * values.count dst := Nat.le_mul_of_pos_left _ hpos
    omega
  · rintro h ⟨pk, dst⟩
    by_cases hmem : (pk, dst) ∈ relationsToCreate pks values (existingObjsMap t pks)
    · obtain ⟨hpk, hdst, hnot⟩ := mem_relationsToCreate.mp hmem
      obtain ⟨hone, hone'⟩ := h pk hpk dst hdst hnot
      have hcount := count_relationsToCreate pks values _ ((get_existingObjsMap_eq_none hpk).mpr hnot)
      rw [hone, hone', Nat.one_mul] at hcount
      exact Nat.le_of_eq hcount
    · rw [List.count_eq_zero.mpr hmem]
      exact Nat.zero_le 1

variable [DecidableEq K]

/-- **An update sets the relation**, if it is not refused. -/
theorem sets_of_updateRelation (h : updateRelation t pks values = some t') : SetsRelation t pks (· ∈ values) t' := by
  constructor
  · intro pk hpk dst
    rw [LinkTable.related_insert h, mem_relationsToCreate]
    unfold LinkTable.Related
    simp only [mem_rows_keep]
    constructor
    · rintro (⟨row, ⟨-, hdst⟩, rfl, rfl⟩ | ⟨-, hdst, -⟩)
      · exact hdst hpk
      · exact hdst
    · intro hdst
      by_cases hrelated : t.Related pk dst
      · obtain ⟨row, hrow, rfl, rfl⟩ := hrelated
        exact .inl ⟨row, ⟨hrow, fun _ => hdst⟩, rfl, rfl⟩
      · exact .inr ⟨hpk, hdst, hrelated⟩
  · intro row hrow _ hdst
    exact (LinkTable.mem_rows_of_insert h).mpr (.inl (mem_rows_keep.mpr ⟨hrow, fun _ => hdst⟩))
  · intro row hsrc
    rw [LinkTable.mem_rows_of_insert h, mem_rows_keep]
    constructor
    · rintro (⟨hrow, -⟩ | hnew)
      · exact hrow
      · exact absurd (mem_relationsToCreate.mp (mem_links hnew).2.2).1 hsrc
    · exact fun hrow => .inl ⟨hrow, fun hpk => absurd hpk hsrc⟩

/-! ## When an update is refused -/

/-- **When an update is not refused**: the targets fit together, and no new pair is asked for twice. -/
theorem updateRelation_isSome_iff (hpks : pks ≠ []) : (updateRelation t pks values).isSome = true ↔
    Compatible group (· ∈ values) ∧ CreatesOnce t pks values := by
  constructor
  · intro hsome
    obtain ⟨t', ht'⟩ := Option.isSome_iff_exists.mp hsome
    obtain ⟨pk, hpk⟩ := List.exists_mem_of_ne_nil pks hpks
    have hsets := sets_of_updateRelation ht'
    have hfits := LinkTable.insert_isSome_iff.mp hsome
    refine ⟨fun dst dst' hdst hdst' hgroup => ?_, relationsToCreate_nodup.mp ?_⟩
    · exact ((hsets.related pk hpk dst).mpr hdst).eq ((hsets.related pk hpk dst').mpr hdst') hgroup
    · exact List.Nodup.of_map _ (List.nodup_append.mp hfits).2.1
  · rintro ⟨hcompatible, hcreates⟩
    refine LinkTable.insert_isSome_iff.mpr ?_
    unfold LinkTable.Fits
    refine List.Nodup.append (LinkTable.unique _) ?_ ?_
    · refine List.Nodup.map_on ?_ (relationsToCreate_nodup.mpr hcreates)
      rintro ⟨pk, dst⟩ hpair ⟨pk', dst'⟩ hpair' heq
      obtain ⟨-, hdst, -⟩ := mem_relationsToCreate.mp hpair
      obtain ⟨-, hdst', -⟩ := mem_relationsToCreate.mp hpair'
      obtain ⟨hpk, hgroup⟩ := Prod.mk.inj heq
      exact Prod.ext hpk (hcompatible dst dst' hdst hdst' hgroup)
    · -- a row that stays is of another record, or of a target in a group of its own
      intro key hold hnew
      obtain ⟨row, hrow, rfl⟩ := List.mem_map.mp hold
      obtain ⟨⟨pk, dst⟩, hpair, heq⟩ := List.mem_map.mp hnew
      obtain ⟨hpk, hdst, hnot⟩ := mem_relationsToCreate.mp hpair
      obtain ⟨hrow, hstays⟩ := mem_rows_keep.mp hrow
      obtain ⟨rfl, hgroup⟩ := Prod.mk.inj heq
      obtain rfl := hcompatible dst row.dst hdst (hstays hpk) hgroup
      exact hnot ⟨row, hrow, rfl, rfl⟩

/-! ## The relations of a new record -/

/-- Of a new record no pair is there yet. -/
theorem addRelation_eq (hnew : ∀ dst, ¬ t.Related src dst) (hvalues : values ≠ []) :
    addRelation t values src = t.insert (values.dedup.map fun value => (src, value)) := by
  have hfilter : (values.dedup.filter fun value => decide (¬ t.Related src value)) = values.dedup :=
    List.filter_eq_self.mpr fun value _ => decide_eq_true (hnew value)
  unfold addRelation
  rw [if_neg hvalues, hfilter]

/-- **The manager refuses** targets that do not fit together, and only these. -/
theorem addRelation_isSome_iff (hnew : ∀ dst, ¬ t.Related src dst) :
    (addRelation t values src).isSome = true ↔ Compatible group (· ∈ values) := by
  by_cases hvalues : values = []
  · subst hvalues
    exact ⟨fun _ => nofun, fun _ => rfl⟩
  rw [addRelation_eq hnew hvalues, LinkTable.insert_isSome_iff]
  unfold LinkTable.Fits
  rw [List.map_map, List.nodup_append']
  constructor
  · rintro ⟨-, hnodup, -⟩ dst dst' hdst hdst' hgroup
    exact List.inj_on_of_nodup_map hnodup (List.mem_dedup.mpr hdst) (List.mem_dedup.mpr hdst') (Prod.ext rfl hgroup)
  · intro hcompatible
    refine ⟨t.unique, List.Nodup.map_on ?_ (List.nodup_dedup values), ?_⟩
    · intro dst hdst dst' hdst' heq
      exact hcompatible dst dst' (List.mem_dedup.mp hdst) (List.mem_dedup.mp hdst') (Prod.mk.inj heq).2
    · intro key hold hadded
      obtain ⟨row, hrow, rfl⟩ := List.mem_map.mp hold
      obtain ⟨dst, -, heq⟩ := List.mem_map.mp hadded
      exact hnew row.dst ⟨row, hrow, (Prod.mk.inj heq).1.symm, rfl⟩

theorem related_addRelation (hnew : ∀ dst, ¬ t.Related src dst) (h : addRelation t values src = some t') :
    t'.Related src dst ↔ dst ∈ values := by
  by_cases hvalues : values = []
  · subst hvalues
    obtain rfl := Option.some.inj h
    exact ⟨fun hrelated => absurd hrelated (hnew dst), nofun⟩
  · rw [addRelation_eq hnew hvalues] at h
    rw [LinkTable.related_insert h, or_iff_right (hnew dst)]
    simp

end

/-! ## All the relations of a request -/

/-- The many-to-many fields of a model, by name. -/
structure ManyToManyFields where
  names : List String
  nodup : names.Nodup

variable {Model User Pk R Rel J Raw V : Type} {K : String → Type} {group : ∀ name, Pk → K name}

/-- The `through` tables of the fields of a model. -/
abbrev ThroughTables (Src : Type) {Pk : Type} {K : String → Type} (group : ∀ name, Pk → K name) :=
  ∀ name, LinkTable Src (group name)

/-- The keys of the records of a many-to-many field. -/
def Internal.pks (pk : R → Pk) : Internal R V → Option (List Pk)
  | .records rs => some (rs.map pk)
  | _ => none

/-- `many_to_many`: the many-to-many fields of a row, with the keys of their records. -/
def manyToMany (related : String → Related Model User Pk R Rel J Raw) (fields : ManyToManyFields)
    (row : Dict String (Internal R V)) : List (String × List Pk) :=
  fields.names.filterMap fun name =>
    ((row.get name).bind (Internal.pks (related name).store.pk)).map fun values => (name, values)

section

variable (write : ∀ name, LinkTable Src (group name) → List Pk → Option (LinkTable Src (group name)))

/-- Each field is written to its table; the first refusal refuses the whole request. -/
def writeEach (tables : ThroughTables Src group) : List (String × List Pk) → Option (ThroughTables Src group)
  | [] => some tables
  | (name, values) :: rest =>
      (write name (tables name) values).bind fun t => writeEach (Function.update tables name t) rest

variable {write} {tables after : ThroughTables Src group}

omit [DecidableEq Src] in
theorem writeEach_isSome_iff {values : List (String × List Pk)} (hnodup : (values.map Prod.fst).Nodup) :
    (writeEach write tables values).isSome = true ↔ ∀ e ∈ values, (write e.1 (tables e.1) e.2).isSome = true := by
  induction values generalizing tables with
  | nil => exact ⟨fun _ => nofun, fun _ => rfl⟩
  | cons e rest ih =>
    rw [List.map_cons, List.nodup_cons] at hnodup
    have hother : ∀ t, ∀ e' ∈ rest, Function.update tables e.1 t e'.1 = tables e'.1 := by
      intro t e' he'
      have hne : e'.1 ≠ e.1 := fun heq => hnodup.1 (heq ▸ List.mem_map_of_mem he')
      exact Function.update_of_ne hne _ _
    unfold writeEach
    rw [List.forall_mem_cons]
    cases hwrite : write e.1 (tables e.1) e.2 with
    | none => simp
    | some t =>
      rw [Option.bind_some, ih hnodup.2]
      simp only [Option.isSome_some, true_and]
      exact forall₂_congr fun e' he' => by rw [hother t e' he']

omit [DecidableEq Src] in
theorem writeEach_eq_some {values : List (String × List Pk)} (hnodup : (values.map Prod.fst).Nodup)
    (h : writeEach write tables values = some after) :
    (∀ e ∈ values, write e.1 (tables e.1) e.2 = some (after e.1)) ∧
      ∀ name, name ∉ values.map Prod.fst → after name = tables name := by
  induction values generalizing tables with
  | nil =>
    obtain rfl := Option.some.inj h
    exact ⟨nofun, fun _ _ => rfl⟩
  | cons e rest ih =>
    rw [List.map_cons, List.nodup_cons] at hnodup
    obtain ⟨t, ht, hrest⟩ := Option.bind_eq_some_iff.mp h
    obtain ⟨hwritten, hframe⟩ := ih hnodup.2 hrest
    constructor
    · intro e' he'
      rcases List.mem_cons.mp he' with rfl | he'
      · rw [hframe _ hnodup.1, Function.update_self]
        exact ht
      · have hne : e'.1 ≠ e.1 := fun heq => hnodup.1 (heq ▸ List.mem_map_of_mem he')
        have hwrite := hwritten e' he'
        rw [Function.update_of_ne hne] at hwrite
        exact hwrite
    · intro name hname
      rw [List.map_cons, List.mem_cons, not_or] at hname
      rw [hframe name hname.2, Function.update_of_ne hname.1]

end

section

variable [DecidableEq Pk] [∀ name, DecidableEq (K name)] (related : String → Related Model User Pk R Rel J Raw)
  (fields : ManyToManyFields) (tables : ThroughTables Src group)

/-- The many-to-many part of `_update_atomic`, for the records of `pks`. -/
def updateRelations (pks : List Src) (row : Dict String (Internal R V)) : Option (ThroughTables Src group) :=
  if pks = [] then some tables
  else writeEach (fun _ t values => updateRelation t pks values) tables (manyToMany related fields row)

/-- The many-to-many part of `_create_atomic`, for one record. -/
def createRelations (src : Src) (row : Dict String (Internal R V)) : Option (ThroughTables Src group) :=
  writeEach (fun _ t values => addRelation t values src) tables (manyToMany related fields row)

end

/-! ## What a request designates -/

section

variable (env : Environment Model User R Rel J) (related : String → Related Model User Pk R Rel J Raw)
  (item : Item Raw V) (name : String)

/-- A many-to-many field is given. -/
def Given : Prop := ∃ values, item.get name = some (.keys values)

/-- A value of a many-to-many field designates the record of the key. -/
def DesignatedPk [DecidableEq Model] (dst : Pk) : Prop :=
  ∃ values, item.get name = some (.keys values) ∧
    ∃ value ∈ values.getD [], ∃ r, Designates env related name value r ∧ (related name).store.pk r = dst

/-- The keys given for a many-to-many field, one for each value. -/
def givenPks : List Pk :=
  match item.get name with
  | some (.keys values) => (values.getD []).filterMap (related name).toPython
  | _ => []

variable {env related item name} [DecidableEq Model] {row : Dict String (Internal R V)}

theorem map_pk_of_designates {values : List Raw} {rs : List R}
    (h : List.Forall₂ (Designates env related name) values rs) :
    rs.map (related name).store.pk = values.filterMap (related name).toPython := by
  induction h with
  | nil => rfl
  | cons hhead _ ih => rw [List.filterMap_cons, hhead.2, List.map_cons, ih]

/-- A many-to-many field that is given, in internal form, or one that is not. -/
theorem given_or_not (h : Option.Rel (Replaces env related name) (item.get name) (row.get name)) :
    (∃ values rs, item.get name = some (.keys values) ∧ row.get name = some (.records rs) ∧
      List.Forall₂ (Designates env related name) (values.getD []) rs) ∨
    (¬ Given item name ∧ (row.get name).bind (Internal.pks (related name).store.pk) = none) := by
  unfold Given
  generalize item.get name = given at h
  generalize row.get name = converted at h
  cases h with
  | none => exact .inr ⟨nofun, rfl⟩
  | @some input w hreplaces =>
    cases input with
    | keys values =>
      cases w with
      | records rs => exact .inl ⟨values, rs, rfl, rfl, hreplaces⟩
      | _ => exact hreplaces.elim
    | plain v =>
      cases w with
      | records rs => exact hreplaces.elim
      | _ => exact .inr ⟨nofun, rfl⟩
    | key value =>
      cases w with
      | records rs => cases value <;> exact hreplaces.elim
      | _ => exact .inr ⟨nofun, rfl⟩

/-- The keys of a field that is given are those of its values. -/
theorem pks_of_given (h : Option.Rel (Replaces env related name) (item.get name) (row.get name))
    (hgiven : Given item name) :
    (row.get name).bind (Internal.pks (related name).store.pk) = some (givenPks related item name) := by
  rcases given_or_not h with ⟨values, rs, hitem, hrow, hall⟩ | ⟨hnot, -⟩
  · unfold givenPks
    rw [hitem, hrow]
    exact congrArg some (map_pk_of_designates hall)
  · exact absurd hgiven hnot

theorem mem_givenPks {dst : Pk} (h : Option.Rel (Replaces env related name) (item.get name) (row.get name)) :
    dst ∈ givenPks related item name ↔ DesignatedPk env related item name dst := by
  unfold DesignatedPk
  rcases given_or_not h with ⟨values, rs, hitem, -, hall⟩ | ⟨hnot, -⟩
  · have hpks : givenPks related item name = (values.getD []).filterMap (related name).toPython := by
      unfold givenPks
      rw [hitem]
    rw [hpks, List.mem_filterMap]
    simp only [hitem, Option.some.injEq, Input.keys.injEq, exists_eq_left']
    refine exists_congr fun value => and_congr_right fun hvalue => ?_
    obtain ⟨r, -, hr⟩ := forall₂_left hall value hvalue
    constructor
    · intro hpk
      exact ⟨r, hr, Option.some.inj (hr.2.symm.trans hpk)⟩
    · rintro ⟨s, hs, rfl⟩
      exact hs.2
  · constructor
    · intro hdst
      unfold givenPks at hdst
      split at hdst
      · exact absurd ⟨_, by assumption⟩ hnot
      · cases hdst
    · rintro ⟨values, hitem, -⟩
      exact absurd ⟨values, hitem⟩ hnot

end

/-! ## When an update sets the relations -/

/-- The records an item designates for a field fit together in its `through` table. -/
def Fitting [DecidableEq Model] (env : Environment Model User R Rel J)
    (related : String → Related Model User Pk R Rel J Raw) (group : ∀ name, Pk → K name) (fields : ManyToManyFields)
    (item : Item Raw V) : Prop :=
  ∀ name ∈ fields.names, Compatible (group name) (DesignatedPk env related item name)

/-- An update sets the relations of its records to those an item designates, a creation gives them to a new record;
both refuse records that the `through` table keeps apart. -/
structure SetsRelations [DecidableEq Model] [DecidableEq Pk] [∀ name, DecidableEq (K name)]
    (env : Environment Model User R Rel J) (related : String → Related Model User Pk R Rel J Raw)
    (fields : ManyToManyFields) (tables : ThroughTables Src group) (pks : List Src) (item : Item Raw V)
    (row : Dict String (Internal R V)) : Prop where
  update : Fitting env related group fields item → ∃ after, updateRelations related fields tables pks row = some after ∧
    ∀ name ∈ fields.names,
      (Given item name → SetsRelation (tables name) pks (DesignatedPk env related item name) (after name)) ∧
        (¬ Given item name → after name = tables name)
  refused : ¬ Fitting env related group fields item → pks ≠ [] → updateRelations related fields tables pks row = none
  create : ∀ src, (∀ name ∈ fields.names, ∀ dst, ¬ (tables name).Related src dst) →
    (Fitting env related group fields item → ∃ created, createRelations related fields tables src row = some created ∧
      ∀ name ∈ fields.names, ∀ dst, (created name).Related src dst ↔ DesignatedPk env related item name dst) ∧
    (¬ Fitting env related group fields item → createRelations related fields tables src row = none)

section

variable [DecidableEq Model] [DecidableEq Pk] [∀ name, DecidableEq (K name)]
variable {env : Environment Model User R Rel J} {related : String → Related Model User Pk R Rel J Raw}
  {fields : ManyToManyFields} {tables after : ThroughTables Src group} {pks : List Src} {item : Item Raw V}
  {row : Dict String (Internal R V)}

omit [DecidableEq Model] [DecidableEq Pk] in
theorem manyToMany_nodup : ((manyToMany related fields row).map Prod.fst).Nodup := by
  have hkeys := Dict.map_fst_filterMap id (fun name => (row.get name).bind (Internal.pks (related name).store.pk))
    fields.names
  rw [List.map_id] at hkeys
  exact hkeys ▸ fields.nodup.filter _

section

variable (haccepted : ∀ name, Option.Rel (Replaces env related name) (item.get name) (row.get name))
include haccepted

omit [DecidableEq Pk] in
theorem mem_manyToMany {name : String} {values : List Pk} : (name, values) ∈ manyToMany related fields row ↔
    name ∈ fields.names ∧ Given item name ∧ values = givenPks related item name := by
  unfold manyToMany
  rw [List.mem_filterMap]
  constructor
  · rintro ⟨n, hn, heq⟩
    obtain ⟨values', hvalues, hpair⟩ := Option.map_eq_some_iff.mp heq
    obtain ⟨rfl, rfl⟩ := Prod.mk.inj hpair
    have hgiven : Given item n := by
      rcases given_or_not (haccepted n) with ⟨given, -, hitem, -⟩ | ⟨-, hnone⟩
      · exact ⟨given, hitem⟩
      · rw [hnone] at hvalues
        cases hvalues
    rw [pks_of_given (haccepted n) hgiven] at hvalues
    exact ⟨hn, hgiven, (Option.some.inj hvalues).symm⟩
  · rintro ⟨hname, hgiven, rfl⟩
    exact ⟨name, hname, by rw [pks_of_given (haccepted name) hgiven]; rfl⟩

omit [DecidableEq Pk] in
theorem designatedPk_eq (name : String) :
    DesignatedPk env related item name = fun dst => dst ∈ givenPks related item name :=
  funext fun _ => propext (mem_givenPks (haccepted name)).symm

omit [DecidableEq Pk] [∀ name, DecidableEq (K name)] in
theorem fitting_iff : Fitting env related group fields item ↔
    ∀ e ∈ manyToMany related fields row, Compatible (group e.1) (· ∈ e.2) := by
  unfold Fitting
  simp only [designatedPk_eq haccepted]
  constructor
  · rintro hfit ⟨name, values⟩ he
    obtain ⟨hname, -, rfl⟩ := (mem_manyToMany haccepted).mp he
    exact hfit name hname
  · intro h name hname dst dst' hdst
    obtain ⟨values, hitem, -⟩ := (mem_givenPks (haccepted name)).mp hdst
    exact h _ ((mem_manyToMany haccepted).mpr ⟨hname, ⟨values, hitem⟩, rfl⟩) dst dst' hdst

/-- **When an update of the relations is not refused.** -/
theorem updateRelations_isSome_iff (hpks : pks ≠ []) :
    (updateRelations related fields tables pks row).isSome = true ↔ Fitting env related group fields item ∧
      ∀ name ∈ fields.names, CreatesOnce (tables name) pks (givenPks related item name) := by
  unfold updateRelations
  rw [if_neg hpks, writeEach_isSome_iff manyToMany_nodup, fitting_iff haccepted]
  simp only [updateRelation_isSome_iff hpks]
  rw [forall₂_and]
  refine and_congr_right fun _ => ⟨fun h name hname pk hpk dst hdst => ?_, ?_⟩
  · obtain ⟨values, hitem, -⟩ := (mem_givenPks (haccepted name)).mp hdst
    exact h _ ((mem_manyToMany haccepted).mpr ⟨hname, ⟨values, hitem⟩, rfl⟩) pk hpk dst hdst
  · rintro h ⟨name, values⟩ he
    obtain ⟨hname, -, rfl⟩ := (mem_manyToMany haccepted).mp he
    exact h name hname

/-- **What an update of the relations does**, if it is not refused. -/
theorem sets_of_updateRelations (h : updateRelations related fields tables pks row = some after) :
    ∀ name ∈ fields.names,
      (Given item name → SetsRelation (tables name) pks (DesignatedPk env related item name) (after name)) ∧
        (¬ Given item name → after name = tables name) := by
  intro name hname
  unfold updateRelations at h
  split_ifs at h with hpks
  · obtain rfl := Option.some.inj h
    subst hpks
    exact ⟨fun _ => ⟨nofun, fun row hrow _ _ => hrow, fun row _ => Iff.rfl⟩, fun _ => rfl⟩
  · obtain ⟨hwritten, hframe⟩ := writeEach_eq_some manyToMany_nodup h
    rw [designatedPk_eq haccepted]
    constructor
    · intro hgiven
      exact sets_of_updateRelation (hwritten _ ((mem_manyToMany haccepted).mpr ⟨hname, hgiven, rfl⟩))
    · refine fun hnot => hframe name fun hmem => ?_
      obtain ⟨⟨n, values⟩, he, rfl⟩ := List.mem_map.mp hmem
      exact hnot ((mem_manyToMany haccepted).mp he).2.1

variable {src : Src} (hnew : ∀ name ∈ fields.names, ∀ dst, ¬ (tables name).Related src dst)
include hnew

theorem createRelations_isSome_iff :
    (createRelations related fields tables src row).isSome = true ↔ Fitting env related group fields item := by
  unfold createRelations
  rw [writeEach_isSome_iff manyToMany_nodup, fitting_iff haccepted]
  refine forall₂_congr fun e he => addRelation_isSome_iff ?_
  exact hnew e.1 ((mem_manyToMany haccepted).mp he).1

theorem related_createRelations (h : createRelations related fields tables src row = some after) {name : String}
    (hname : name ∈ fields.names) {dst : Pk} :
    (after name).Related src dst ↔ DesignatedPk env related item name dst := by
  obtain ⟨hwritten, hframe⟩ := writeEach_eq_some manyToMany_nodup h
  by_cases hgiven : Given item name
  · rw [designatedPk_eq haccepted]
    have hadd := hwritten _ ((mem_manyToMany haccepted).mpr ⟨hname, hgiven, rfl⟩)
    exact related_addRelation (hnew name hname) hadd
  · have hunchanged : after name = tables name := by
      refine hframe name fun hmem => ?_
      obtain ⟨⟨n, values⟩, he, rfl⟩ := List.mem_map.mp hmem
      exact hgiven ((mem_manyToMany haccepted).mp he).2.1
    rw [hunchanged]
    refine ⟨fun hrelated => absurd hrelated (hnew name hname dst), ?_⟩
    rintro ⟨values, hitem, -⟩
    exact absurd ⟨values, hitem⟩ hgiven

end

variable [DecidableEq Raw] {checks : String → ModelField Raw V} {str : Raw → String} {set : SetOrder}

/-- **When an update sets the relations**: when no pair that is not there yet is asked for twice, by a record matched
twice or by two values for one record. -/
theorem update_sets_relations_iff (h : toInternalValuesBy env related checks str set [item] = .ok [row]) :
    SetsRelations env related fields tables pks item row ↔
      ¬ Fitting env related group fields item ∨
        ∀ name ∈ fields.names, CreatesOnce (tables name) pks (givenPks related item name) := by
  have haccepted : ∀ name, Option.Rel (Replaces env related name) (item.get name) (row.get name) :=
    (List.forall₂_cons.mp (replaces_of_ok h)).1
  have hcreate : ∀ src, (∀ name ∈ fields.names, ∀ dst, ¬ (tables name).Related src dst) →
      (Fitting env related group fields item → ∃ created, createRelations related fields tables src row = some created ∧
        ∀ name ∈ fields.names, ∀ dst, (created name).Related src dst ↔ DesignatedPk env related item name dst) ∧
      (¬ Fitting env related group fields item → createRelations related fields tables src row = none) := by
    intro src hnew
    rw [← createRelations_isSome_iff haccepted hnew, Option.isSome_iff_exists]
    constructor
    · rintro ⟨created, hcreated⟩
      exact ⟨created, hcreated, fun name hname dst => related_createRelations haccepted hnew hcreated hname⟩
    · exact fun hnone => Option.eq_none_iff_forall_ne_some.mpr fun created hcreated => hnone ⟨created, hcreated⟩
  constructor
  · intro hsets
    rw [or_iff_not_imp_left, not_not]
    intro hfit
    by_cases hpks : pks = []
    · subst hpks
      exact fun _ _ => nofun
    · obtain ⟨after, hafter, -⟩ := hsets.update hfit
      exact ((updateRelations_isSome_iff haccepted hpks).mp (Option.isSome_iff_exists.mpr ⟨after, hafter⟩)).2
  · intro hcondition
    refine ⟨fun hfit => ?_, fun hnot hpks => ?_, hcreate⟩
    · have hsome : (updateRelations related fields tables pks row).isSome = true := by
        by_cases hpks : pks = []
        · unfold updateRelations
          rw [if_pos hpks]
          rfl
        · exact (updateRelations_isSome_iff haccepted hpks).mpr ⟨hfit, hcondition.resolve_left (not_not.mpr hfit)⟩
      obtain ⟨after, hafter⟩ := Option.isSome_iff_exists.mp hsome
      exact ⟨after, hafter, sets_of_updateRelations haccepted hafter⟩
    · exact Option.not_isSome_iff_eq_none.mp fun hsome => hnot ((updateRelations_isSome_iff haccepted hpks).mp hsome).1

end

/-! ## The tags of a contact -/

section Sample

def tagFields : ManyToManyFields := ⟨["tags"], List.nodup_singleton _⟩

/-- The contact 1 has the tag 1. -/
def tagRows : ThroughTables ℕ fun (_ : String) (tag : ℕ) => tag := fun _ =>
  ⟨[⟨0, 1, 1⟩], 1, by decide, List.nodup_singleton _, List.nodup_singleton _⟩

def tagged (tags : List ℕ) : Item ℕ Unit := Dict.empty.set "tags" (.keys (some tags))

def taggedRow (tags : List ℕ) : Dict String (Internal ℕ Unit) := Dict.empty.set "tags" (.records tags)

/-- The tag 2 given twice: the update is refused, a creation is not. -/
theorem repeated_tag_refused :
    toInternalValuesBy anonymousEnv movementRelated movementField toString .keys [tagged [2, 2]] =
        .ok [taggedRow [2, 2]] ∧
      (updateRelations movementRelated tagFields tagRows [1] (taggedRow [2, 2])).isSome = false ∧
      (createRelations movementRelated tagFields tagRows 5 (taggedRow [2, 2])).isSome = true ∧
      ¬ SetsRelations anonymousEnv movementRelated tagFields tagRows [1] (tagged [2, 2]) (taggedRow [2, 2]) := by
  have hrefused : (updateRelations movementRelated tagFields tagRows [1] (taggedRow [2, 2])).isSome = false := by
    decide
  refine ⟨by rfl, hrefused, by decide, fun hsets => ?_⟩
  have hfit : Fitting anonymousEnv movementRelated (fun (_ : String) (tag : ℕ) => tag) tagFields (tagged [2, 2]) :=
    fun _ _ _ _ _ _ hsame => hsame
  obtain ⟨after, hafter, -⟩ := hsets.update hfit
  rw [hafter] at hrefused
  cases hrefused

/-- The tag 2 in place of the tag 1. -/
theorem update_sets_relations_sample :
    SetsRelations anonymousEnv movementRelated tagFields tagRows [1] (tagged [2]) (taggedRow [2]) := by
  have haccepted : toInternalValuesBy anonymousEnv movementRelated movementField toString .keys [tagged [2]] =
      .ok [taggedRow [2]] := by rfl
  refine (update_sets_relations_iff haccepted).mpr (.inr fun name hname pk hpk dst hdst _ => ?_)
  obtain rfl := List.mem_singleton.mp hname
  obtain rfl := List.mem_singleton.mp hpk
  obtain rfl : dst = 2 := List.mem_singleton.mp hdst
  exact ⟨rfl, rfl⟩

end Sample

end Totem.Services
