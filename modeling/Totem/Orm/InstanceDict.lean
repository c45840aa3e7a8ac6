import Totem.Lib.Recursion
import Totem.Orm.FetchPlan

/-!
# Totem.Orm.InstanceDict — the dict of an instance

`model_instance_to_dict` of `core.orm.queryset`: the columns of an instance, and the dicts of the instances in its
relation caches, and so on.

* `isSome_modelInstanceToDict`: it ends where the recursion along the caches does.
* `shows_of_returns`: what it returns.
* `ends_iff_no_way_back`: the rows it ends on.
-/

namespace Totem.Orm

open Lib

variable {K V : Type}

/-! ## The dict -/

/-- A value of the dict. -/
inductive Data (V : Type)
  | value (v : V)
  | null
  | dict (items : List (String × Data V))
  | list (items : List (Data V))

/-- `model_instance_to_dict(value) if value is not None else None`. -/
def relatedData (toDict : Address K → Option (Dict String (Data V))) : Option (Address K) → Option (Data V)
  | none => some .null
  | some b => (toDict b).map fun d => .dict d.entries

/-- `[model_instance_to_dict(i) for i in value]`. -/
def relatedList (toDict : Address K → Option (Dict String (Data V))) (value : List (Address K)) : Option (Data V) :=
  (value.mapM toDict).map fun ds => .list (ds.map fun d => .dict d.entries)

/-- `model_instance_to_dict`, with this much depth of recursion. -/
def modelInstanceToDict (instances : Address K → Instance K V) : ℕ → Address K → Option (Dict String (Data V))
  | 0, _ => none
  | n + 1, a =>
    let values := (instances a).values.foldl (fun values item => values.set item.1 (.value item.2)) Dict.empty
    ((instances a).fieldsCache.foldlM (fun values item =>
      (relatedData (modelInstanceToDict instances n) item.2).map fun data => values.set item.1 data) values).bind
    fun values => (instances a).prefetchedObjects.foldlM (fun values item =>
      (relatedList (modelInstanceToDict instances n) item.2).map fun data => values.set item.1 data) values

/-- It returns, at some depth. -/
def Returns (instances : Address K → Instance K V) (a : Address K) (d : Dict String (Data V)) : Prop :=
  ∃ n, modelInstanceToDict instances n a = some d

/-- **The dict shows the instance**: its columns and, under each relation, the dicts that show the related instances. -/
inductive Shows (instances : Address K → Instance K V) : Address K → List (String × Data V) → Prop
  | intro {a : Address K} {items : List (String × Data V)} (child : Address K → List (String × Data V))
      (columns : ∀ column v, (column, v) ∈ (instances a).values → items.lookup column = some (.value v))
      (absent : ∀ name, (name, none) ∈ (instances a).fieldsCache → items.lookup name = some .null)
      (one : ∀ name b, (name, some b) ∈ (instances a).fieldsCache → items.lookup name = some (.dict (child b)))
      (many : ∀ name bs, (name, bs) ∈ (instances a).prefetchedObjects →
        items.lookup name = some (.list (bs.map fun b => .dict (child b))))
      (oneShown : ∀ name b, (name, some b) ∈ (instances a).fieldsCache → Shows instances b (child b))
      (manyShown : ∀ name bs, (name, bs) ∈ (instances a).prefetchedObjects → ∀ b ∈ bs, Shows instances b (child b)) :
      Shows instances a items

/-! ## Where it ends -/

/-- The instances it is called on. -/
def Instance.linked (i : Instance K V) : List (Address K) :=
  i.fieldsCache.filterMap Prod.snd ++ i.prefetchedObjects.flatMap Prod.snd

section Graph

variable {instances : Address K → Instance K V} {n : ℕ} {a : Address K} {d : Dict String (Data V)}

theorem mem_linked {i : Instance K V} {b : Address K} :
    b ∈ i.linked ↔ (∃ item ∈ i.fieldsCache, item.2 = some b) ∨ ∃ item ∈ i.prefetchedObjects, b ∈ item.2 := by
  rw [Instance.linked, List.mem_append, List.mem_filterMap, List.mem_flatMap]

/-- **It returns within the depth in which the calls end.** -/
theorem isSome_modelInstanceToDict :
    (modelInstanceToDict instances n a).isSome ↔ EndsWithin (fun a => (instances a).linked) n a := by
  induction n generalizing a with
  | zero => exact iff_of_false (by simp [modelInstanceToDict]) id
  | succ n ih =>
    have hfields := Dict.isSome_foldlM_set Prod.fst
      (fun item => relatedData (modelInstanceToDict instances n) item.2) (instances a).fieldsCache
    have hobjects := Dict.isSome_foldlM_set Prod.fst
      (fun item => relatedList (modelInstanceToDict instances n) item.2) (instances a).prefetchedObjects
    have hdata : ∀ value, (relatedData (modelInstanceToDict instances n) value).isSome ↔
        ∀ b ∈ value, EndsWithin (fun a => (instances a).linked) n b := by
      rintro (_ | b)
      · simp [relatedData]
      · simp [relatedData, ih]
    have hlist : ∀ value, (relatedList (modelInstanceToDict instances n) value).isSome ↔
        ∀ b ∈ value, EndsWithin (fun a => (instances a).linked) n b := by
      intro value
      rw [relatedList, Option.isSome_map, isSome_mapM]
      simp only [ih]
    have hboth : (modelInstanceToDict instances (n + 1) a).isSome ↔
        (∀ item ∈ (instances a).fieldsCache, ∀ b ∈ item.2, EndsWithin (fun a => (instances a).linked) n b) ∧
          ∀ item ∈ (instances a).prefetchedObjects, ∀ b ∈ item.2, EndsWithin (fun a => (instances a).linked) n b := by
      simp only [modelInstanceToDict, Option.isSome_bind, Option.any_eq_true, hobjects, hlist, exists_and_right]
      rw [← Option.isSome_iff_exists, hfields]
      simp only [hdata]
    rw [hboth]
    constructor
    · rintro ⟨hone, hmany⟩ b hb
      rcases mem_linked.mp hb with ⟨item, hitem, heq⟩ | ⟨item, hitem, hmem⟩
      · exact hone item hitem b heq
      · exact hmany item hitem b hmem
    · intro h
      exact ⟨fun item hitem b hb => h b (mem_linked.mpr (.inl ⟨item, hitem, hb⟩)),
        fun item hitem b hb => h b (mem_linked.mpr (.inr ⟨item, hitem, hb⟩))⟩

/-- **It returns exactly where the recursion along the caches ends.** -/
theorem exists_returns_iff : (∃ d, Returns instances a d) ↔ Ends (fun a => (instances a).linked) a := by
  simp only [Returns, Ends, ← isSome_modelInstanceToDict, Option.isSome_iff_exists]
  exact exists_comm

/-! ## What it returns -/

/-- The names of an instance: a column has one value, and a relation is cached once, under a name of its own. -/
structure Instance.Named (i : Instance K V) : Prop where
  functional : ∀ column v v', (column, v) ∈ i.values → (column, v') ∈ i.values → v = v'
  nodup : (i.fieldsCache.map Prod.fst ++ i.prefetchedObjects.map Prod.fst).Nodup
  apart : ∀ item ∈ i.values, item.1 ∉ i.fieldsCache.map Prod.fst ++ i.prefetchedObjects.map Prod.fst

/-- A loop of assignments of one value to each key. -/
theorem get_foldl_values {values : List (String × V)}
    (h : ∀ column v v', (column, v) ∈ values → (column, v') ∈ values → v = v') {column : String} {v : V}
    (hv : (column, v) ∈ values) :
    (values.foldl (fun d item => d.set item.1 (.value item.2)) (Dict.empty : Dict String (Data V))).get column =
      some (.value v) := by
  induction values using List.reverseRecOn with
  | nil => cases hv
  | append_singleton values item ih =>
    rw [List.foldl_append, List.foldl_cons, List.foldl_nil, Dict.get_set]
    by_cases hcolumn : column = item.1
    · have hitem : (column, item.2) ∈ values ++ [item] := by simp [hcolumn]
      rw [if_pos hcolumn, h column v item.2 hv hitem]
    · have hmem : (column, v) ∈ values := by
        rcases List.mem_append.mp hv with hmem | hmem
        · exact hmem
        · exact absurd (congrArg Prod.fst (List.mem_singleton.mp hmem)) hcolumn
      rw [if_neg hcolumn]
      exact ih (fun c v v' h₁ h₂ => h c v v' (List.mem_append_left _ h₁) (List.mem_append_left _ h₂)) hmem

/-- **What it returns shows the instance**, along instances with names of their own. -/
theorem shows_of_returns {P : Address K → Prop} (hnamed : ∀ a, P a → (instances a).Named)
    (hlinked : ∀ a, P a → ∀ b ∈ (instances a).linked, P b) (ha : P a) (h : Returns instances a d) :
    Shows instances a d.entries := by
  obtain ⟨n, h⟩ := h
  induction n generalizing a d with
  | zero => cases h
  | succ n ih =>
    have hwithin := isSome_modelInstanceToDict.mp (Option.isSome_iff_exists.mpr ⟨d, h⟩)
    have hreturns : ∀ b ∈ (instances a).linked, ∃ d', modelInstanceToDict instances n b = some d' := fun b hb =>
      Option.isSome_iff_exists.mp (isSome_modelInstanceToDict.mpr (hwithin b hb))
    have hshown : ∀ b ∈ (instances a).linked,
        Shows instances b ((modelInstanceToDict instances n b).getD Dict.empty).entries := by
      intro b hb
      obtain ⟨d', hd'⟩ := hreturns b hb
      rw [hd']
      exact ih (hlinked a ha b hb) hd'
    rw [modelInstanceToDict] at h
    obtain ⟨values, hfields, hobjects⟩ := Option.bind_eq_some_iff.mp h
    obtain ⟨hnodupFields, hnodupObjects, hdisjoint⟩ := List.nodup_append.mp (hnamed a ha).nodup
    obtain ⟨hset, hkept⟩ := Dict.get_foldlM_set _ _ hfields hnodupFields
    obtain ⟨hset', hkept'⟩ := Dict.get_foldlM_set _ _ hobjects hnodupObjects
    have hfield : ∀ item ∈ (instances a).fieldsCache,
        d.entries.lookup item.1 = relatedData (modelInstanceToDict instances n) item.2 := fun item hitem =>
      (hkept' item.1 fun hmem => hdisjoint _ (List.mem_map_of_mem hitem) _ hmem rfl).trans (hset item hitem)
    refine .intro (fun b => ((modelInstanceToDict instances n b).getD Dict.empty).entries) ?_ ?_ ?_ ?_ ?_ ?_
    · intro column v hv
      have hnot := (hnamed a ha).apart _ hv
      rw [List.mem_append, not_or] at hnot
      have hget : d.get column = _ := (hkept' column hnot.2).trans (hkept column hnot.1)
      exact hget.trans (get_foldl_values (hnamed a ha).functional hv)
    · exact fun name hitem => hfield _ hitem
    · intro name b hitem
      obtain ⟨d', hd'⟩ := hreturns b (mem_linked.mpr (.inl ⟨_, hitem, rfl⟩))
      rw [hfield _ hitem, relatedData, hd']
      rfl
    · intro name bs hitem
      obtain ⟨ds, hds⟩ : ∃ ds, bs.mapM (modelInstanceToDict instances n) = some ds :=
        Option.isSome_iff_exists.mp (isSome_mapM.mpr fun b hb =>
          Option.isSome_iff_exists.mpr (hreturns b (mem_linked.mpr (.inr ⟨_, hitem, hb⟩))))
      have hlist : bs.map (fun b => ((modelInstanceToDict instances n b).getD Dict.empty)) = ds := by
        have hall := mapM_eq_some.mp hds
        clear hds hitem
        induction hall with
        | nil => rfl
        | cons hb _ ih => rw [List.map_cons, ih, hb, Option.getD_some]
      have hget : d.entries.lookup name = relatedList (modelInstanceToDict instances n) bs := hset' _ hitem
      rw [hget, relatedList, hds, ← hlist, Option.map_some, List.map_map]
      rfl
    · exact fun name b hitem => hshown b (mem_linked.mpr (.inl ⟨_, hitem, rfl⟩))
    · exact fun name bs hitem b hb => hshown b (mem_linked.mpr (.inr ⟨_, hitem, hb⟩))

end Graph

/-! ## The rows of a read -/

section Read

variable {M : Type} {schema : Schema M} (db : Database schema K V) {m : M} {fieldLookups : List String}
  {qs : Queryset M} {k : K}

variable (qs k) in
/-- The row has a related row under a one-to-one relation or a reverse foreign key that was fetched. -/
def Queryset.WayBack : Prop :=
  ∃ p ∈ qs.prefetches, ∃ r, schema.prefetcher qs.model p.lookup = some r ∧ r.cardinality.linksBack = true ∧
    db.related qs.model p.lookup k ≠ []

/-- The instances linked from a row. -/
theorem related_of_mem_linked {b : Address K} (hb : b ∈ (qs.instances db (.row k)).linked) :
    ∃ p ∈ qs.prefetches, ∃ r, schema.prefetcher qs.model p.lookup = some r ∧
      ∃ rk ∈ db.related qs.model p.lookup k, b = .related p.lookup k rk := by
  rcases mem_linked.mp hb with ⟨item, hitem, heq⟩ | ⟨item, hitem, hmem⟩
  · obtain ⟨p, hp, hone⟩ := List.mem_filterMap.mp hitem
    obtain ⟨value, hvalue, rfl⟩ := Option.map_eq_some_iff.mp hone
    obtain rfl : value = some b := heq
    rw [Queryset.one?] at hvalue
    split at hvalue
    · next r hr =>
      split_ifs at hvalue
      obtain ⟨rk, hrk, rfl⟩ := Option.map_eq_some_iff.mp (Option.some.inj hvalue)
      exact ⟨p, hp, r, hr, rk, List.mem_of_mem_head? hrk, rfl⟩
    · cases hvalue
  · obtain ⟨p, hp, hmany⟩ := List.mem_filterMap.mp hitem
    obtain ⟨vals, hvals, rfl⟩ := Option.map_eq_some_iff.mp hmany
    rw [Queryset.many?] at hvals
    split at hvals
    · next r hr =>
      split_ifs at hvals
      obtain rfl := Option.some.inj hvals
      obtain ⟨rk, hrk, rfl⟩ := List.mem_map.mp hmem
      exact ⟨p, hp, r, hr, rk, hrk, rfl⟩
    · cases hvals

/-- A relation with a related row links to one. -/
theorem exists_linked {p : Prefetch M} (hp : p ∈ qs.prefetches) {r : Relation M}
    (hr : schema.prefetcher qs.model p.lookup = some r) (hne : db.related qs.model p.lookup k ≠ []) :
    ∃ rk, .related p.lookup k rk ∈ (qs.instances db (.row k)).linked := by
  obtain ⟨rk, rest, hrelated⟩ := List.exists_cons_of_ne_nil hne
  refine ⟨rk, mem_linked.mpr ?_⟩
  cases htoMany : r.cardinality.toMany with
  | true =>
    refine .inr ⟨(p.lookup, (rk :: rest).map (.related p.lookup k)), List.mem_filterMap.mpr ⟨p, hp, ?_⟩, by simp⟩
    rw [Queryset.many?, hr, hrelated]
    simp [htoMany]
  | false =>
    refine .inl ⟨(p.lookup, some (.related p.lookup k rk)), List.mem_filterMap.mpr ⟨p, hp, ?_⟩, rfl⟩
    rw [Queryset.one?, hr, hrelated]
    simp [htoMany]

theorem instances_of_mem {p : Prefetch M} (hp : p ∈ qs.prefetches) {r : Relation M}
    (hr : schema.prefetcher qs.model p.lookup = some r) (rk : K) :
    ∃ p' : Prefetch M, qs.instances db (.related p.lookup k rk) =
      { values := db.values p'.queryset rk r.joined
        fieldsCache := if r.cardinality.linksBack then [(r.remote, some (.row k))] else []
        prefetchedObjects := [] } := by
  cases hfind : qs.prefetches.find? fun p' => p'.lookup = p.lookup with
  | none => exact absurd (decide_eq_true rfl) (List.find?_eq_none.mp hfind p hp)
  | some p' => exact ⟨p', Queryset.instances_related db k rk hfind hr⟩

theorem functional_values (rows : Rows M) (joined : Option String) (column : String) (v v' : V)
    (h : (column, v) ∈ db.values rows k joined) (h' : (column, v') ∈ db.values rows k joined) : v = v' := by
  obtain ⟨c, -, hc⟩ := List.mem_map.mp h
  obtain ⟨c', -, hc'⟩ := List.mem_map.mp h'
  obtain ⟨rfl, rfl⟩ := Prod.mk.inj hc
  obtain ⟨rfl, rfl⟩ := Prod.mk.inj hc'
  rfl

/-- Without a way back a related row caches nothing. -/
theorem linked_of_mem_linked (hnot : ¬ qs.WayBack db k) {b : Address K}
    (hb : b ∈ (qs.instances db (.row k)).linked) :
    (qs.instances db b).Named ∧ (qs.instances db b).linked = [] := by
  obtain ⟨p, hp, r, hr, rk, hrk, rfl⟩ := related_of_mem_linked db hb
  obtain ⟨p', hinstance⟩ := instances_of_mem db hp hr rk
  have hlinks : ¬ r.cardinality.linksBack = true := fun hlinks =>
    hnot ⟨p, hp, r, hr, hlinks, List.ne_nil_of_mem hrk⟩
  rw [hinstance, if_neg hlinks]
  exact ⟨⟨functional_values db _ _, List.nodup_nil, fun _ _ => List.not_mem_nil⟩, rfl⟩

/-- **The recursion ends on the rows without a way back.** -/
theorem ends_row_iff : Ends (fun a => (qs.instances db a).linked) (.row k) ↔ ¬ qs.WayBack db k := by
  constructor
  · rintro hends ⟨p, hp, r, hr, hlinks, hne⟩
    obtain ⟨rk, hrk⟩ := exists_linked db hp hr hne
    obtain ⟨p', hinstance⟩ := instances_of_mem db hp hr rk
    have hback : .row k ∈ (qs.instances db (.related p.lookup k rk)).linked := by
      rw [hinstance, if_pos hlinks]
      exact List.mem_singleton_self _
    exact not_ends_of_cycle (.tail (.single hrk) hback) hends
  · intro hnot
    refine ends_iff.mpr fun b hb => ends_iff.mpr fun b' hb' => ?_
    rw [(linked_of_mem_linked db hnot hb).2] at hb'
    exact (List.not_mem_nil hb').elim

/-- The names under which a row has what was prefetched for it. -/
theorem cache_names (qs : Queryset M) (k : K) :
    (qs.instances db (.row k)).fieldsCache.map Prod.fst ++ (qs.instances db (.row k)).prefetchedObjects.map Prod.fst =
      (qs.prefetches.filter fun p => (qs.one? db k p.lookup).isSome).map Prefetch.lookup ++
        (qs.prefetches.filter fun p => (qs.many? db k p.lookup).isSome).map Prefetch.lookup := by
  rw [Queryset.instances, Dict.map_fst_filterMap, Dict.map_fst_filterMap]

theorem one_or_many {lookup : String} (h : (qs.one? db k lookup).isSome) : ¬ (qs.many? db k lookup).isSome := by
  rw [Queryset.one?] at h
  rw [Queryset.many?]
  cases hr : schema.prefetcher qs.model lookup with
  | none => simp
  | some r =>
    rw [hr] at h
    cases htoMany : r.cardinality.toMany <;> simp [htoMany] at h ⊢

theorem prefetcher_of_cached {lookup : String} (h : (qs.one? db k lookup).isSome ∨ (qs.many? db k lookup).isSome) :
    ∃ r, schema.prefetcher qs.model lookup = some r := by
  cases hr : schema.prefetcher qs.model lookup with
  | none => simp [Queryset.one?, Queryset.many?, hr] at h
  | some r => exact ⟨r, rfl⟩

theorem nodup_lookups : ((schema.queryset m fieldLookups).prefetches.map Prefetch.lookup).Nodup := by
  have hkeys : ((lookupMap fieldLookups).entries.map Prod.fst).Nodup := PathTree.distinct_ofPaths.nodup
  refine hkeys.sublist ?_
  show List.Sublist (((lookupMap fieldLookups).entries.filterMap (schema.prefetchOf m)).map Prefetch.lookup) _
  induction (lookupMap fieldLookups).entries with
  | nil => exact List.Sublist.slnil
  | cons e entries ih =>
    rw [List.filterMap_cons, List.map_cons]
    cases hp : schema.prefetchOf m e with
    | none => exact ih.cons _
    | some p =>
      obtain ⟨r, -, rfl⟩ := Option.map_eq_some_iff.mp hp
      exact ih.cons_cons _

/-- A prefetch that is found is that of a relation of its name. -/
theorem name_of_prefetcher {p : Prefetch M} (hp : p ∈ (schema.queryset m fieldLookups).prefetches) {r : Relation M}
    (hr : schema.prefetcher m p.lookup = some r) :
    ∃ field ∈ schema.fields m, field.relation?.isSome ∧ field.name = p.lookup := by
  obtain ⟨⟨fname, fval⟩, -, hp⟩ := List.mem_filterMap.mp hp
  obtain ⟨r', hr', rfl⟩ := Option.map_eq_some_iff.mp hp
  obtain ⟨field, hfield, hrelation, -⟩ := fetches_eq_some.mp hr'
  rw [Schema.prefetcher_eq hfield] at hr
  split_ifs at hr with haccessor
  refine ⟨field, (Schema.mem_of_getField hfield).1, ?_, Schema.name_of_accessor hfield haccessor⟩
  rw [hrelation]
  rfl

/-- The names of a row. -/
theorem named_row (k : K) : ((schema.queryset m fieldLookups).instances db (.row k)).Named := by
  refine ⟨functional_values db _ none, ?_, ?_⟩
  · rw [cache_names]
    refine List.nodup_append.mpr ⟨nodup_lookups.sublist (List.filter_sublist.map _),
      nodup_lookups.sublist (List.filter_sublist.map _), ?_⟩
    rintro lookup hone _ hmany rfl
    obtain ⟨p, hp, rfl⟩ := List.mem_map.mp hone
    obtain ⟨p', hp', heq⟩ := List.mem_map.mp hmany
    rw [List.mem_filter, heq] at hp'
    exact one_or_many db (List.mem_filter.mp hp).2 hp'.2
  · rintro ⟨column, v⟩ hvalue hcached
    obtain ⟨p, hp, rfl, hsome⟩ : ∃ p ∈ (schema.queryset m fieldLookups).prefetches, p.lookup = column ∧
        (((schema.queryset m fieldLookups).one? db k p.lookup).isSome ∨
          ((schema.queryset m fieldLookups).many? db k p.lookup).isSome) := by
      rw [cache_names] at hcached
      rcases List.mem_append.mp hcached with hmem | hmem
      · obtain ⟨p, hp, hlookup⟩ := List.mem_map.mp hmem
        exact ⟨p, (List.mem_filter.mp hp).1, hlookup, .inl (List.mem_filter.mp hp).2⟩
      · obtain ⟨p, hp, hlookup⟩ := List.mem_map.mp hmem
        exact ⟨p, (List.mem_filter.mp hp).1, hlookup, .inr (List.mem_filter.mp hp).2⟩
    obtain ⟨r, hr⟩ := prefetcher_of_cached db hsome
    obtain ⟨other, hother, hrelation, hname⟩ := name_of_prefetcher hp hr
    obtain ⟨c, hc, hpair⟩ := List.mem_map.mp hvalue
    obtain rfl : c = p.lookup := (Prod.mk.inj hpair).1
    have hloaded : p.lookup ∈ (schema.queryset m fieldLookups).toRows.loaded schema := by simpa using hc
    obtain ⟨field, hfield, hattname⟩ := List.mem_filterMap.mp (List.mem_filter.mp hloaded).1
    exact schema.columns m field hfield other hother hrelation (hattname.trans (congrArg some hname.symm))

/-- **It ends, with a dict that shows the row, exactly on the rows without a way back.** -/
theorem shows_iff_no_way_back {keys : List K} {instances : Address K → Instance K V}
    (hread : db.read m fieldLookups keys = .ok instances) (k : K) :
    (∃ d, Returns instances (.row k) d ∧ Shows instances (.row k) d.entries) ↔
      ¬ (schema.queryset m fieldLookups).WayBack db k := by
  obtain ⟨qs, hqs, hfetch⟩ := bind_eq_ok.mp hread
  obtain ⟨-, rfl⟩ := querysetFetchFields_eq_ok.mp hqs
  rw [Queryset.fetch] at hfetch
  split_ifs at hfetch
  obtain rfl := Except.ok.inj hfetch
  rw [← ends_row_iff, ← exists_returns_iff]
  refine exists_congr fun d => and_iff_left_of_imp fun hreturns => ?_
  have hnot := (ends_row_iff db).mp (exists_returns_iff.mp ⟨d, hreturns⟩)
  refine shows_of_returns
    (P := fun a => a = .row k ∨ ((schema.queryset m fieldLookups).instances db a).Named ∧
      ((schema.queryset m fieldLookups).instances db a).linked = []) ?_ ?_ (.inl rfl) hreturns
  · rintro a (rfl | ⟨hnamed, -⟩)
    · exact named_row db k
    · exact hnamed
  · rintro a (rfl | ⟨-, hnil⟩) b hb
    · exact .inr (linked_of_mem_linked db hnot hb)
    · rw [hnil] at hb
      exact (List.not_mem_nil hb).elim

end Read

/-! ### The lines of an order -/

section Sample

/-- The order 1 with its line 1, whose link back to the order the prefetch caches. -/
theorem read_lines : (Database.diagonal shopSchema ℕ ℕ).read .order ["lines__id"] [1] =
    .ok ((shopSchema.queryset .order ["lines__id"]).instances (.diagonal shopSchema ℕ ℕ)) := by
  rw [Database.read, querysetFetchFields, Schema.queryset, lookupMap_singleton]
  rfl

/-- The line 1 with its product, which does not cache the line. -/
theorem read_product : (Database.diagonal shopSchema ℕ ℕ).read .line ["product__name"] [1] =
    .ok ((shopSchema.queryset .line ["product__name"]).instances (.diagonal shopSchema ℕ ℕ)) := by
  rw [Database.read, querysetFetchFields, Schema.queryset, lookupMap_singleton]
  rfl

theorem shows_iff_no_way_back_sample :
    ∃ d, Returns ((shopSchema.queryset .line ["product__name"]).instances (.diagonal shopSchema ℕ ℕ)) (.row 1) d ∧
      Shows ((shopSchema.queryset .line ["product__name"]).instances (.diagonal shopSchema ℕ ℕ)) (.row 1) d.entries := by
  refine (shows_iff_no_way_back _ read_product 1).2 ?_
  rw [Schema.queryset, lookupMap_singleton]
  rintro ⟨p, hp, r, hr, hlinks, -⟩
  obtain rfl := List.mem_singleton.mp hp
  obtain rfl := Option.some.inj hr
  cases hlinks

/-- **An order with its lines has no dict**: the recursion goes from the order to the line, and back. -/
theorem lines_do_not_end :
    ∃ instances, (Database.diagonal shopSchema ℕ ℕ).read .order ["lines__id"] [1] = .ok instances ∧
      ¬ ∃ d, Returns instances (.row 1) d := by
  refine ⟨_, read_lines, fun h => ?_⟩
  refine (ends_row_iff _).mp (exists_returns_iff.mp h) ?_
  rw [Schema.queryset, lookupMap_singleton]
  exact ⟨_, List.mem_singleton_self _, _, rfl, rfl, List.cons_ne_nil _ _⟩

end Sample

end Totem.Orm
