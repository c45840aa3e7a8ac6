import Totem.Computed.Dependency
import Totem.Lib.DepthFirst
import Totem.Lib.Dict

/-!
# Totem.Computed.Depths — the search behind the depths

`_compute_depths` as it runs: `depth` is a dict that the search fills, `visiting` the fields it is in the middle of,
and the sets of fields are iterated in any order.

* `visit_of_search`: `visit` is a search that refuses cycles.
* `reads_merge`: no read is lost in `_merge`, and none is made up.
* `compute_depths`: it raises exactly where a field comes back to itself, and else every field is deeper than what it
  reads.
* `computeDepths_agrees`: these are the depths of the registry.
-/

namespace Totem.Computed.Depths

open Totem.Lib Totem.Lib.DepthFirst

variable {M N K V : Type*} [DecidableEq M] [DecidableEq N]

/-- `depth` and `visiting`. -/
abbrev Visits (M N : Type*) := Dict (M × N) ℕ × List (M × N)

/-- `visit`; calls are at most `fuel` deep. -/
def visit (reads : M × N → List (M × N)) :
    ℕ → Visits M N → M × N → Option (Except (RegistryError M N) (ℕ × Visits M N))
  | 0, _, _ => none
  | fuel + 1, visits, field =>
    match visits.1.get field with
    | some d => some (.ok (d, visits))
    | none =>
      if field ∈ visits.2 then some (.error (.cycle field))
      else
        match each (fun acc dep =>
            match visit reads fuel acc.2 dep with
            | some (.ok found) => some (.ok (acc.1 ++ [found.1], found.2))
            | some (.error e) => some (.error e)
            | none => none) (reads field) ([], visits.1, field :: visits.2) with
        | some (.ok acc) =>
          let d := (acc.1.map (· + 1)).foldr max 0
          some (.ok (d, acc.2.1.set field d, acc.2.2.erase field))
        | some (.error e) => some (.error e)
        | none => none

/-- `fields`: those that have a binding, and those they read. -/
def fields (S : Schema M N K V) (bs : List (Binding M N)) : List (M × N) :=
  bs.map Binding.field ++ bs.flatMap fun b => reads S bs b.field

/-- `reads[field]`, as it is iterated. -/
def readsOf (S : Schema M N K V) (readOrder : M × N → SetOrder (M × N)) (bs : List (Binding M N)) (f : M × N) :
    List (M × N) := (readOrder f).order (reads S bs f)

/-- `_compute_depths`. -/
def computeDepths (S : Schema M N K V) (readOrder : M × N → SetOrder (M × N)) (fieldOrder : SetOrder (M × N))
    (bs : List (Binding M N)) (fuel : ℕ) : Option (Except (RegistryError M N) (Dict (M × N) ℕ)) :=
  match bs.find? fun b => decide (b.field ∈ reads S [b] b.field) with
  | some b => some (.error (.readsItself b.field b.path))
  | none =>
    match each (fun visits f =>
        match visit (readsOf S readOrder bs) fuel visits f with
        | some (.ok found) => some (.ok found.2)
        | some (.error e) => some (.error e)
        | none => none) (fieldOrder.order (fields S bs)) (Dict.empty, []) with
    | some (.ok visits) => some (.ok visits.1)
    | some (.error e) => some (.error e)
    | none => none

/-! ## The depths of the fields visited -/

section Search

variable {readsOf : M × N → List (M × N)} {fuel : ℕ} {depth depth' : Dict (M × N) ℕ} {visiting : List (M × N)}
  {f g : M × N} {d : ℕ}

def value (depth : Dict (M × N) ℕ) (f : M × N) : ℕ := (depth.get f).getD 0

/-- One more than the deepest field that is read. -/
def level (readsOf : M × N → List (M × N)) (depth : Dict (M × N) ℕ) (f : M × N) : ℕ :=
  (((readsOf f).map (value depth)).map (· + 1)).foldr max 0

/-- `depth`, as the marks of a search. -/
def depthMarks (readsOf : M × N → List (M × N)) : Marks (M × N) (Dict (M × N) ℕ) where
  done := Dict.keys
  finish depth f := depth.set f (level readsOf depth f)
  done_finish depth f hf := by
    rw [Dict.keys, Dict.entries_set (Dict.get_eq_none_of_notMem hf), List.map_append]
    rfl

/-- A depth, once found, stays. -/
theorem get_of_passed (h : Passed (depthMarks readsOf) readsOf depth depth') (hf : f ∈ depth.keys) :
    depth'.get f = depth.get f := by
  induction h with
  | refl => rfl
  | @finish depth' a hpassed ha _ ih =>
    have hne : f ≠ a := fun heq => ha (heq ▸ hpassed.mem (m := depthMarks readsOf) hf)
    exact (Dict.get_set.trans (if_neg hne)).trans ih

/-- The depth found of each field is its level, and what it reads has one too. -/
theorem level_of_passed (h : Passed (depthMarks readsOf) readsOf .empty depth) (hd : depth.get f = some d) :
    d = level readsOf depth f ∧ ∀ g ∈ readsOf f, g ∈ depth.keys := by
  induction h generalizing f d with
  | refl => cases hd
  | @finish depth a hpassed ha hnext ih =>
    have hstep : Passed (depthMarks readsOf) readsOf depth (depth.set a (level readsOf depth a)) :=
      .finish (.refl depth) ha hnext
    have hkept : ∀ g ∈ depth.keys, (depth.set a (level readsOf depth a)).get g = depth.get g :=
      fun g => get_of_passed hstep
    have hlevel : ∀ f, (∀ g ∈ readsOf f, g ∈ depth.keys) →
        level readsOf depth f = level readsOf (depth.set a (level readsOf depth a)) f := by
      intro f hall
      have hvalue : (readsOf f).map (value depth) =
          (readsOf f).map (value (depth.set a (level readsOf depth a))) :=
        List.map_congr_left fun g hg => by rw [value, value, hkept g (hall g hg)]
      rw [level, level, hvalue]
    have hkeys : ∀ g ∈ depth.keys, g ∈ (depth.set a (level readsOf depth a)).keys := fun g => hstep.mem
    have hget : (depth.set a (level readsOf depth a)).get f = some d := hd
    by_cases hf : f = a
    · subst hf
      rw [Dict.get_set, if_pos rfl] at hget
      obtain rfl := Option.some.inj hget
      exact ⟨hlevel f hnext, fun g hg => hkeys g (hnext g hg)⟩
    · rw [Dict.get_set, if_neg hf] at hget
      obtain ⟨hd, hreads⟩ := ih hget
      exact ⟨hd.trans (hlevel f hreads), fun g hg => hkeys g (hreads g hg)⟩

/-- What the search finds, as `visit` ends. -/
def found (f : M × N) (visiting : List (M × N)) :
    Except (M × N) (Dict (M × N) ℕ) → Except (RegistryError M N) (ℕ × Visits M N) :=
  relabel (fun depth => (value depth f, depth, visiting)) .cycle

/-- The loop of `visit`: the depths that are found on the way are those found in the end. -/
theorem each_visit {body : List ℕ × Visits M N → M × N → Option (Except (RegistryError M N) (List ℕ × Visits M N))}
    (hbody : ∀ ds depth g r, search (depthMarks readsOf) readsOf fuel visiting depth g = some r →
      body (ds, depth, visiting) g =
        some (relabel (fun depth' => (ds ++ [value depth' g], depth', visiting)) .cycle r))
    (ds : List ℕ) {gs : List (M × N)} {r : Except (M × N) (Dict (M × N) ℕ)}
    (h : each (search (depthMarks readsOf) readsOf fuel visiting) gs depth = some r) :
    each body gs (ds, depth, visiting) =
      some (relabel (fun depth' => (ds ++ gs.map (value depth'), depth', visiting)) .cycle r) := by
  induction gs generalizing depth ds with
  | nil =>
    obtain rfl : .ok depth = r := Option.some.inj h
    rw [each, relabel, List.map_nil, List.append_nil]
  | cons g gs ih =>
    rw [each] at h
    split at h
    next t ht =>
      rw [each, hbody ds depth g _ ht, relabel]
      dsimp only
      rw [ih _ h]
      cases r with
      | error c => rfl
      | ok depth' =>
        have hpassed := (each_finds (fun s a s' => search_finds) h).passed
        have hg : g ∈ t.keys := (search_finds ht).marked g List.mem_cons_self
        have hvalue : value depth' g = value t g := by rw [value, value, get_of_passed hpassed hg]
        rw [relabel, relabel, List.map_cons, hvalue, List.append_assoc, List.singleton_append]
    next e he =>
      obtain rfl : .error e = r := Option.some.inj h
      rw [each, hbody ds depth g _ he, relabel, relabel]
    next => cases h

/-- **`visit` is a search that refuses cycles**; its path is `visiting`. -/
theorem visit_of_search {r : Except (M × N) (Dict (M × N) ℕ)}
    (h : search (depthMarks readsOf) readsOf fuel visiting depth f = some r) :
    visit readsOf fuel (depth, visiting) f = some (found f visiting r) := by
  induction fuel generalizing visiting depth f r with
  | zero => cases h
  | succ fuel ih =>
    rw [visit]
    dsimp only
    cases hget : depth.get f with
    | some d =>
      have hf : f ∈ depth.keys := Dict.mem_keys.mpr ⟨d, hget⟩
      rw [search_of_done hf h, found, relabel, value, hget, Option.getD_some]
    | none =>
      have hf : f ∉ depth.keys := by
        intro hf
        obtain ⟨d, hd⟩ := Dict.mem_keys.mp hf
        rw [hget] at hd
        cases hd
      by_cases hpath : f ∈ visiting
      · rw [search_of_path hf hpath h]
        dsimp only
        rw [if_pos hpath, found, relabel]
      · have hmarked : f ∉ (depthMarks readsOf).done depth := hf
        rw [search, if_neg hmarked, if_neg hpath] at h
        dsimp only
        rw [if_neg hpath]
        cases hloop : each (search (depthMarks readsOf) readsOf fuel (f :: visiting)) (readsOf f) depth with
        | none =>
          rw [hloop] at h
          cases h
        | some x =>
          rw [hloop] at h
          rw [each_visit (fun ds t g r hr => ?_) [] hloop]
          · cases x with
            | error c =>
              obtain rfl := Option.some.inj h
              rfl
            | ok t =>
              obtain rfl := Option.some.inj h
              have hself : value (t.set f (level readsOf t f)) f = level readsOf t f := by
                rw [value, Dict.get_set, if_pos rfl, Option.getD_some]
              simp only [relabel, List.nil_append, List.erase_cons_head, found, depthMarks, hself]
              rfl
          · dsimp only
            rw [ih hr]
            cases r <;> rfl

end Search

/-! ## The graph -/

section Graph

variable {S : Schema M N K V} {bs : List (Binding M N)} {f g : M × N}

/-- A field comes back to itself along what fields read. -/
def OnCycle (S : Schema M N K V) (bs : List (Binding M N)) (f : M × N) : Prop :=
  Relation.TransGen (fun f g => g ∈ reads S bs f) f f

/-- What a merged binding has comes from the bindings merged. -/
theorem of_mem_merge {b : Binding M N} (h : b ∈ merge bs) : (∃ c ∈ bs, c.field = b.field) ∧
    ∀ n ∈ b.triggers, ∃ c ∈ bs, c.field = b.field ∧ c.watched = b.watched ∧ n ∈ c.triggers := by
  refine merge_induct (P := fun b => (∃ c ∈ bs, c.field = b.field) ∧
    ∀ n ∈ b.triggers, ∃ c ∈ bs, c.field = b.field ∧ c.watched = b.watched ∧ n ∈ c.triggers) ?_ ?_ b h
  · intro b c hb hc hkey
    refine ⟨hb.1, fun n hn => ?_⟩
    rcases Finset.mem_union.mp hn with hn | hn
    · exact hb.2 n hn
    · obtain ⟨w, hw, hfield, hwatched, hn⟩ := hc.2 n hn
      exact ⟨w, hw, hfield.trans hkey.1.symm, hwatched.trans hkey.2.1.symm, hn⟩
  · exact fun b hb => ⟨⟨b, hb, rfl⟩, fun n hn => ⟨b, hb, rfl, rfl, hn⟩⟩

/-- **No read is lost in the merge, and none is made up.** -/
theorem reads_merge : g ∈ reads S (merge bs) f ↔ g ∈ reads S bs f := by
  rw [mem_reads_iff, mem_reads_iff]
  constructor
  · rintro ⟨b, hb, rfl, hwatched, hn, hs⟩
    obtain ⟨c, hc, hfield, hwatched', hn⟩ := (of_mem_merge hb).2 g.2 hn
    exact ⟨c, hc, hfield, hwatched'.trans hwatched, hn, hs⟩
  · rintro ⟨b, hb, rfl, hwatched, hn, hs⟩
    obtain ⟨c, hc, hincl⟩ := has_merge hb
    exact ⟨c, hc, hincl.key.1, hincl.key.2.1.trans hwatched, hincl.triggers hn, hs⟩

theorem mem_fields : f ∈ fields S bs ↔ (∃ b ∈ bs, b.field = f) ∨ ∃ b ∈ bs, f ∈ reads S bs b.field := by
  rw [fields, List.mem_append, List.mem_map, List.mem_flatMap]

theorem fields_merge : f ∈ fields S (merge bs) ↔ f ∈ fields S bs := by
  have hfield : ∀ f, (∃ b ∈ merge bs, b.field = f) ↔ ∃ b ∈ bs, b.field = f := by
    intro f
    constructor
    · rintro ⟨b, hb, rfl⟩
      exact (of_mem_merge hb).1
    · rintro ⟨b, hb, rfl⟩
      obtain ⟨c, hc, hincl⟩ := has_merge hb
      exact ⟨c, hc, hincl.key.1⟩
  have hread : ∀ cs : List (Binding M N), (∃ b ∈ cs, f ∈ reads S bs b.field) ↔
      ∃ g, (∃ b ∈ cs, b.field = g) ∧ f ∈ reads S bs g := by
    intro cs
    constructor
    · rintro ⟨b, hb, hf⟩
      exact ⟨b.field, ⟨b, hb, rfl⟩, hf⟩
    · rintro ⟨-, ⟨b, hb, rfl⟩, hf⟩
      exact ⟨b, hb, hf⟩
  rw [mem_fields, mem_fields]
  simp only [reads_merge]
  rw [hfield, hread, hread]
  simp only [hfield]

/-- What is read is among the fields. -/
theorem reads_subset_fields (h : g ∈ reads S bs f) : g ∈ fields S bs := by
  obtain ⟨b, hb, rfl, -⟩ := mem_reads_iff.mp h
  exact mem_fields.mpr (.inr ⟨b, hb, h⟩)

/-- A field on a cycle is read. -/
theorem OnCycle.mem_fields (h : OnCycle S bs f) : f ∈ fields S bs := by
  obtain ⟨g, -, hg⟩ := Relation.TransGen.tail'_iff.mp h
  exact reads_subset_fields hg

variable {readOrder : M × N → SetOrder (M × N)} {fieldOrder : SetOrder (M × N)} {fuel : ℕ}

theorem mem_readsOf : (fun f g => g ∈ readsOf S readOrder bs f) = fun f g => g ∈ reads S bs f :=
  funext fun f => funext fun _ => propext (readOrder f).mem_order

/-- The search from all the fields. -/
theorem computeDepths_of_search (hself : (bs.find? fun b => decide (b.field ∈ reads S [b] b.field)) = none)
    {r : Except (M × N) (Dict (M × N) ℕ)}
    (h : each (search (depthMarks (readsOf S readOrder bs)) (readsOf S readOrder bs) fuel [])
      (fieldOrder.order (fields S bs)) .empty = some r) :
    computeDepths S readOrder fieldOrder bs fuel = some (relabel id .cycle r) := by
  rw [computeDepths, hself]
  dsimp only
  rw [each_relabel (fun depth => (depth, [])) RegistryError.cycle (fun depth f _ r hr => ?_) h]
  · cases r <;> rfl
  · rw [visit_of_search hr]
    cases r <;> rfl

/-- **What `_compute_depths` does**: it raises, or it finds the level of every field. -/
theorem computeDepths_spec (S : Schema M N K V) (readOrder : M × N → SetOrder (M × N))
    (fieldOrder : SetOrder (M × N)) (hfuel : (fields S bs).length < fuel) :
    ((∃ e, computeDepths S readOrder fieldOrder bs fuel = some (.error e)) ∧ ∃ f, OnCycle S bs f) ∨
      ∃ depth, computeDepths S readOrder fieldOrder bs fuel = some (.ok depth) ∧ (∀ f, ¬ OnCycle S bs f) ∧
        (∀ f, f ∈ depth.keys ↔ f ∈ fields S bs) ∧
        ∀ f d, depth.get f = some d →
          d = level (readsOf S readOrder bs) depth f ∧ ∀ g ∈ reads S bs f, g ∈ depth.keys := by
  cases hself : bs.find? fun b => decide (b.field ∈ reads S [b] b.field) with
  | some b =>
    refine .inl ⟨⟨.readsItself b.field b.path, by rw [computeDepths, hself]⟩, b.field, .single ?_⟩
    have hself' := List.find?_some hself
    rw [decide_eq_true_iff] at hself'
    obtain ⟨c, hc, hfield, hwatched, hn, hs⟩ := mem_reads_iff.mp hself'
    rw [List.mem_singleton.mp hc] at hwatched hn
    exact mem_reads_iff.mpr ⟨b, List.mem_of_find?_eq_some hself, rfl, hwatched, hn, hs⟩
  | none =>
    have hnodes : ∀ x ∈ fields S bs, ∀ y ∈ readsOf S readOrder bs x, y ∈ fields S bs :=
      fun x _ y hy => reads_subset_fields ((readOrder x).mem_order.mp hy)
    have hroots : ∀ x ∈ fieldOrder.order (fields S bs), x ∈ fields S bs := fun x => fieldOrder.mem_order.mp
    have hok := each_search_ok_iff (m := depthMarks (readsOf S readOrder bs)) (s := Dict.empty) hnodes hroots hfuel rfl
    rw [mem_readsOf] at hok
    by_cases hcycle : ∃ f, OnCycle S bs f
    · obtain ⟨f, hf⟩ := hcycle
      refine .inl ⟨?_, f, hf⟩
      have hsome : each (search (depthMarks (readsOf S readOrder bs)) (readsOf S readOrder bs) fuel [])
          (fieldOrder.order (fields S bs)) .empty ≠ none := by
        refine each_ne_none fun x hx t => search_ne_none hnodes (hroots x hx) List.nodup_nil (List.nil_subset _) ?_
        rwa [List.length_nil, Nat.add_zero]
      obtain ⟨r, hr⟩ := Option.ne_none_iff_exists'.mp hsome
      cases r with
      | ok depth => exact absurd hf (hok.mp ⟨depth, hr⟩ f (fieldOrder.mem_order.mpr hf.mem_fields) f .refl)
      | error c => exact ⟨.cycle c, computeDepths_of_search hself hr⟩
    · have hnone : ∀ f, ¬ OnCycle S bs f := fun f hf => hcycle ⟨f, hf⟩
      obtain ⟨depth, hdepth⟩ := hok.mpr fun x _ c _ => hnone c
      have hfinds := each_finds (fun s a s' => search_finds) hdepth
      refine .inr ⟨depth, computeDepths_of_search hself hdepth, hnone, fun f => ?_, fun f d hd => ?_⟩
      · constructor
        · intro hf
          obtain ⟨x, hx, hreach⟩ := (hfinds.mem_iff rfl).mp hf
          rcases Relation.ReflTransGen.cases_tail hreach with rfl | ⟨y, -, hy⟩
          · exact hroots _ hx
          · exact reads_subset_fields ((readOrder y).mem_order.mp hy)
        · exact fun hf => hfinds.marked f (fieldOrder.mem_order.mpr hf)
      · obtain ⟨hlevel, hreads⟩ := level_of_passed hfinds.passed hd
        exact ⟨hlevel, fun g hg => hreads g ((readOrder f).mem_order.mpr hg)⟩

/-- **The depths of the stored computed fields.**  Whatever the bindings that are merged, and in whatever order the
sets of fields are iterated: something is raised exactly where a field comes back to itself along what the bindings
read, and otherwise every field has a depth, greater than that of each field it reads. -/
theorem compute_depths (S : Schema M N K V) (readOrder : M × N → SetOrder (M × N)) (fieldOrder : SetOrder (M × N))
    (bs : List (Binding M N)) (fuel : ℕ) (hfuel : (fields S (merge bs)).length < fuel) :
    ((∃ e, computeDepths S readOrder fieldOrder (merge bs) fuel = some (.error e)) ↔ ∃ f, OnCycle S bs f) ∧
    ((∀ f, ¬ OnCycle S bs f) → ∃ depth, computeDepths S readOrder fieldOrder (merge bs) fuel = some (.ok depth) ∧
      (∀ f ∈ fields S bs, ∃ d, depth.get f = some d) ∧
      ∀ f, ∀ g ∈ reads S bs f, ∃ d d', depth.get f = some d ∧ depth.get g = some d' ∧ d' < d) := by
  have hreads : (fun f g => g ∈ reads S (merge bs) f) = fun f g => g ∈ reads S bs f :=
    funext fun f => funext fun g => propext reads_merge
  have hmerge : ∀ f, OnCycle S (merge bs) f ↔ OnCycle S bs f := fun f => by rw [OnCycle, hreads, OnCycle]
  rcases computeDepths_spec S readOrder fieldOrder hfuel with
    ⟨herror, f, hf⟩ | ⟨depth, hdepth, hnone, hkeys, hlevel⟩
  · have hcycle : ∃ f, OnCycle S bs f := ⟨f, (hmerge f).mp hf⟩
    exact ⟨iff_of_true herror hcycle, fun hnone => absurd hcycle.choose_spec (hnone _)⟩
  · refine ⟨iff_of_false ?_ ?_, fun _ => ⟨depth, hdepth, fun f hf => ?_, fun f g hg => ?_⟩⟩
    · rintro ⟨e, he⟩
      rw [hdepth] at he
      cases he
    · rintro ⟨f, hf⟩
      exact hnone f ((hmerge f).mpr hf)
    · exact Dict.mem_keys.mp ((hkeys f).mpr (fields_merge.mpr hf))
    · have hg' : g ∈ reads S (merge bs) f := reads_merge.mpr hg
      have hf : f ∈ fields S (merge bs) := by
        obtain ⟨b, hb, hfield, -⟩ := mem_reads_iff.mp hg'
        exact mem_fields.mpr (.inl ⟨b, hb, hfield⟩)
      obtain ⟨d, hd⟩ := Dict.mem_keys.mp ((hkeys f).mpr hf)
      obtain ⟨hd', hread⟩ := hlevel f d hd
      obtain ⟨d', hgd⟩ := Dict.mem_keys.mp (hread g hg')
      refine ⟨d, d', hd, hgd, ?_⟩
      have hvalue : value depth g = d' := by rw [value, hgd, Option.getD_some]
      rw [hd', level, ← hvalue]
      exact lt_foldr_max (List.mem_map_of_mem ((readOrder f).mem_order.mpr hg'))

end Graph

/-- One model, with two stored fields and a column. -/
def nested : Schema Unit (Fin 3) Unit Unit where
  models := [()]
  fields _ := [⟨0, .computed [[1]] false⟩, ⟨1, .computed [[2]] false⟩, ⟨2, .column⟩]
  maxHops := 3
  compute _ _ _ _ := ()
  equals _ _ _ _ := false
  mem_models _ := List.mem_singleton_self _
  names_nodup _ := by decide

/-- The binding of a field to another one of the same row. -/
def readBy (reading read : Fin 3) : Binding Unit (Fin 3) := ⟨((), reading), (), [], {read}, ∅, false, none⟩

theorem compute_depths_sample :
    (∃ depth, computeDepths nested (fun _ => ⟨List.dedup, fun _ => .refl _⟩) ⟨List.dedup, fun _ => .refl _⟩
        (merge [readBy 0 1, readBy 1 2, readBy 0 2]) 9 = some (.ok depth) ∧
      (∀ f ∈ fields nested [readBy 0 1, readBy 1 2, readBy 0 2], ∃ d, depth.get f = some d) ∧
      ∀ f, ∀ g ∈ reads nested [readBy 0 1, readBy 1 2, readBy 0 2] f,
        ∃ d d', depth.get f = some d ∧ depth.get g = some d' ∧ d' < d) ∧
    ∃ e, computeDepths nested (fun _ => ⟨List.dedup, fun _ => .refl _⟩) ⟨List.dedup, fun _ => .refl _⟩
      (merge [readBy 0 1, readBy 1 0]) 9 = some (.error e) := by
  constructor
  · refine (compute_depths nested _ _ [readBy 0 1, readBy 1 2, readBy 0 2] 9 (by decide)).2 fun f hf => ?_
    have hlt : ∀ f g, g ∈ reads nested [readBy 0 1, readBy 1 2, readBy 0 2] f → f.2 < g.2 := by
      rintro ⟨⟨⟩, i⟩ ⟨⟨⟩, j⟩
      revert i j
      decide
    have hself : Relation.TransGen (fun i j : Fin 3 => i < j) f.2 f.2 := Relation.TransGen.lift Prod.snd hlt f f hf
    rw [Relation.transGen_eq_self] at hself
    exact Fin.lt_irrefl f.2 hself
  · refine (compute_depths nested _ _ [readBy 0 1, readBy 1 0] 9 (by decide)).1.mpr ⟨((), 0), ?_⟩
    have hreads : ((), 1) ∈ reads nested [readBy 0 1, readBy 1 0] ((), 0) ∧
        ((), 0) ∈ reads nested [readBy 0 1, readBy 1 0] ((), 1) := by decide
    exact .tail (.single hreads.1) hreads.2

/-! ## The registry -/

section Registry

variable {S : Schema M N K V} {bs : List (Binding M N)} {f g : M × N} {readOrder : M × N → SetOrder (M × N)}
  {fieldOrder : SetOrder (M × N)} {fuel : ℕ}

/-- Where no field is on a cycle, no chain of reads is longer than there are stored fields. -/
theorem visit_isSome {next : M × N → List (M × N)} {nodes : List (M × N)} (hnodes : ∀ f, next f ⊆ nodes)
    (hacyclic : ∀ f, ¬ Relation.TransGen (fun f g => g ∈ next f) f f) (path : List (M × N)) {visiting : List (M × N)}
    (hf : f ∈ nodes) (hpath : path.Nodup) (hsub : path ⊆ nodes) (hfuel : nodes.length ≤ fuel + path.length)
    (hvisiting : ∀ x ∈ visiting, Relation.TransGen (fun f g => g ∈ next f) x f) (hpv : path ⊆ visiting) :
    (Computed.visit next fuel visiting f).isSome := by
  induction fuel generalizing f path visiting with
  | zero =>
    have hnew : f ∉ path := fun h => hacyclic f (hvisiting f (hpv h))
    have hle := (List.subperm_of_subset (List.nodup_cons.mpr ⟨hnew, hpath⟩) (List.cons_subset.mpr ⟨hf, hsub⟩)).length_le
    rw [List.length_cons] at hle
    omega
  | succ fuel ih =>
    have hnew : f ∉ visiting := fun h => hacyclic f (hvisiting f h)
    have hall : ((next f).mapM (Computed.visit next fuel (f :: visiting))).isSome := by
      refine isSome_mapM.mpr fun g hg => ?_
      refine ih (f :: path) (hnodes f hg) ?_ (List.cons_subset.mpr ⟨hf, hsub⟩) ?_ ?_ ?_
      · exact List.nodup_cons.mpr ⟨fun h => hnew (hpv h), hpath⟩
      · rw [List.length_cons]
        omega
      · exact List.forall_mem_cons.mpr ⟨.single hg, fun x hx => (hvisiting x hx).tail hg⟩
      · exact List.cons_subset_cons f hpv
    obtain ⟨ds, hds⟩ := Option.isSome_iff_exists.mp hall
    unfold Computed.visit
    rw [if_neg hnew, hds]
    rfl

theorem reads_subset_storedFields : reads S bs f ⊆ S.storedFields.map Prod.fst := by
  intro g hg
  obtain ⟨b, -, -, -, -, hs⟩ := mem_reads_iff.mp hg
  obtain ⟨deps, hdeps⟩ := Schema.isStored_iff.mp hs
  exact List.mem_map_of_mem (storedFields_mem hdeps)

theorem visit_root_isSome (hacyclic : ∀ f, ¬ OnCycle S bs f) :
    (Computed.visit (reads S bs) (S.storedFields.length + 1) [] f).isSome := by
  have hlength : (S.storedFields.map Prod.fst).length = S.storedFields.length := List.length_map _
  have hall : ((reads S bs f).mapM (Computed.visit (reads S bs) S.storedFields.length [f])).isSome := by
    refine isSome_mapM.mpr fun g hg => visit_isSome (fun f => reads_subset_storedFields) hacyclic []
      (reads_subset_storedFields hg) List.nodup_nil (List.nil_subset _) (by rw [hlength]; exact Nat.le_refl _) ?_
      (List.nil_subset _)
    rintro x hx
    rw [List.mem_singleton.mp hx]
    exact .single hg
  obtain ⟨ds, hds⟩ := Option.isSome_iff_exists.mp hall
  unfold Computed.visit
  rw [if_neg List.not_mem_nil, hds]
  rfl

/-- The depth found by the registry is the level. -/
theorem visit_eq {depth : Dict (M × N) ℕ}
    (hlevel : ∀ f d, depth.get f = some d →
      d = level (readsOf S readOrder bs) depth f ∧ ∀ g ∈ reads S bs f, g ∈ depth.keys)
    {n d : ℕ} {visiting : List (M × N)} (hf : f ∈ depth.keys)
    (h : Computed.visit (reads S bs) n visiting f = some d) : depth.get f = some d := by
  induction n generalizing f visiting d with
  | zero => cases h
  | succ n ih =>
    obtain ⟨d₀, hd₀⟩ := Dict.mem_keys.mp hf
    obtain ⟨hlevel₀, hreads⟩ := hlevel f d₀ hd₀
    obtain ⟨-, ds, hds, rfl⟩ := visit_ok h
    have hvalues := mapM_eq_some.mp hds
    -- the depths of what is read, whatever the order in which it is gone through
    have hmem : ∀ x, x ∈ ds ↔ x ∈ (readsOf S readOrder bs f).map (value depth) := by
      intro x
      rw [List.mem_map]
      constructor
      · intro hx
        obtain ⟨g, hg, hvisit⟩ := forall₂_right hvalues x hx
        have hget := ih (hreads g hg) hvisit
        exact ⟨g, (readOrder f).mem_order.mpr hg, by rw [value, hget, Option.getD_some]⟩
      · rintro ⟨g, hg, rfl⟩
        obtain ⟨x, hx, hvisit⟩ := forall₂_left hvalues g ((readOrder f).mem_order.mp hg)
        rwa [value, ih (hreads g ((readOrder f).mem_order.mp hg)) hvisit, Option.getD_some]
    have hle : ∀ n, (ds.map (· + 1)).foldr max 0 ≤ n ↔ d₀ ≤ n := by
      intro n
      rw [hlevel₀, level, foldr_max_le_iff, foldr_max_le_iff, List.forall_mem_map, List.forall_mem_map]
      exact forall_congr' fun x => imp_congr (hmem x) Iff.rfl
    rw [hd₀, Nat.le_antisymm ((hle d₀).mpr (Nat.le_refl _)) ((hle _).mp (Nat.le_refl _))]

/-- **The search finds the depths of the registry**, and raises where it does. -/
theorem computeDepths_agrees (hfuel : (fields S bs).length < fuel) :
    match computeDepths S readOrder fieldOrder bs fuel, Computed.computeDepths S bs with
    | some (.ok depth), .ok depths => ∀ f, depths f = depth.get f
    | some (.error _), .error _ => True
    | _, _ => False := by
  rcases computeDepths_spec S readOrder fieldOrder hfuel with
    ⟨⟨e, he⟩, f, hf⟩ | ⟨depth, hdepth, hnone, hkeys, hlevel⟩
  · rw [he]
    cases hreg : Computed.computeDepths S bs with
    | error e' => trivial
    | ok depths =>
      -- depths go down along what is read, so no field comes back to itself
      have hlt : ∀ {g}, Relation.TransGen (fun f g => g ∈ reads S bs f) f g →
          ∃ d d', depths f = some d ∧ depths g = some d' ∧ d' < d := by
        intro g hg
        induction hg with
        | single hg => exact computeDepths_lt hreg hg
        | tail _ hg ih =>
          obtain ⟨d, d', hd, hd', hlt⟩ := ih
          obtain ⟨d₁, d₂, hd₁, hd₂, hlt'⟩ := computeDepths_lt hreg hg
          rw [hd'] at hd₁
          obtain rfl := Option.some.inj hd₁
          exact ⟨d, d₂, hd, hd₂, hlt'.trans hlt⟩
      obtain ⟨d, d', hd, hd', hlt⟩ := hlt hf
      rw [hd] at hd'
      exact absurd (Option.some.inj hd') (Nat.ne_of_gt hlt)
  · rw [hdepth]
    have hself : (bs.find? fun b => decide (b.field ∈ reads S [b] b.field)) = none := by
      rw [List.find?_eq_none]
      intro b hb hself
      obtain ⟨c, hc, -, hwatched, hn, hs⟩ := mem_reads_iff.mp (of_decide_eq_true hself)
      rw [List.mem_singleton.mp hc] at hwatched hn
      exact hnone b.field (.single (mem_reads_iff.mpr ⟨b, hb, rfl, hwatched, hn, hs⟩))
    have hvisit : ∀ f, (Computed.visit (reads S bs) (S.storedFields.length + 1) [] f).isSome := fun f =>
      visit_root_isSome hnone
    have hfound : ((fields S bs).find? fun f =>
        (Computed.visit (reads S bs) (S.storedFields.length + 1) [] f).isNone) = none := by
      rw [List.find?_eq_none]
      intro f _
      simpa using Option.isSome_iff_ne_none.mp (hvisit f)
    rw [Computed.computeDepths, hself]
    dsimp only
    rw [← fields, hfound]
    intro f
    by_cases hf : f ∈ fields S bs
    · obtain ⟨d, hd⟩ := Option.isSome_iff_exists.mp (hvisit f)
      dsimp only
      rw [if_pos hf, hd, visit_eq hlevel ((hkeys f).mpr hf) hd]
    · dsimp only
      rw [if_neg hf, Dict.get_eq_none_of_notMem fun h => hf ((hkeys f).mp h)]

end Registry

end Totem.Computed.Depths
