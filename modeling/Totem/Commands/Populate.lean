import Totem.Lib.DepthFirst
import Totem.Lib.Dict
import Totem.Lib.Fallible
import Mathlib.Data.List.Lattice

/-!
# Totem.Commands.Populate — the order in which apps are populated

* `topologicalSortAsSets`, `stableTopologicalSort`: the layers of the whole dependency map.
* `depResolve`: the search from one app, with the apps resolved and those it is in the middle of.
* `resolveDependencyOrder`: the layers, cut to what the searches have found.
* `resolve_dependency_order`: what is returned, and what is not.
-/

namespace Totem.Commands

open Lib Lib.DepthFirst

/-! ## The command -/

/-- What is raised: a lookup in the dependency map, `Circular reference detected` and `CyclicDependencyError`. -/
inductive PopulateError (A : Type*)
  | keyError (app : A)
  | circularReference
  | cyclicDependency (todo : List (A × List A))

variable {A : Type*} [DecidableEq A]

/-- One round of the sort: what is left once `current` is yielded. -/
def withoutLayer (current : List A) (todo : List (A × List A)) : List (A × List A) :=
  (todo.filter fun x => decide (x.1 ∉ current)).map fun x => (x.1, x.2.filter fun d => decide (d ∉ current))

/-- The nodes that depend on nothing. -/
def currentLayer (todo : List (A × List A)) : List A := (todo.filter fun x => x.2.isEmpty).map Prod.fst

theorem length_withoutLayer_lt {todo : List (A × List A)} (h : currentLayer todo ≠ []) :
    (withoutLayer (currentLayer todo) todo).length < todo.length := by
  obtain ⟨a, ha⟩ := List.exists_mem_of_ne_nil _ h
  obtain ⟨x, hx, rfl⟩ := List.mem_map.mp ha
  rw [withoutLayer, List.length_map, List.length_filter_lt_length_iff_exists]
  exact ⟨x, (List.mem_filter.mp hx).1, by simpa using ha⟩

/-- `topological_sort_as_sets`, with all that it yields. -/
def topologicalSortAsSets (todo : List (A × List A)) : Except (PopulateError A) (List (List A)) :=
  if todo = [] then .ok []
  else if _h : currentLayer todo = [] then .error (.cyclicDependency todo)
  else do
    let layers ← topologicalSortAsSets (withoutLayer (currentLayer todo) todo)
    return currentLayer todo :: layers
termination_by todo.length
decreasing_by exact length_withoutLayer_lt _h

/-- `stable_topological_sort`. -/
def stableTopologicalSort (nodes : List A) (dependency_graph : Dict A (List A)) :
    Except (PopulateError A) (List A) := do
  let layers ← topologicalSortAsSets dependency_graph.entries
  return layers.flatMap fun layer => nodes.filter fun node => decide (node ∈ layer)

/-- `dep_resolve`, from `resolved` and `unresolved`; calls are at most `fuel` deep. -/
def depResolve (dependency_map : Dict A (List A)) :
    ℕ → A → List A × List A → Option (Except (PopulateError A) (List A × List A))
  | 0, _, _ => none
  | fuel + 1, app_name, (resolved, unresolved) =>
    match dependency_map.get app_name with
    | none => some (.error (.keyError app_name))
    | some edges =>
      match each (fun lists edge =>
          if edge ∈ lists.1 then some (.ok lists)
          else if edge ∈ lists.2 then some (.error .circularReference)
          else depResolve dependency_map fuel edge lists) edges (resolved, unresolved ++ [app_name]) with
      | some (.ok lists) => some (.ok (lists.1 ++ [app_name], lists.2.erase app_name))
      | some (.error e) => some (.error e)
      | none => none

/-- The apps found so far, with what one more app leads to. -/
def collect (dependency_map : Dict A (List A)) (fuel : ℕ) (deps : List A) (app_name : A) :
    Option (Except (PopulateError A) (List A)) :=
  match depResolve dependency_map fuel app_name ([], []) with
  | some (.ok lists) => some (.ok (deps ++ lists.1))
  | some (.error e) => some (.error e)
  | none => none

/-- `resolve_dependency_order`. -/
def resolveDependencyOrder (setOrder : SetOrder A) (dependency_map : Dict A (List A)) (fuel : ℕ) (app_list : List A) :
    Option (Except (PopulateError A) (List A)) :=
  match each (collect dependency_map fuel) app_list [] with
  | some (.ok deps) => some (stableTopologicalSort (setOrder.order deps) dependency_map)
  | some (.error e) => some (.error e)
  | none => none

/-! ## Dependencies -/

def edges (dependency_map : Dict A (List A)) (app_name : A) : List A := (dependency_map.get app_name).getD []

/-- `a` depends on `b`. -/
def DependsOn (dependency_map : Dict A (List A)) (a b : A) : Prop := b ∈ edges dependency_map a

/-- The map names only apps it has as keys. -/
def Closed (dependency_map : Dict A (List A)) : Prop := ∀ a b, DependsOn dependency_map a b → b ∈ dependency_map.keys

section

variable {dependency_map : Dict A (List A)} {todo : List (A × List A)} {current apps : List A} {layers : List (List A)}
  {a b : A} {deps : List A}

theorem dependsOn_iff (h : dependency_map.get a = some deps) : DependsOn dependency_map a b ↔ b ∈ deps := by
  unfold DependsOn edges
  rw [h, Option.getD_some]

theorem mem_keys_of_dependsOn (h : DependsOn dependency_map a b) : a ∈ dependency_map.keys := by
  cases hget : dependency_map.get a with
  | none =>
    rw [DependsOn, edges, hget] at h
    cases h
  | some deps => exact Dict.mem_keys.mpr ⟨deps, hget⟩

/-! ### Layers -/

/-- What is left of the dependency map after some rounds: the dependencies that are still to be yielded. -/
structure Rest (dependency_map : Dict A (List A)) (todo : List (A × List A)) : Prop where
  nodup : (todo.map Prod.fst).Nodup
  mem_iff : ∀ x ∈ todo, ∀ b, b ∈ x.2 ↔ DependsOn dependency_map x.1 b ∧ b ∈ todo.map Prod.fst

/-- Layers of some apps, each depending on those of the layers before it. -/
structure Layered (dependency_map : Dict A (List A)) (apps : List A) (layers : List (List A)) : Prop where
  mem_iff : ∀ a, a ∈ layers.flatten ↔ a ∈ apps
  nodup : layers.flatten.Nodup
  apart : ∀ layer ∈ layers, ∀ a ∈ layer, ∀ b ∈ layer, ¬ DependsOn dependency_map a b
  after : layers.Pairwise fun l l' => ∀ a ∈ l, ∀ b ∈ l', ¬ DependsOn dependency_map a b

theorem rest_entries (h : Closed dependency_map) : Rest dependency_map dependency_map.entries := by
  refine ⟨dependency_map.nodup, fun x hx b => ?_⟩
  have hget : dependency_map.get x.1 = some x.2 := Dict.mem_entries.mp hx
  rw [dependsOn_iff hget]
  exact ⟨fun hb => ⟨hb, h x.1 b ((dependsOn_iff hget).mpr hb)⟩, And.left⟩

theorem map_fst_withoutLayer :
    (withoutLayer current todo).map Prod.fst = (todo.map Prod.fst).filter fun a => decide (a ∉ current) := by
  rw [withoutLayer, List.map_map, List.filter_map]
  rfl

theorem Rest.withoutLayer (h : Rest dependency_map todo) : Rest dependency_map (withoutLayer current todo) := by
  refine ⟨?_, fun x hx b => ?_⟩
  · rw [map_fst_withoutLayer]
    exact h.nodup.filter _
  · obtain ⟨y, hy, rfl⟩ := List.mem_map.mp hx
    have hiff := h.mem_iff y (List.mem_filter.mp hy).1 b
    rw [map_fst_withoutLayer, List.mem_filter, List.mem_filter, hiff, and_assoc]

omit [DecidableEq A] in
theorem mem_currentLayer : a ∈ currentLayer todo ↔ (a, []) ∈ todo := by
  unfold currentLayer
  rw [List.mem_map]
  constructor
  · rintro ⟨x, hx, rfl⟩
    obtain ⟨hx, hempty⟩ := List.mem_filter.mp hx
    rwa [← List.isEmpty_iff.mp hempty]
  · intro h
    exact ⟨(a, []), List.mem_filter.mpr ⟨h, rfl⟩, rfl⟩

/-- What is yielded depends on nothing that is left. -/
theorem Rest.not_dependsOn (h : Rest dependency_map todo) (ha : a ∈ currentLayer todo) (hb : b ∈ todo.map Prod.fst) :
    ¬ DependsOn dependency_map a b := by
  intro hdep
  have hnil := (h.mem_iff (a, []) (mem_currentLayer.mp ha) b).mpr ⟨hdep, hb⟩
  exact List.not_mem_nil hnil

/-- **The layers that are yielded.** -/
theorem Rest.layered (h : Rest dependency_map todo) (hok : topologicalSortAsSets todo = .ok layers) :
    Layered dependency_map (todo.map Prod.fst) layers := by
  induction todo using topologicalSortAsSets.induct generalizing layers with
  | case1 =>
    rw [topologicalSortAsSets, if_pos rfl] at hok
    obtain rfl := Except.ok.inj hok
    exact ⟨fun a => Iff.rfl, List.nodup_nil, fun l hl => absurd hl List.not_mem_nil, .nil⟩
  | case2 todo hne hnone =>
    rw [topologicalSortAsSets, if_neg hne, dif_pos hnone] at hok
    cases hok
  | case3 todo hne hsome ih =>
    rw [topologicalSortAsSets, if_neg hne, dif_neg hsome] at hok
    obtain ⟨rest, hrest, hok⟩ := bind_eq_ok.mp hok
    obtain rfl := Except.ok.inj hok
    have hlayered := ih h.withoutLayer hrest
    have hsub : ∀ a ∈ currentLayer todo, a ∈ todo.map Prod.fst := fun a ha =>
      List.mem_map_of_mem (mem_currentLayer.mp ha)
    have hmem : ∀ a, a ∈ rest.flatten ↔ a ∈ todo.map Prod.fst ∧ a ∉ currentLayer todo := by
      intro a
      rw [hlayered.mem_iff, map_fst_withoutLayer, List.mem_filter, decide_eq_true_iff]
    refine ⟨fun a => ?_, ?_, ?_, ?_⟩
    · rw [List.flatten_cons, List.mem_append, hmem]
      constructor
      · rintro (ha | ⟨ha, -⟩)
        · exact hsub a ha
        · exact ha
      · intro ha
        by_cases hcurrent : a ∈ currentLayer todo
        · exact .inl hcurrent
        · exact .inr ⟨ha, hcurrent⟩
    · rw [List.flatten_cons]
      have hcurrent : (currentLayer todo).Nodup := h.nodup.sublist (List.filter_sublist.map _)
      exact hcurrent.append hlayered.nodup fun a ha ha' => ((hmem a).mp ha').2 ha
    · refine List.forall_mem_cons.mpr ⟨fun a ha b hb => ?_, hlayered.apart⟩
      exact h.not_dependsOn ha (hsub b hb)
    · refine List.pairwise_cons.mpr ⟨fun l hl a ha b hb => ?_, hlayered.after⟩
      exact h.not_dependsOn ha ((hmem b).mp (List.mem_flatten.mpr ⟨l, hl, hb⟩)).1

/-- Without a cycle, some app depends on nothing that is left. -/
theorem Rest.currentLayer_ne_nil (h : Rest dependency_map todo) (hne : todo ≠ [])
    (hends : ∀ a ∈ todo.map Prod.fst, Ends (edges dependency_map) a) : currentLayer todo ≠ [] := by
  obtain ⟨x, hx⟩ := List.exists_mem_of_ne_nil todo hne
  have hacc := ends_iff_acc.mp (hends x.1 (List.mem_map_of_mem hx))
  generalize ha : x.1 = a at hacc
  induction hacc generalizing x with
  | intro a _ ih =>
    cases hdeps : x.2 with
    | nil =>
      have hmem : (x.1, []) ∈ todo := hdeps ▸ hx
      exact List.ne_nil_of_mem (mem_currentLayer.mpr hmem)
    | cons b deps =>
      have hb := (h.mem_iff x hx b).mp (hdeps ▸ List.mem_cons_self)
      obtain ⟨y, hy, rfl⟩ := List.mem_map.mp hb.2
      exact ih y.1 (ha ▸ hb.1) y hy rfl

theorem Rest.exists_layers (h : Rest dependency_map todo)
    (hends : ∀ a ∈ todo.map Prod.fst, Ends (edges dependency_map) a) :
    ∃ layers, topologicalSortAsSets todo = .ok layers := by
  induction todo using topologicalSortAsSets.induct with
  | case1 => exact ⟨[], by rw [topologicalSortAsSets, if_pos rfl]⟩
  | case2 todo hne hnone => exact absurd hnone (h.currentLayer_ne_nil hne hends)
  | case3 todo hne hsome ih =>
    have hrest : ∀ a ∈ (Commands.withoutLayer (currentLayer todo) todo).map Prod.fst,
        Ends (edges dependency_map) a := by
      intro a ha
      rw [map_fst_withoutLayer] at ha
      exact hends a (List.mem_filter.mp ha).1
    obtain ⟨layers, hlayers⟩ := ih h.withoutLayer hrest
    refine ⟨currentLayer todo :: layers, ?_⟩
    rw [topologicalSortAsSets, if_neg hne, dif_neg hsome, hlayers]
    rfl

/-- **The sort of some nodes by their layers**: each of them once, and none before one it depends on. -/
theorem Layered.stable (h : Layered dependency_map apps layers) {nodes : List A} (hnodes : nodes.Nodup)
    (hsub : ∀ a ∈ nodes, a ∈ apps) :
    let order := layers.flatMap fun layer => nodes.filter fun node => decide (node ∈ layer)
    order.Nodup ∧ (∀ a, a ∈ order ↔ a ∈ nodes) ∧ order.Pairwise fun a b => ¬ DependsOn dependency_map a b := by
  have hmem : ∀ layer : List A, ∀ a ∈ nodes.filter fun node => decide (node ∈ layer), a ∈ layer := fun layer a ha => by
    simpa using (List.mem_filter.mp ha).2
  refine ⟨?_, fun a => ?_, ?_⟩
  · refine List.nodup_flatMap.mpr ⟨fun layer _ => hnodes.filter _, ?_⟩
    refine (List.nodup_flatten.mp h.nodup).2.imp fun hdisjoint a ha ha' => ?_
    exact hdisjoint (hmem _ a ha) (hmem _ a ha')
  · rw [List.mem_flatMap]
    constructor
    · rintro ⟨layer, -, ha⟩
      exact (List.mem_filter.mp ha).1
    · intro ha
      obtain ⟨layer, hlayer, halayer⟩ := List.mem_flatten.mp ((h.mem_iff a).mpr (hsub a ha))
      exact ⟨layer, hlayer, List.mem_filter.mpr ⟨ha, decide_eq_true halayer⟩⟩
  · refine List.pairwise_flatMap.mpr ⟨fun layer hlayer => ?_, ?_⟩
    · refine List.pairwise_of_forall_mem_list fun a ha b hb => ?_
      exact h.apart layer hlayer a (hmem layer a ha) b (hmem layer b hb)
    · exact h.after.imp fun hafter a ha b hb => hafter a (hmem _ a ha) b (hmem _ b hb)

/-! ### The search -/

/-- `resolved`, as the marks of a search. -/
def resolvedMarks : Marks A (List A) := ⟨id, fun resolved a => resolved ++ [a], fun _ _ _ => rfl⟩

/-- What the search finds, as `dep_resolve` ends. -/
def outcome (unresolved : List A) : Except A (List A) → Except (PopulateError A) (List A × List A) :=
  relabel (fun resolved => (resolved, unresolved)) fun _ => .circularReference

/-- **`dep_resolve` is the search** along the dependencies, from an app that no list has; its path is `unresolved`. -/
theorem depResolve_of_search (hclosed : Closed dependency_map) {fuel : ℕ} {resolved unresolved : List A}
    (ha : a ∈ dependency_map.keys) (hresolved : a ∉ resolved) (hunresolved : a ∉ unresolved) {r : Except A (List A)}
    (h : search resolvedMarks (edges dependency_map) fuel unresolved.reverse resolved a = some r) :
    depResolve dependency_map fuel a (resolved, unresolved) = some (outcome unresolved r) := by
  induction fuel generalizing a resolved unresolved r with
  | zero => cases h
  | succ fuel ih =>
    obtain ⟨deps, hdeps⟩ := Dict.mem_keys.mp ha
    have hedges : edges dependency_map a = deps := by rw [edges, hdeps, Option.getD_some]
    have hpath : (unresolved ++ [a]).reverse = a :: unresolved.reverse := by simp
    have hmarked : a ∉ resolvedMarks.done resolved := hresolved
    rw [search, if_neg hmarked, if_neg (by simpa using hunresolved), hedges, ← hpath] at h
    rw [depResolve, hdeps]
    dsimp only
    -- one turn of the loop over the edges, and a search from one of them
    have hturn : ∀ lists, ∀ b ∈ deps, ∀ r,
        search resolvedMarks (edges dependency_map) fuel (unresolved ++ [a]).reverse lists b = some r →
          (if b ∈ lists then some (.ok (lists, unresolved ++ [a]))
            else if b ∈ unresolved ++ [a] then some (.error .circularReference)
            else depResolve dependency_map fuel b (lists, unresolved ++ [a])) =
              some (outcome (unresolved ++ [a]) r) := by
      intro lists b hb r hr
      split_ifs with hlists hmem
      · rw [search_of_done hlists hr]
        rfl
      · rw [search_of_path hlists (List.mem_reverse.mpr hmem) hr]
        rfl
      · exact ih (hclosed a b ((dependsOn_iff hdeps).mpr hb)) hlists hmem hr
    cases hloop : each (search resolvedMarks (edges dependency_map) fuel (unresolved ++ [a]).reverse) deps resolved with
    | none =>
      rw [hloop] at h
      cases h
    | some x =>
      rw [hloop] at h
      rw [each_relabel (fun resolved => (resolved, unresolved ++ [a])) _ hturn hloop]
      cases x with
      | ok resolved' =>
        obtain rfl := Option.some.inj h
        have herase : (unresolved ++ [a]).erase a = unresolved := by
          rw [List.erase_append_right _ hunresolved, List.erase_cons_head, List.append_nil]
        simp only [outcome, relabel, herase]
        rfl
      | error c =>
        obtain rfl := Option.some.inj h
        rfl

/-- `a` leads to `b`, by any number of dependencies. -/
def Needs (dependency_map : Dict A (List A)) : A → A → Prop := Relation.ReflTransGen (DependsOn dependency_map)

/-- `a` leads to itself, by one dependency or more. -/
def OnCycle (dependency_map : Dict A (List A)) (a : A) : Prop := Relation.TransGen (DependsOn dependency_map) a a

theorem needs_mem_keys (hclosed : Closed dependency_map) (ha : a ∈ dependency_map.keys) (h : Needs dependency_map a b) :
    b ∈ dependency_map.keys := by
  induction h with
  | refl => exact ha
  | tail _ hb _ => exact hclosed _ _ hb

/-- **One search**: what an app leads to, unless it leads to a cycle. -/
theorem depResolve_spec (hclosed : Closed dependency_map) {fuel : ℕ} (hfuel : dependency_map.keys.length < fuel)
    (ha : a ∈ dependency_map.keys) :
    (∃ lists, depResolve dependency_map fuel a ([], []) = some (.ok lists) ∧
        (∀ b, b ∈ lists.1 ↔ Needs dependency_map a b) ∧
        ∀ b, Needs dependency_map a b → Ends (edges dependency_map) b) ∨
      depResolve dependency_map fuel a ([], []) = some (.error .circularReference) ∧
        ∃ c, Needs dependency_map a c ∧ OnCycle dependency_map c := by
  have hsome : search resolvedMarks (edges dependency_map) fuel [] [] a ≠ none :=
    search_ne_none (fun x _ y => hclosed x y) ha List.nodup_nil (List.nil_subset _) hfuel
  obtain ⟨r, hr⟩ := Option.ne_none_iff_exists'.mp hsome
  have hrun := depResolve_of_search hclosed ha List.not_mem_nil List.not_mem_nil hr
  cases r with
  | ok resolved =>
    have hfinds := search_finds hr
    have hmem : ∀ b, b ∈ resolved ↔ Needs dependency_map a b := by
      intro b
      exact (hfinds.mem_iff rfl).trans (by simp only [List.mem_singleton, exists_eq_left]; rfl)
    exact .inl ⟨(resolved, []), hrun, hmem, fun b hb => hfinds.passed.ends rfl b ((hmem b).mpr hb)⟩
  | error c => exact .inr ⟨hrun, c, search_error hr fun b hb => absurd hb List.not_mem_nil⟩

theorem depResolve_ne_none (hclosed : Closed dependency_map) {fuel : ℕ} (hfuel : dependency_map.keys.length < fuel) :
    depResolve dependency_map fuel a ([], []) ≠ none := by
  by_cases ha : a ∈ dependency_map.keys
  · rcases depResolve_spec hclosed hfuel ha with ⟨lists, h, -⟩ | ⟨h, -⟩
    · rw [h]
      exact Option.some_ne_none _
    · rw [h]
      exact Option.some_ne_none _
  · obtain ⟨fuel, rfl⟩ : ∃ n, fuel = n + 1 := ⟨fuel - 1, by omega⟩
    rw [depResolve, Dict.get_eq_none_of_notMem ha]
    exact Option.some_ne_none _

/-- The loop over the apps that are asked for. -/
theorem each_collect (hclosed : Closed dependency_map) {fuel : ℕ} (hfuel : dependency_map.keys.length < fuel)
    {app_list : List A} (found : List A) (happs : ∀ a ∈ app_list, a ∈ dependency_map.keys)
    (hacyclic : ∀ a, ¬ OnCycle dependency_map a) :
    ∃ all, each (collect dependency_map fuel) app_list found = some (.ok all) ∧
      ∀ b, b ∈ all ↔ b ∈ found ∨ ∃ a ∈ app_list, Needs dependency_map a b := by
  induction app_list generalizing found with
  | nil => exact ⟨found, rfl, fun b => by simp⟩
  | cons a app_list ih =>
    obtain ⟨ha, happs⟩ := List.forall_mem_cons.mp happs
    rcases depResolve_spec hclosed hfuel ha with ⟨lists, hrun, hmem, -⟩ | ⟨-, c, -, hcycle⟩
    · obtain ⟨all, hall, hiff⟩ := ih (found ++ lists.1) happs
      refine ⟨all, each_cons_ok.mpr ⟨found ++ lists.1, ?_, hall⟩, fun b => ?_⟩
      · rw [collect, hrun]
      · rw [hiff, List.mem_append, hmem, List.exists_mem_cons_iff, or_assoc]
    · exact absurd hcycle (hacyclic c)

/-- In a map without cycles, no chain of dependencies goes on for ever. -/
theorem ends_of_acyclic (hclosed : Closed dependency_map) (hacyclic : ∀ a, ¬ OnCycle dependency_map a)
    (ha : a ∈ dependency_map.keys) : Ends (edges dependency_map) a := by
  rcases depResolve_spec hclosed (Nat.lt_succ_self _) ha with ⟨-, -, -, hends⟩ | ⟨-, c, -, hcycle⟩
  · exact hends a .refl
  · exact absurd hcycle (hacyclic c)

/-- Where no app comes before one it depends on, each has all its dependencies before it. -/
theorem mem_front (hacyclic : ∀ a, ¬ OnCycle dependency_map a) {order : List A}
    (hclosed : ∀ a ∈ order, ∀ b, DependsOn dependency_map a b → b ∈ order)
    (horder : order.Pairwise fun a b => ¬ DependsOn dependency_map a b) {front rest : List A}
    (heq : order = front ++ a :: rest) (hb : DependsOn dependency_map a b) : b ∈ front := by
  subst heq
  have hmem := hclosed a (by simp) b hb
  have hrest := (List.pairwise_cons.mp (List.pairwise_append.mp horder).2.1).1
  rcases List.mem_append.mp hmem with hfront | hmem
  · exact hfront
  · rcases List.mem_cons.mp hmem with rfl | hmem
    · exact absurd (Relation.TransGen.single hb) (hacyclic b)
    · exact absurd hb (hrest b hmem)

/-- An app whose dependencies are not resolved. -/
theorem resolveDependencyOrder_error (setOrder : SetOrder A) (hclosed : Closed dependency_map) {app_list : List A}
    {fuel : ℕ} (hfuel : dependency_map.keys.length < fuel) (ha : a ∈ app_list)
    (hfails : ∀ lists, depResolve dependency_map fuel a ([], []) ≠ some (.ok lists)) :
    ∃ e, resolveDependencyOrder setOrder dependency_map fuel app_list = some (.error e) := by
  have hturn : ∀ a ∈ app_list, ∀ found, collect dependency_map fuel found a ≠ none := by
    intro a _ found
    rw [collect]
    split
    next => exact Option.some_ne_none _
    next => exact Option.some_ne_none _
    next h => exact absurd h (depResolve_ne_none hclosed hfuel)
  rw [resolveDependencyOrder]
  cases hloop : each (collect dependency_map fuel) app_list [] with
  | none => exact absurd hloop (each_ne_none hturn)
  | some r =>
    cases r with
    | error e => exact ⟨e, rfl⟩
    | ok all =>
      exfalso
      obtain ⟨found, found', hcollect⟩ := each_ok_of_mem hloop a ha
      rw [collect] at hcollect
      split at hcollect
      next lists h => exact hfails lists h
      next => cases hcollect
      next => cases hcollect

/-- **The order in which apps are populated.**  Where the map names only apps it has and has no cycle, this is what is
asked for with all it depends on, each app once and after its dependencies; and where a cycle can be reached from what
is asked for, or no app is, something is raised. -/
theorem resolve_dependency_order (setOrder : SetOrder A) (dependency_map : Dict A (List A))
    (hclosed : Closed dependency_map) (app_list : List A) (fuel : ℕ) (hfuel : dependency_map.keys.length < fuel) :
    ((∀ a, ¬ OnCycle dependency_map a) → (∀ a ∈ app_list, a ∈ dependency_map.keys) →
      ∃ order, resolveDependencyOrder setOrder dependency_map fuel app_list = some (.ok order) ∧
        order.Nodup ∧ (∀ b, b ∈ order ↔ ∃ a ∈ app_list, Needs dependency_map a b) ∧
        ∀ front a rest, order = front ++ a :: rest → ∀ b, DependsOn dependency_map a b → b ∈ front) ∧
    ((∃ a ∈ app_list, ∃ c, Needs dependency_map a c ∧ OnCycle dependency_map c) →
      ∃ e, resolveDependencyOrder setOrder dependency_map fuel app_list = some (.error e)) ∧
    ((∃ a ∈ app_list, a ∉ dependency_map.keys) →
      ∃ e, resolveDependencyOrder setOrder dependency_map fuel app_list = some (.error e)) := by
  refine ⟨?_, ?_, ?_⟩
  · intro hacyclic happs
    obtain ⟨all, hall, hmem⟩ := each_collect hclosed hfuel [] happs hacyclic
    have hiff : ∀ b, b ∈ all ↔ ∃ a ∈ app_list, Needs dependency_map a b := fun b => by simpa using hmem b
    have hrest := rest_entries hclosed
    obtain ⟨layers, hlayers⟩ := hrest.exists_layers fun a ha => ends_of_acyclic hclosed hacyclic ha
    have hkeys : ∀ b ∈ setOrder.order all, b ∈ dependency_map.keys := by
      intro b hb
      obtain ⟨a, ha, hneeds⟩ := (hiff b).mp (setOrder.mem_order.mp hb)
      exact needs_mem_keys hclosed (happs a ha) hneeds
    obtain ⟨hnodup, hsame, hpairwise⟩ := (hrest.layered hlayers).stable
      (setOrder.nodup_order all) hkeys
    have hall_iff := fun b => (hsame b).trans (setOrder.mem_order.trans (hiff b))
    refine ⟨_, ?_, hnodup, hall_iff, fun front a rest heq b => mem_front hacyclic ?_ hpairwise heq⟩
    · rw [resolveDependencyOrder, hall]
      simp only [stableTopologicalSort, hlayers]
      rfl
    · intro x hx y hy
      obtain ⟨a, ha, hneeds⟩ := (hall_iff x).mp hx
      exact (hall_iff y).mpr ⟨a, ha, hneeds.tail hy⟩
  · rintro ⟨a, ha, c, hneeds, hcycle⟩
    have hkey : a ∈ dependency_map.keys := by
      rcases Relation.ReflTransGen.cases_head hneeds with heq | ⟨b, hb, -⟩
      · obtain ⟨b, hb, -⟩ := Relation.TransGen.head'_iff.mp hcycle
        exact heq ▸ mem_keys_of_dependsOn hb
      · exact mem_keys_of_dependsOn hb
    refine resolveDependencyOrder_error setOrder hclosed hfuel ha fun lists hrun => ?_
    -- a search that is done has met no cycle
    rcases depResolve_spec hclosed hfuel hkey with ⟨lists, -, -, hends⟩ | ⟨herror, -⟩
    · exact not_ends_of_cycle hcycle (hends c hneeds)
    · rw [herror] at hrun
      cases hrun
  · rintro ⟨a, ha, hkey⟩
    refine resolveDependencyOrder_error setOrder hclosed hfuel ha fun lists hrun => ?_
    obtain ⟨fuel, rfl⟩ : ∃ n, fuel = n + 1 := ⟨fuel - 1, by omega⟩
    rw [depResolve, Dict.get_eq_none_of_notMem hkey] at hrun
    cases hrun

/-- Two apps depend on a third, and one app on both. -/
def diamond : Dict (Fin 4) (List (Fin 4)) := ⟨[(0, [2, 1]), (1, [3]), (2, [3]), (3, [])], by decide⟩

/-- Two apps depend on each other. -/
def loop : Dict (Fin 2) (List (Fin 2)) := ⟨[(0, [1]), (1, [0])], by decide⟩

theorem resolve_dependency_order_sample :
    (∃ order, resolveDependencyOrder ⟨List.dedup, fun _ => .refl _⟩ diamond 5 [0, 3, 0] = some (.ok order) ∧
      order.Nodup ∧ (∀ b, b ∈ order ↔ ∃ a ∈ [0, 3, 0], Needs diamond a b) ∧
      ∀ front a rest, order = front ++ a :: rest → ∀ b, DependsOn diamond a b → b ∈ front) ∧
    ∃ e, resolveDependencyOrder ⟨List.dedup, fun _ => .refl _⟩ loop 3 [1] = some (.error e) := by
  constructor
  · refine (resolve_dependency_order ⟨List.dedup, fun _ => .refl _⟩ diamond ?_ [0, 3, 0] 5 (by decide)).1 ?_ (by decide)
    · unfold Closed DependsOn
      decide
    · intro a hcycle
      have hlt : ∀ a b, DependsOn diamond a b → a < b := by
        unfold DependsOn
        decide
      have hself := Relation.TransGen.mono hlt _ _ hcycle
      rw [Relation.transGen_eq_self] at hself
      exact Fin.lt_irrefl a hself
  · refine (resolve_dependency_order ⟨List.dedup, fun _ => .refl _⟩ loop ?_ [1] 3 (by decide)).2.1 ?_
    · unfold Closed DependsOn
      decide
    · have hedge : DependsOn loop 1 0 ∧ DependsOn loop 0 1 := by
        unfold DependsOn
        decide
      exact ⟨1, by decide, 1, .refl, .tail (.single hedge.1) hedge.2⟩

end

end Totem.Commands
