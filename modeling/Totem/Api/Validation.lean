import Totem.Api.Routing

/-!
# Totem.Api.Validation — the checks of the routes at startup, and the scopes of the routes

* `World.checkRoute`: `_check_static_route`, for the four routes with a path of their own.
* `static_before_id`: a controller that it accepts answers such a request with that route, not with `/{id}/`.
* `generated_routes_guarded`: the scopes that the routes of a controller require.
-/

namespace Totem.Api.Controllers

open Totem.Lib Totem.Lib.Linearization

variable {D : Declarations} {w w' w₀ w₁ : World} {c k : ℕ} {a : Action} {d : ClassDef}

/-! ## The checks -/

/-- What `_check_static_route` reports. -/
inductive RouteError
  | unregistered
  | shadowed (others : List String)
  deriving DecidableEq

/-- `_check_static_route`. -/
def World.checkStaticRoute (w : World) (c : ℕ) (m : Mixin) (name : String) : Option RouteError :=
  if (∃ k ∈ (w.classes c).mro, (w.classes k).role = .mixin m) ∧ w.has c "model" = true then
    let names := (w.classes c).dict.keys
    let shadowing := ["retrieve", "update", "delete"].filter fun other =>
      decide (other ∈ names ∧ names.idxOf other < names.idxOf name)
    if name ∉ names then some .unregistered
    else if shadowing ≠ [] then some (.shadowed shadowing)
    else none
  else none

/-- `_check_resequence_route` and the others. -/
def World.checkRoute (w : World) (c : ℕ) : Action → Option RouteError
  | .resequence => w.checkStaticRoute c .resequence "resequence"
  | .displayName => w.checkStaticRoute c .displayName "display_name"
  | .groupBy => w.checkStaticRoute c .groupBy "group_by"
  | .defaultValues =>
    if w.has c "create_request_schema" then w.checkStaticRoute c .create "default_values" else none
  | _ => none

/-- The segments of an action whose path has no parameter, and is not that of the list. -/
def Action.fixed : Action → Option (List String)
  | .defaultValues => some ["default-values", ""]
  | .resequence => some ["resequence", ""]
  | .displayName => some ["display-name", ""]
  | .groupBy => some ["group-by", ""]
  | _ => none

/-- A controller with a model inherits the mixin of an action, and its own schemas do not turn the action off. -/
def World.Offers (w : World) (c : ℕ) (a : Action) : Prop :=
  w.IsController c ∧ w.has c "model" = true ∧ (∃ k ∈ (w.classes c).mro, (w.classes k).role = .mixin a.mixin) ∧
    (a = .defaultValues → w.has c "create_request_schema" = true)

/-! ## Later definitions -/

/-- A class stays as it was defined, with its bases. -/
theorem run_frame {ds : List ClassDef} (h : Inv w₁) (hrun : Run (fun w d w' => World.define D w d = some w') w₁ ds w)
    (hc : c < w₁.nextClass) : w.classes c = w₁.classes c ∧ (∀ k ∈ (w₁.classes c).mro, w.classes k = w₁.classes k) ∧
      ∀ n, w.getattr c n = w₁.getattr c n := by
  induction hrun with
  | nil => exact ⟨rfl, fun _ _ => rfl, fun _ => rfl⟩
  | @cons w₁ w₂ w d ds hstep hrun ih =>
    obtain ⟨hothers, hnext, -⟩ := define_frame h hstep
    have hsame := hothers c (Nat.ne_of_lt hc)
    obtain ⟨h₁, h₂, h₃⟩ := ih (inv_define h hstep) (by omega)
    refine ⟨h₁.trans hsame, fun k hk => ?_, fun n => (h₃ n).trans (define_getattr h hstep hc n)⟩
    have hk₂ : k ∈ (w₂.classes c).mro := by
      rw [hsame]
      exact hk
    exact (h₂ k hk₂).trans (define_older h hstep hc hk₂)

/-! ## A route with a path of its own -/

theorem matchesPath_fixed {segments : List String} (hfixed : a.fixed = some segments) (b : Action) :
    matchesPath b.path segments = decide (b = a ∨ b = .retrieve ∨ b = .update ∨ b = .delete) := by
  cases a <;> simp only [Action.fixed, Option.some.injEq, reduceCtorEq] at hfixed <;>
    subst hfixed <;> cases b <;> decide

/-- What the check says of the names in the dict. -/
theorem checkRoute_spec {segments : List String} (hfixed : a.fixed = some segments) (hoffers : w.Offers c a)
    (hcheck : w.checkRoute c a = none) : a.name ∈ (w.classes c).dict.keys ∧
      ∀ other ∈ ["retrieve", "update", "delete"], other ∈ (w.classes c).dict.keys →
        ¬ (w.classes c).dict.keys.idxOf other < (w.classes c).dict.keys.idxOf a.name := by
  obtain ⟨-, hmodel, hmixin, hschema⟩ := hoffers
  have hstatic : w.checkStaticRoute c a.mixin a.name = none := by
    cases a <;> simp only [Action.fixed, reduceCtorEq] at hfixed
    · unfold World.checkRoute at hcheck
      rw [if_pos (hschema rfl)] at hcheck
      exact hcheck
    · exact hcheck
    · exact hcheck
    · exact hcheck
  unfold World.checkStaticRoute at hstatic
  rw [if_pos ⟨hmixin, hmodel⟩] at hstatic
  dsimp only at hstatic
  split_ifs at hstatic with hname hshadow
  refine ⟨hname, fun other hother hmem hlt => ?_⟩
  have hin : other ∈ (["retrieve", "update", "delete"].filter fun other => decide (other ∈ (w.classes c).dict.keys ∧
      (w.classes c).dict.keys.idxOf other < (w.classes c).dict.keys.idxOf a.name)) :=
    List.mem_filter.mpr ⟨hother, decide_eq_true ⟨hmem, hlt⟩⟩
  rw [not_not.mp hshadow] at hin
  exact absurd hin List.not_mem_nil

theorem takeWhile_congr {α : Type*} {p q : α → Bool} {xs : List α} (h : ∀ x ∈ xs, p x = q x) :
    xs.takeWhile p = xs.takeWhile q := by
  induction xs with
  | nil => rfl
  | cons x xs ih =>
    rw [List.takeWhile_cons, List.takeWhile_cons, h x List.mem_cons_self,
      ih fun y hy => h y (List.mem_cons_of_mem _ hy)]

/-- The first operation that matches answers, when its path is that of no operation before it. -/
theorem dispatch_append {before after : List Operation} {op : Operation} {segments : List String} {method : Method}
    (hbefore : ∀ op' ∈ before, matchesPath op'.params.path segments = false)
    (hop : matchesPath op.params.path segments = true) (hmethod : method ∈ op.params.methods) :
    dispatch (before ++ op :: after) segments method = some op := by
  have hfirst : (before ++ op :: after).find? (fun op => matchesPath op.params.path segments) = some op := by
    rw [List.find?_append, List.find?_eq_none.mpr fun op' hop' => by simp [hbefore op' hop'], Option.none_or]
    exact List.find?_cons_of_pos hop
  unfold dispatch
  rw [hfirst, Option.bind_some, List.find?_append, List.find?_eq_none.mpr, Option.none_or, List.find?_cons_of_pos]
  · simp [hmethod]
  · intro op' hop' hpath
    have heq := (of_decide_eq_true hpath).1
    have hno := hbefore op' hop'
    rw [heq, hop] at hno
    cases hno

/-- **A route with a path of its own answers.**  A controller that the checks at startup accept answers a request for
`/resequence/`, `/display-name/`, `/group-by/` or `/default-values/` with that route, and not with one that takes the
segment for an id: when no route that is written by hand in its body is at that path, and the view is not overridden
by a class that has its mixin behind `BaseController`. -/
theorem static_before_id {before after : List ClassDef}
    (hbefore : Run (fun w d w' => World.define D w d = some w') World.start before w₀)
    (hstep : w₀.define D d = some w₁) (hafter : Run (fun w d w' => World.define D w d = some w') w₁ after w)
    {segments : List String} (hfixed : a.fixed = some segments) (hoffers : w.Offers w₀.nextClass a)
    (hcheck : w.checkRoute w₀.nextClass a = none)
    (hbody : a.name ∈ d.body.map Prod.fst → ∃ k ∈ (w.classes w₀.nextClass).mro.takeWhile
      (fun k => decide ((w.classes k).role ≠ .baseController)), (w.classes k).role = .mixin a.mixin)
    (hhand : ∀ n params, (n, .function (some params)) ∈ d.body → matchesPath params.path segments = false) :
    ∃ op, dispatch (w.classes w₀.nextClass).router segments a.method = some op ∧ op.name = a.name ∧
      op.params.path = a.path := by
  have h₀ := inv_run hbefore
  have h₁ := inv_define h₀ hstep
  obtain ⟨hname, hshadow⟩ := checkRoute_spec hfixed hoffers hcheck
  obtain ⟨hframe, hbases, hattr⟩ := run_frame h₁ hafter (c := w₀.nextClass)
    (by rw [(define_frame h₀ hstep).2.1]; omega)
  obtain ⟨hcontroller, hmodel, hmixin, hschema⟩ := hoffers
  have hhas : ∀ n, w.has w₀.nextClass n = w₁.has w₀.nextClass n := fun n => by
    unfold World.has
    rw [hattr]
  rw [hframe] at hname hshadow hbody hmixin ⊢
  rw [hhas] at hmodel hschema
  obtain ⟨-, mro, -, ⟨hdef, hno⟩ | ⟨done, w₂, hdefined⟩⟩ := define_spec h₀.toNamed hstep
  · obtain ⟨k, hk, hrole⟩ := hcontroller
    rw [hframe] at hk
    rw [hbases k (List.mem_of_mem_tail hk)] at hrole
    rw [hdef.mro_eq] at hk
    exact absurd hrole (hno k hk)
  have hdef := hdefined.defining
  have hloop := hdefined.looped
  have hrouter := hloop.router
  rw [hdef.router, List.nil_append] at hrouter
  rw [hloop.dict] at hname hshadow
  -- the action was registered, by its mixin
  have hdone : a ∈ done := by
    rcases hdef.keys a.name hname with hin | hmodel' | ⟨b, hb, hbname⟩
    · obtain ⟨k, hk, hrole⟩ := hbody hin
      have hmem : k ∈ (w₁.classes w₀.nextClass).mro := List.takeWhile_subset _ hk
      have hsame : (w₁.classes w₀.nextClass).mro.takeWhile (fun k => decide ((w.classes k).role ≠ .baseController)) =
          (w₁.classes w₀.nextClass).mro.takeWhile (fun k => decide ((w₁.classes k).role ≠ .baseController)) := by
        refine takeWhile_congr fun j hj => ?_
        rw [hbases j hj]
      rw [hsame, hloop.mro, hdef.mro_eq] at hk
      rw [hbases k hmem] at hrole
      obtain ⟨actions, hactions, hsub⟩ := hdefined.chain k hk _ hrole hmodel
      refine hsub ?_
      cases a <;> simp only [Action.fixed, reduceCtorEq] at hfixed
      · simp only [Action.mixin, World.actionsOf, hschema rfl, if_true, Option.some.injEq] at hactions
        subst hactions
        simp
      all_goals
        simp only [Action.mixin, World.actionsOf] at hactions
        split_ifs at hactions
        obtain rfl := Option.some.inj hactions
        exact List.mem_cons_self
    · exact absurd hmodel' a.name_ne.1
    · rw [Action.name_inj hbname] at hb
      exact hb
  obtain ⟨f, r, scopes, hget, hmark, -, hparams⟩ := hdef.registered a hdone
  obtain ⟨pre, post, hsplit⟩ := List.append_of_mem (Dict.mem_entries.mpr hget)
  have hop : w₂.operationOf (a.name, .function f) = some ⟨a.name, ⟨a.path, [a.method], scopes⟩, f, r⟩ := by
    show (w₂.marks f).map _ = _
    rw [hmark, Option.map_some, hparams, (hdef.marks f r hmark).2.2]
  rw [hrouter, hsplit, List.filterMap_append, List.filterMap_cons, hop]
  refine ⟨_, dispatch_append (fun op hop => ?_) ?_ List.mem_cons_self, rfl, rfl⟩
  · -- an operation before it
    obtain ⟨entry, hentry, hopentry⟩ := List.mem_filterMap.mp hop
    have hall : op ∈ (w₂.classes w₀.nextClass).dict.entries.filterMap w₂.operationOf := by
      rw [hsplit, List.filterMap_append]
      exact List.mem_append_left _ hop
    obtain ⟨hopget, hopmark, hopparams⟩ := (mem_operations hdef.toNamed).mp hall
    have hopname : op.name ∈ pre.map Prod.fst := by
      refine List.mem_map.mpr ⟨entry, hentry, ?_⟩
      unfold World.operationOf at hopentry
      split at hopentry
      · obtain ⟨r', -, rfl⟩ := Option.map_eq_some_iff.mp hopentry
        rfl
      · cases hopentry
    have hkeys : (w₂.classes w₀.nextClass).dict.keys = pre.map Prod.fst ++ a.name :: post.map Prod.fst := by
      unfold Dict.keys
      rw [hsplit, List.map_append, List.map_cons]
    have hnot : a.name ∉ pre.map Prod.fst := by
      have hnodup := (w₂.classes w₀.nextClass).dict.nodup
      rw [hsplit, List.map_append, List.map_cons] at hnodup
      exact fun hmem => (List.disjoint_of_nodup_append hnodup) hmem List.mem_cons_self
    rcases (hdef.own _ _ _ hopget hopmark).2 with
      ⟨params, hhandmem, hhandparams⟩ | ⟨b, hb, hbname, scopes', -, hbparams⟩
    · rw [← hopparams, hhandparams]
      exact hhand _ _ hhandmem
    · rw [← hopparams, hbparams]
      show matchesPath b.path segments = false
      rw [matchesPath_fixed hfixed, decide_eq_false_iff_not]
      have hearlier : b.name ∈ (w₂.classes w₀.nextClass).dict.keys ∧
          (w₂.classes w₀.nextClass).dict.keys.idxOf b.name < (w₂.classes w₀.nextClass).dict.keys.idxOf a.name := by
        rw [hkeys, hbname]
        refine ⟨List.mem_append_left _ hopname, ?_⟩
        rw [List.idxOf_append_of_mem hopname, List.idxOf_append_of_notMem hnot]
        exact Nat.lt_of_lt_of_le (List.idxOf_lt_length_of_mem hopname) (Nat.le_add_right _ _)
      rintro (rfl | rfl | rfl | rfl)
      · rw [hbname] at hnot
        exact hnot hopname
      · exact hshadow _ (by decide) hearlier.1 hearlier.2
      · exact hshadow _ (by decide) hearlier.1 hearlier.2
      · exact hshadow _ (by decide) hearlier.1 hearlier.2
  · rw [matchesPath_fixed hfixed]
    simp

/-! ## The scopes -/

/-- **The routes of the mixins are guarded.**  A controller that lists `TokenHasScopePermissionModelControllerMixin`
before every base that brings a CRUD mixin: each of its routes is written by hand in its body, or requires the scopes
that its `permission_map` has for the action, of which the actions that are opt-in must have some. -/
theorem generated_routes_guarded {before after : List ClassDef}
    (hbefore : Run (fun w d w' => World.define D w d = some w') World.start before w₀)
    (hstep : w₀.define D d = some w₁) (hafter : Run (fun w d w' => World.define D w d = some w') w₁ after w) {t : ℕ}
    (ht : t ∈ d.bases) (hrole : (w.classes t).role = .tokenHasScope)
    (hfirst : ∀ k ∈ (w.classes w₀.nextClass).mro, ∀ m, (w.classes k).role = .mixin m →
      ∃ b, Before t b d.bases ∧ k ∈ (w.classes b).mro) :
    ∀ op ∈ (w.classes w₀.nextClass).router,
      (∃ params, (op.name, .function (some params)) ∈ d.body ∧ op.params = params) ∨
        ∃ a : Action, a.name = op.name ∧ op.params = ⟨a.path, [a.method], w.actionPermissions D w₀.nextClass a⟩ ∧
          (a.scopesRequired = true → w.actionPermissions D w₀.nextClass a ≠ []) := by
  have h₀ := inv_run hbefore
  have h₁ := inv_define h₀ hstep
  obtain ⟨hframe, hbases, hattr⟩ := run_frame h₁ hafter (c := w₀.nextClass)
    (by rw [(define_frame h₀ hstep).2.1]; omega)
  obtain ⟨mro, hmro, hnodup, hbase, hlist, hsub⟩ := define_mro h₀ hstep
  intro op hop
  rw [hframe] at hop
  -- the classes before the new one are the same in the end
  have hold : ∀ k ∈ mro, w.classes k = w₁.classes k ∧ w.classes k = w₀.classes k := by
    intro k hk
    have hsame := hbases k (by rw [hmro]; exact List.mem_cons_of_mem _ hk)
    exact ⟨hsame, hsame.trans ((define_frame h₀ hstep).1 k (Nat.ne_of_lt (hsub k hk).1))⟩
  have htmro : t ∈ mro := hlist.subset ht
  have hbeforeAll : ∀ k ∈ mro, ∀ m, (w.classes k).role = .mixin m → Before t k mro := by
    intro k hk m hm
    obtain ⟨b, htb, hkb⟩ := hfirst k (by rw [hframe, hmro]; exact List.mem_cons_of_mem _ hk) m hm
    have hbmro := hlist.subset htb.mem.2
    obtain ⟨bases, hbmro', -⟩ := h₀.mro b (hbase b htb.mem.2).1
    rw [(hold b hbmro).2, hbmro'] at hkb
    have htb' := htb.mono hlist
    rcases List.mem_cons.mp hkb with rfl | hkb
    · exact htb'
    · have hbk : Before b k mro := by
        refine Before.mono ?_ (hbase b htb.mem.2).2
        rw [hbmro']
        exact before_cons_self hkb
      exact htb'.trans (List.nodup_cons.mp hnodup).2 hbk
  obtain ⟨-, mro', -, ⟨hdef, -⟩ | ⟨done, w₂, hdefined⟩⟩ := define_spec h₀.toNamed hstep
  · rw [hdef.router] at hop
    exact absurd hop List.not_mem_nil
  have hdef := hdefined.defining
  have hloop := hdefined.looped
  rw [hloop.router, hdef.router, List.nil_append] at hop
  obtain ⟨hget, hmark, hparams⟩ := (mem_operations hdef.toNamed).mp hop
  rcases (hdef.own _ _ _ hget hmark).2 with ⟨params, hmem, hhand⟩ | ⟨a, -, hname, scopes, hscopes, haction⟩
  · exact .inl ⟨params, hmem, hparams.symm.trans hhand⟩
  -- the scopes of the action, in the end
  have hmro₂ : (w₂.classes w₀.nextClass).mro = w₀.nextClass :: mro := by
    rw [← hloop.mro, hmro]
  have hrole₂ : ∀ k ∈ w₀.nextClass :: mro, (w₂.classes k).role = (w.classes k).role := by
    intro k hk
    by_cases hkc : k = w₀.nextClass
    · rw [hkc, hframe, hloop.role]
    · rw [(hold k ((List.mem_cons.mp hk).resolve_left hkc)).2, hdef.others k hkc]
  have hpermissions : w₂.actionPermissions D w₀.nextClass a = w.actionPermissions D w₀.nextClass a := by
    have hmap : w.getattr w₀.nextClass "permission_map" = w₂.getattr w₀.nextClass "permission_map" := by
      rw [hattr]
      refine World.getattr_congr hloop.mro fun k => ?_
      by_cases hk : k = w₀.nextClass
      · rw [hk, hloop.dict]
      · rw [hloop.others k hk]
    unfold World.actionPermissions
    rw [hmap]
  have hguarded : ((w₂.classes w₀.nextClass).mro.takeWhile fun k => decide ((w₂.classes k).role ≠ .mixin a.mixin)).any
      (fun k => decide ((w₂.classes k).role = .tokenHasScope)) = true := by
    rw [hmro₂]
    have htmem : t ∈ w₀.nextClass :: mro := List.mem_cons_of_mem _ htmro
    refine List.any_eq_true.mpr ⟨t, mem_takeWhile_of_before hnodup htmem ?_ fun k hk hmixin => ?_, ?_⟩
    · rw [hrole₂ t htmem, hrole]
      rfl
    · have hmixin' : (w.classes k).role = .mixin a.mixin := by
        rw [← hrole₂ k hk]
        exact not_not.mp (of_decide_eq_false hmixin)
      rcases List.mem_cons.mp hk with rfl | hkmro
      · obtain ⟨b, htb, hkb⟩ := hfirst w₀.nextClass (by rw [hframe, hmro]; exact List.mem_cons_self) _ hmixin'
        have hlt := (hbase b htb.mem.2).1
        rw [(hold b (hlist.subset htb.mem.2)).2] at hkb
        obtain ⟨bases, hbmro, hbound⟩ := h₀.mro b hlt
        rw [hbmro] at hkb
        rcases List.mem_cons.mp hkb with heq | hkb
        · omega
        · have := hbound _ hkb
          omega
      · exact (hbeforeAll k hkmro _ hmixin').mono (List.sublist_cons_self _ _)
    · rw [hrole₂ t htmem, hrole]
      rfl
  unfold World.scopesOf at hscopes
  dsimp only at hscopes
  rw [if_pos hguarded, hpermissions] at hscopes
  split_ifs at hscopes with hmissing
  obtain rfl := Option.some.inj hscopes
  refine .inr ⟨a, hname, hparams.symm.trans haction, fun hrequired hnone => hmissing ⟨hrequired, hnone⟩⟩

section Sample

/-- Each service has what the mixins need, and each action a scope. -/
def declarations : Declarations where
  model service := service + 100
  resequences _ := true
  groups _ := true
  scopes _ key := ["totem." ++ key]

/-- The controller of the account movements, with all the mixins of `ModelController` and the group by. -/
def accountMovementController : ClassDef :=
  ⟨.plain, [11, 9, 10], [("service", .data 1), ("list_response_schema", .data 2),
    ("retrieve_response_schema", .data 2),
    ("create_request_schema", .data 3), ("update_request_schema", .data 4), ("permission_map", .data 5)]⟩

/-- The controller of the website, with the mixins it needs, and a route written by hand. -/
def websiteController : ClassDef :=
  ⟨.plain, [11, 4, 5, 1], [("service", .data 6), ("retrieve_response_schema", .data 7),
    ("update_request_schema", .data 8),
    ("permission_map", .data 9), ("current_read", .function (some ⟨[.literal "current", .literal ""], [.get], []⟩))]⟩

/-- The classes of the framework, and the two controllers, one after the other. -/
theorem controllers_defined : ∃ w₀ w₁ w,
    Run (fun w d w' => World.define declarations w d = some w') World.start framework w₀ ∧
      w₀.define declarations accountMovementController = some w₁ ∧
        Run (fun w d w' => World.define declarations w d = some w') w₁ [websiteController] w ∧
          w₀.nextClass = 12 ∧ w.checkRoute 12 .groupBy = none ∧ w.has 12 "model" = true ∧
            (∃ k ∈ (w.classes 12).mro.tail, (w.classes k).role = .baseController) ∧
            (∃ k ∈ (w.classes 12).mro, (w.classes k).role = .mixin .groupBy) ∧ (w.classes 11).role = .tokenHasScope ∧
            (∀ k ∈ (w.classes 12).mro, (w.classes k).role = .plain ∨ (w.classes k).role = .baseController ∨
              (w.classes k).role = .baseModelController ∨ (w.classes k).role = .tokenHasScope ∨
                k ∈ (w.classes 9).mro ∨ k ∈ (w.classes 10).mro) ∧
            (∀ k ∈ (w.classes 13).mro, k ≠ 13 → (w.classes k).router = []) ∧
            ((w.classes 13).router.map Operation.name = ["current_read", "retrieve", "update"]) ∧
            (w.classes 12).router.map Operation.name =
              ["group_by", "list", "create", "default_values", "retrieve", "update", "delete"] := by
  have hruns : (framework.foldlM (World.define declarations) World.start).any (fun w₀ =>
      (w₀.define declarations accountMovementController).any fun w₁ =>
        ([websiteController].foldlM (World.define declarations) w₁).any fun w =>
          decide (w₀.nextClass = 12 ∧ w.checkRoute 12 .groupBy = none ∧ w.has 12 "model" = true ∧
            (∃ k ∈ (w.classes 12).mro.tail, (w.classes k).role = .baseController) ∧
            (∃ k ∈ (w.classes 12).mro, (w.classes k).role = .mixin .groupBy) ∧ (w.classes 11).role = .tokenHasScope ∧
            (∀ k ∈ (w.classes 12).mro, (w.classes k).role = .plain ∨ (w.classes k).role = .baseController ∨
              (w.classes k).role = .baseModelController ∨ (w.classes k).role = .tokenHasScope ∨
                k ∈ (w.classes 9).mro ∨ k ∈ (w.classes 10).mro) ∧
            (∀ k ∈ (w.classes 13).mro, k ≠ 13 → (w.classes k).router = []) ∧
            ((w.classes 13).router.map Operation.name = ["current_read", "retrieve", "update"]) ∧
            (w.classes 12).router.map Operation.name =
              ["group_by", "list", "create", "default_values", "retrieve", "update", "delete"])) = true := by
    decide +kernel
  obtain ⟨w₀, hw₀, hruns⟩ := (Option.any_eq_true ..).mp hruns
  obtain ⟨w₁, hw₁, hruns⟩ := (Option.any_eq_true ..).mp hruns
  obtain ⟨w, hw, hruns⟩ := (Option.any_eq_true ..).mp hruns
  exact ⟨w₀, w₁, w, Run.of_foldlM hw₀, hw₁, Run.of_foldlM hw, of_decide_eq_true hruns⟩

/-- The function of `RetrieveModelControllerMixin` has a route in both controllers. -/
theorem routes_isolated_sample : ∃ w op, Run (fun w d w' => World.define declarations w d = some w') World.start
    (framework ++ accountMovementController :: [websiteController]) w ∧
      op ∈ (w.classes 13).router ∧ op.name = "retrieve" ∧ (w.routes op.route).controller = some 13 ∧
        MadeBy declarations (framework ++ accountMovementController :: [websiteController]) 13 op.route := by
  obtain ⟨w₀, w₁, w, hrun₀, hstep, hrun, -, -, -, -, -, -, -, hbases, hnames, -⟩ := controllers_defined
  have hall := Run.append_iff.mpr ⟨w₀, hrun₀, Run.cons hstep hrun⟩
  have hmem : "retrieve" ∈ (w.classes 13).router.map Operation.name := by
    rw [hnames]
    decide
  obtain ⟨op, hop, hname⟩ := List.mem_map.mp hmem
  obtain ⟨-, -, -, hcontroller, hmade⟩ := (routes_isolated hall 13).1 op hop
  exact ⟨w, op, hall, hop, hname, hcontroller.mpr hbases, hmade⟩

theorem static_before_id_sample : ∃ w op, Run (fun w d w' => World.define declarations w d = some w') World.start
    (framework ++ accountMovementController :: [websiteController]) w ∧
      dispatch (w.classes 12).router ["group-by", ""] .post = some op ∧ op.name = "group_by" := by
  obtain ⟨w₀, w₁, w, hrun₀, hstep, hrun, hnext, hcheck, hmodel, hcontroller, hmixin, -⟩ := controllers_defined
  rw [← hnext] at hcheck hmodel hcontroller hmixin ⊢
  obtain ⟨op, hdispatch, hname, -⟩ := static_before_id (a := .groupBy) hrun₀ hstep hrun rfl
    ⟨hcontroller, hmodel, hmixin, nofun⟩ hcheck (fun h => absurd h (by decide)) fun n params h => by
      simp [accountMovementController] at h
  exact ⟨w, op, Run.append_iff.mpr ⟨w₀, hrun₀, Run.cons hstep hrun⟩, hdispatch, hname⟩

theorem generated_routes_guarded_sample : ∃ w op,
    Run (fun w d w' => World.define declarations w d = some w') World.start
    (framework ++ accountMovementController :: [websiteController]) w ∧
      op ∈ (w.classes 12).router ∧ op.name = "group_by" ∧
        op.params.scopes = w.actionPermissions declarations 12 .groupBy ∧ op.params.scopes ≠ [] := by
  obtain ⟨w₀, w₁, w, hrun₀, hstep, hrun, hnext, -, -, -, -, hrole, hmro, -, -, hnames⟩ := controllers_defined
  have hmem : "group_by" ∈ (w.classes 12).router.map Operation.name := by
    rw [hnames]
    decide
  obtain ⟨op, hop, hname⟩ := List.mem_map.mp hmem
  rw [← hnext] at hmro hop ⊢
  have hguarded := generated_routes_guarded hrun₀ hstep hrun (t := 11) (by decide) hrole (fun k hk m hm => ?_) op hop
  · rcases hguarded with ⟨params, hparams, -⟩ | ⟨a, ha, hparams, hrequired⟩
    · simp [accountMovementController] at hparams
    · obtain rfl : a = .groupBy := Action.name_inj (ha.trans hname)
      exact ⟨w, op, Run.append_iff.mpr ⟨w₀, hrun₀, Run.cons hstep hrun⟩, hop, hname, by rw [hparams], by
        rw [hparams]; exact hrequired rfl⟩
  · rcases hmro k hk with h | h | h | h | h | h
    · rw [h] at hm
      cases hm
    · rw [h] at hm
      cases hm
    · rw [h] at hm
      cases hm
    · rw [h] at hm
      cases hm
    · exact ⟨9, by unfold Before; decide, h⟩
    · exact ⟨10, by unfold Before; decide, h⟩

end Sample

end Totem.Api.Controllers
