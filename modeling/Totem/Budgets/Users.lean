import Totem.Budgets.Isolation

/-!
# Totem.Budgets.Users — the budgets of a user, among those of the others

A user limited to their budgets reaches neither the positions nor the lines of another.

* `Actor.Limited`: the rules of `account/security.py` that narrow a user; `reaches_limited`.
* `serve_foreign`: a request on the budget of another answers nothing of it, and writes nothing.
* `userView`: the tables without the budgets of the others.
* `users_isolated`: every run.
-/

namespace Totem.Budgets.Nested

open Totem.Lib Totem.Computed
open Totem.Services (Rule)

/-! ## Limited users -/

section Limited

/-- The rules on the budgets a user is in charge of, and those on all of them: by model. -/
def pairs : List (Rule Model String (Option String) Empty Unit × Rule Model String (Option String) Empty Unit) :=
  [(budgetManageOwnRule, budgetManageAllRule), (budgetPositionManageOwnRule, budgetPositionManageAllRule),
    (budgetLineManageOwnRule, budgetLineManageAllRule)]

/-- The user is limited to their budgets: a role grants the rule, and none grants all of them without it. -/
structure Actor.Limited (actor : Actor) (user : String) : Prop where
  user : actor.user = some user
  own : ∀ p ∈ pairs, ∃ role ∈ actor.roles, p.1.identifier ∈ role.getD []
  narrowed : ∀ p ∈ pairs, ∀ role ∈ actor.roles, p.2.identifier ∈ role.getD [] → p.1.identifier ∈ role.getD []

/-- The user is in charge of the budget. -/
def Owned (user : String) (db : ADb) (budget : String) : Prop := keyOf db .budget .user (some budget) = some user

instance (user : String) (db : ADb) (budget : String) : Decidable (Owned user db budget) :=
  inferInstanceAs (Decidable (_ = _))

variable {actor : Actor} {user : String} {db : ADb} {m : Model} {r : Resource}

/-- The models that have rules. -/
def isRuled (m : Model) : Bool := decide (m = .budget) || isNested m

theorem rules_of_model (hm : isRuled m = true) : ∃ own all : String, (manageOwn own m, manageAll all m) ∈ pairs ∧
    manageOwn own m ∈ rules ∧ ∀ rule ∈ rules, rule.model = m → rule = manageOwn own m ∨ rule = manageAll all m := by
  have hcases : ∀ m, isRuled m = true → m = .budget ∨ m = .budgetPosition ∨ m = .budgetLine := by
    intro m
    cases m <;> decide
  have hmodels : ∀ {m : Model} {i : String}, (manageOwn i m).model = m ∧ (manageAll i m).model = m := ⟨rfl, rfl⟩
  rcases hcases m hm with rfl | rfl | rfl
  · refine ⟨_, _, List.mem_cons_self, List.mem_cons_self, fun rule hrule hmodel => ?_⟩
    simp only [rules, List.mem_cons, List.not_mem_nil, or_false] at hrule
    rcases hrule with rfl | rfl | rfl | rfl | rfl | rfl
    · exact .inl rfl
    · cases hmodel
    · cases hmodel
    · exact .inr rfl
    · cases hmodel
    · cases hmodel
  · refine ⟨_, _, .tail _ (.head _), .tail _ (.head _), fun rule hrule hmodel => ?_⟩
    simp only [rules, List.mem_cons, List.not_mem_nil, or_false] at hrule
    rcases hrule with rfl | rfl | rfl | rfl | rfl | rfl
    · cases hmodel
    · exact .inl rfl
    · cases hmodel
    · cases hmodel
    · exact .inr rfl
    · cases hmodel
  · refine ⟨_, _, .tail _ (.tail _ (.head _)), .tail _ (.tail _ (.head _)), fun rule hrule hmodel => ?_⟩
    simp only [rules, List.mem_cons, List.not_mem_nil, or_false] at hrule
    rcases hrule with rfl | rfl | rfl | rfl | rfl | rfl
    · cases hmodel
    · cases hmodel
    · exact .inl rfl
    · cases hmodel
    · cases hmodel
    · exact .inr rfl

/-- What a limited user reaches: the rows of their budgets. -/
theorem reaches_limited (h : actor.Limited user) (hm : isRuled m = true) {operation : String}
    (hop : operation ∈ ["create", "read", "update", "delete"]) {row : ARow} :
    actor.reaches db m operation row = true ↔ budgetUser db m row = some user := by
  obtain ⟨own, all, hpair, hmem, honly⟩ := rules_of_model hm
  have happlies : ∀ role, own ∈ role.getD [] →
      Services.Applies actor.environment m operation role (manageOwn own m) :=
        fun role hrole => ⟨hmem, rfl, hop, hrole⟩
  have hown : ∀ role ∈ actor.roles, ∀ rule, Services.Applies actor.environment m operation role rule →
      own ∈ role.getD [] := by
    intro role hrole rule hrule
    rcases honly rule hrule.registered hrule.model with rfl | rfl
    · exact hrule.granted
    · exact h.narrowed _ hpair role hrole hrule.granted
  have hadmits : ∀ i, Services.Admits budgetJoin (budgetUser db m row)
      ((manageOwn i m).scopeFilter actor.environment.user) ↔ budgetUser db m row = some user := by
    intro i
    have huser : actor.environment.user = some user := h.user
    simp [huser, manageOwn, Services.Admits, Services.isTruthy, Cond.somewhere]
  rw [reaches_iff]
  constructor
  · rintro (hnone | ⟨role, hrole, ⟨rule, hrule, -⟩, hall⟩)
    · obtain ⟨role, hrole, hgranted⟩ := h.own _ hpair
      refine absurd ⟨_, happlies role hgranted, ?_⟩ (hnone role hrole)
      have huser : actor.environment.user = some user := h.user
      rw [huser]
      rfl
    · exact (hadmits own).mp (hall _ (happlies role (hown role hrole rule hrule)))
  · intro hbudget
    obtain ⟨role, hrole, hgranted⟩ := h.own _ hpair
    refine .inr ⟨role, hrole, ⟨_, happlies role hgranted, ?_⟩, fun rule hrule => ?_⟩
    · have huser : actor.environment.user = some user := h.user
      rw [huser]
      rfl
    · rcases honly rule hrule.registered hrule.model with rfl | rfl
      · exact (hadmits own).mpr hbudget
      · exact fun _ => rfl

theorem isRuled_model (r : Resource) : isRuled r.model = true := by
  cases r <;> rfl

theorem browses_budget_limited (h : actor.Limited user) {k : String} :
    browses actor db .budget k = true ↔ Owned user db k := by
  unfold browses Owned keyOf
  rw [Option.any_eq_true, Option.bind_some, Option.bind_eq_some_iff]
  refine exists_congr fun row => and_congr_right fun _ => ?_
  rw [reaches_limited h rfl (by decide), budgetUser, if_pos rfl]

theorem browses_position_limited (h : actor.Limited user) {k : String} :
    browses actor db .budgetPosition k = true ↔
      ∃ row, (db .budgetPosition).get k = some row ∧ keyOf db .budget .user (row.key .budget) = some user := by
  unfold browses
  rw [Option.any_eq_true]
  refine exists_congr fun row => and_congr_right fun _ => ?_
  rw [reaches_limited h rfl (by decide), budgetUser, if_neg (by decide)]

/-- What a limited user finds on a path is in one of their budgets. -/
theorem owned_of_onPath (h : actor.Limited user) {budget operation k : String}
    (hop : operation ∈ ["create", "read", "update", "delete"]) {row : ARow}
    (hrow : onPath actor db r budget operation k = some row) : Owned user db budget := by
  obtain ⟨-, hreaches, hbudget⟩ := onPath_eq_some.mp hrow
  have hne : r.model ≠ .budget := by cases r <;> decide
  rw [reaches_limited h (isRuled_model r) hop, budgetUser, if_neg hne, hbudget] at hreaches
  exact hreaches

theorem onPath_foreign (h : actor.Limited user) {budget operation k : String}
    (hop : operation ∈ ["create", "read", "update", "delete"]) (hforeign : ¬ Owned user db budget) :
    onPath actor db r budget operation k = none :=
  Option.eq_none_iff_forall_ne_some.mpr fun _ hrow => hforeign (owned_of_onPath h hop hrow)

end Limited

/-! ## The budget of another -/

section Foreign

variable {fw : Framework} {actor : Actor} {user : String} {db db' : ADb} {c : Call} {r : Resource}

/-- The answers in which there is nothing of the budget. -/
def Answer.Nothing : Answer → Prop
  | .listed rows => ∀ k, rows.get k = none
  | .named rows => rows = []
  | .record _ _ => False
  | .endless => False
  | .denied => False
  | _ => True

/-- A row of each table is in some budget's view. -/
theorem eq_of_views (hs : Sound db) (hs' : Sound db') (h : ∀ b, view b db = view b db') : db = db' := by
  have hone : ∀ {db db' : ADb}, Sound db → (∀ b, view b db = view b db') → ∀ m k row, (db m).get k = some row →
      (db' m).get k = some row := by
    intro db db' hs h m k row hrow
    cases hm : isNested m with
    | false => exact (view_eq_iff.mp (h k) m k row ((visible_of_not_nested hm).mpr fun _ => rfl)).mp hrow
    | true =>
      have hrequired : ∀ m, isNested m = true → .budget ∈ requiredKeys m := by
        intro m
        cases m <;> decide
      obtain ⟨b, hb⟩ := Option.ne_none_iff_exists'.mp (hs.constraints.required m .budget (hrequired m hm) k row hrow)
      exact (view_eq_iff.mp (h b) m k row ((visible_nested hm).mpr hb)).mp hrow
  funext m
  ext1 k
  exact Option.ext fun row => ⟨hone hs h m k row, hone hs' (fun b => (h b).symm) m k row⟩

/-- A creation under the budget of another does not find it. -/
theorem internal_foreign (h : actor.Limited user) {budget : String} (hforeign : ¬ Owned user db budget)
    (body : Body) :
    internalErrors fw actor db r.model (createFields r.model) (body.input budget) ≠ [] := by
  intro hnone
  obtain ⟨-, hbrowses⟩ := internalErrors_eq_nil.mp hnone
  have hfound := hbrowses .budget .budget (hasKey_budget r) (by cases r <;> decide) budget rfl
  exact hforeign ((browses_budget_limited h).mp hfound)

/-- Nothing is numbered. -/
theorem resequence_nil (hs : Sound db) (c : Call) (fw : Framework) {offset : ℕ}
    (hop : c.operation = .resequence [] offset) :
    serve fw db c = (.done, db) := by
  have hserve : serve fw db c = resequence c.actor db c.resource c.budget [] offset := by rw [serve, hop]
  have hsound := serve_sound fw c hs
  rw [hserve] at hsound ⊢
  obtain ⟨s, hexit, hconsistent⟩ := number_consistent hs.consistent c.resource [] offset
  have hnone : accounts.updateRows db c.resource.model ∅ {.sequence} (numbers [] offset) = db := by
    funext m
    ext1 k
    unfold Schema.updateRows
    by_cases hm : m = c.resource.model
    · subst hm
      simp
    · simp [hm]
  have hanswer : resequence c.actor db c.resource c.budget [] offset = (.done, s.db) := by
    unfold resequence
    dsimp only
    rw [List.filter_nil, List.filter_nil, if_neg (by decide), if_neg (by decide), hexit]
  rw [hanswer] at hsound ⊢
  have hrefreshed := State.exit_refreshed hexit
  rw [List.toFinset_nil, hnone] at hrefreshed
  have hdb : s.db = db := eq_of_views hsound hs fun b => view_refreshed hsound hs rfl hrefreshed (.refl db)
  rw [hdb]

/-- **A request on the budget of another** answers nothing of it, and writes nothing. -/
theorem serve_foreign (fw : Framework) (hs : Sound db) (h : c.actor.Limited user)
    (hforeign : ¬ Owned user db c.budget) :
    (serve fw db c).1.Nothing ∧ (serve fw db c).2 = db := by
  have hpath : ∀ {operation k : String}, operation ∈ ["create", "read", "update", "delete"] →
      onPath c.actor db c.resource c.budget operation k = none := fun hop => onPath_foreign h hop hforeign
  cases hop : c.operation with
  | list filter =>
    rw [serve, hop]
    refine ⟨fun k => ?_, rfl⟩
    rw [list, Table.get_map, Table.get_filter, hpath (by decide)]
    cases (db c.resource.model).get k <;> rfl
  | retrieve id =>
    rw [serve, hop]
    dsimp only
    rw [hpath (by decide)]
    exact ⟨True.intro, rfl⟩
  | displayName ids =>
    rw [serve, hop]
    refine ⟨List.filterMap_eq_nil_iff.mpr fun k _ => ?_, rfl⟩
    rw [hpath (by decide)]
    rfl
  | create pk body =>
    have hserve : serve fw db c = create fw c.actor db c.resource c.budget pk body c.clock := by rw [serve, hop]
    have hrefused : ¬ Accepted fw c.actor db c.resource c.clock.today (createFields c.resource.model)
        (body.input c.budget) none := fun haccepted => internal_foreign h hforeign body haccepted.internal
    obtain ⟨errors, herrors⟩ := create_refused pk hrefused
    rw [hserve, herrors]
    exact ⟨True.intro, rfl⟩
  | update id body =>
    have hserve : serve fw db c = update fw c.actor db c.resource c.budget id body c.clock := by rw [serve, hop]
    have hnone : onPath c.actor db c.resource c.budget "update" id = none := hpath (by decide)
    rw [hserve]
    unfold update
    dsimp only
    rw [hnone]
    split_ifs <;> exact ⟨True.intro, rfl⟩
  | delete id =>
    rw [serve, hop]
    dsimp only
    rw [delete, hpath (by decide)]
    exact ⟨True.intro, rfl⟩
  | resequence ids offset =>
    cases ids with
    | nil =>
      rw [resequence_nil hs c fw hop]
      exact ⟨True.intro, rfl⟩
    | cons k ids =>
      have hserve : serve fw db c = resequence c.actor db c.resource c.budget (k :: ids) offset := by rw [serve, hop]
      rw [hserve]
      unfold resequence
      dsimp only
      have hmissing : ((k :: ids).filter fun k => (onPath c.actor db c.resource c.budget "update" k).isNone) ≠ [] := by
        simp [hpath]
      rw [if_pos hmissing]
      split_ifs <;> exact ⟨True.intro, rfl⟩

end Foreign

/-! ## The tables of a user -/

section UserView

variable {user b : String} {db db' : ADb} {m : Model} {k : String} {row : ARow}

/-- The row is not in the budget of another. -/
def visibleTo (user : String) (db : ADb) (m : Model) (row : ARow) : Bool :=
  if isRuled m then decide (budgetUser db m row = some user) else true

/-- The tables without the budgets of the others, their positions and their lines. -/
def userView (user : String) (db : ADb) : ADb := fun m => (db m).filter fun _ row => visibleTo user db m row

theorem get_userView : (userView user db m).get k = some row ↔
    (db m).get k = some row ∧ (isRuled m = true → budgetUser db m row = some user) := by
  rw [userView, Table.get_filter, Option.filter_eq_some_iff, visibleTo]
  refine and_congr_right fun _ => ?_
  cases isRuled m <;> simp

theorem owned_iff : Owned user db b ↔ ∃ row, (userView user db .budget).get b = some row := by
  unfold Owned keyOf
  rw [Option.bind_some, Option.bind_eq_some_iff]
  refine exists_congr fun row => ?_
  rw [get_userView, budgetUser, if_pos rfl]
  exact and_congr_right fun _ => ⟨fun h _ => h, fun h => h rfl⟩

theorem owned_congr (h : userView user db = userView user db') : Owned user db b ↔ Owned user db' b := by
  rw [owned_iff, owned_iff, h]

/-- The budgets of the user. -/
theorem view_of_userView (h : userView user db = userView user db') (hb : Owned user db b) :
    view b db = view b db' := by
  have hone : ∀ {db db' : ADb}, userView user db = userView user db' → Owned user db b → ∀ m k row,
      visible b m k row = true → (db m).get k = some row → (db' m).get k = some row := by
    intro db db' h hb m k row hvisible hrow
    have hin : (userView user db m).get k = some row := by
      refine get_userView.mpr ⟨hrow, fun hm => ?_⟩
      cases hnested : isNested m with
      | true =>
        have hne : m ≠ .budget := by
          rintro rfl
          cases hnested
        rw [budgetUser, if_neg hne, (visible_nested hnested).mp hvisible]
        exact hb
      | false =>
        rw [isRuled, hnested, Bool.or_false, decide_eq_true_eq] at hm
        obtain rfl := hm
        obtain rfl := (visible_of_not_nested hnested).mp hvisible rfl
        unfold Owned keyOf at hb
        rw [Option.bind_some, hrow, Option.bind_some] at hb
        rw [budgetUser, if_pos rfl, hb]
    rw [h] at hin
    exact (get_userView.mp hin).1
  exact view_eq_iff.mpr fun m k row hvisible =>
    ⟨hone h hb m k row hvisible, hone h.symm ((owned_congr h).mp hb) m k row hvisible⟩

theorem table_of_userView (h : userView user db = userView user db') (hm : isRuled m = false) : db m = db' m := by
  have hfree : ¬ isRuled m = true := by rw [hm]; exact Bool.false_ne_true
  ext1 k
  refine Option.ext fun row => ?_
  have hrow : (userView user db m).get k = some row ↔
      (db m).get k = some row ∧ (isRuled m = true → budgetUser db m row = some user) := get_userView
  rw [h, get_userView] at hrow
  simpa [hfree] using hrow.symm

theorem userView_eq (hshared : ∀ m, isRuled m = false → db m = db' m)
    (howned : ∀ b, Owned user db b ↔ Owned user db' b)
    (hviews : ∀ b, Owned user db b → view b db = view b db') : userView user db = userView user db' := by
  have hone : ∀ {db db' : ADb}, (∀ m, isRuled m = false → db m = db' m) → (∀ b, Owned user db b → Owned user db' b) →
      (∀ b, Owned user db b → view b db = view b db') → ∀ m k row, (userView user db m).get k = some row →
        (userView user db' m).get k = some row := by
    intro db db' hshared howned hviews m k row hrow
    obtain ⟨hrow, huser⟩ := get_userView.mp hrow
    refine get_userView.mpr ?_
    cases hm : isRuled m with
    | false =>
      rw [← hshared m hm]
      exact ⟨hrow, nofun⟩
    | true =>
      have hcharge := huser hm
      unfold budgetUser at hcharge ⊢
      split_ifs at hcharge ⊢ with hbudget
      · subst hbudget
        have hb : Owned user db k := by
          unfold Owned keyOf
          rw [Option.bind_some, hrow, Option.bind_some, hcharge]
        exact ⟨(view_eq_iff.mp (hviews k hb) .budget k row ((visible_of_not_nested rfl).mpr fun _ => rfl)).mp hrow,
          fun _ => hcharge⟩
      · have hnested : isNested m = true := by
          rw [isRuled, Bool.or_eq_true, decide_eq_true_eq] at hm
          exact hm.resolve_left hbudget
        cases hkey : row.key .budget with
        | none =>
          rw [hkey] at hcharge
          cases hcharge
        | some b =>
          rw [hkey] at hcharge
          exact ⟨(view_eq_iff.mp (hviews b hcharge) m k row ((visible_nested hnested).mpr hkey)).mp hrow,
            fun _ => howned b hcharge⟩
  funext m
  ext1 k
  refine Option.ext fun row => ⟨hone hshared (fun b => (howned b).mp) hviews m k row, ?_⟩
  exact hone (fun m hm => (hshared m hm).symm) (fun b => (howned b).mpr)
    (fun b hb => (hviews b ((howned b).mpr hb)).symm) m k row

end UserView

/-! ## Two databases that agree on the budgets of a user -/

section Congr

variable {fw : Framework} {user : String} {db db' : ADb} {c : Call} {r : Resource}

theorem get_of_owned (h : userView user db = userView user db') {k : String} {row : ARow}
    (hrow : (db .budgetPosition).get k = some row) (hcharge : keyOf db .budget .user (row.key .budget) = some user) :
    (db' .budgetPosition).get k = some row ∧ keyOf db' .budget .user (row.key .budget) = some user := by
  have hin : (userView user db .budgetPosition).get k = some row :=
    get_userView.mpr ⟨hrow, fun _ => by rw [budgetUser, if_neg (by decide), hcharge]⟩
  rw [h] at hin
  obtain ⟨hrow', huser⟩ := get_userView.mp hin
  have huser := huser rfl
  rw [budgetUser, if_neg (by decide)] at huser
  exact ⟨hrow', huser⟩

/-- A relation of a body is found, or it is not. -/
theorem browses_user_congr {actor : Actor} (h : userView user db = userView user db') (hl : actor.Limited user)
    {n : Name} {target : Model} (hkey : HasKey r.model n target) (k : String) :
    browses actor db target k = browses actor db' target k := by
  have hposition : ∀ {db db' : ADb}, userView user db = userView user db' →
      browses actor db .budgetPosition k = true → browses actor db' .budgetPosition k = true := by
    intro db db' h hfound
    obtain ⟨row, hrow, hcharge⟩ := (browses_position_limited hl).mp hfound
    exact (browses_position_limited hl).mpr ⟨row, get_of_owned h hrow hcharge⟩
  rw [Bool.eq_iff_iff]
  rcases hasKey_cases hkey with ⟨rfl, rfl⟩ | ⟨rfl, rfl⟩
  · rw [browses_budget_limited hl, browses_budget_limited hl]
    exact owned_congr h
  · cases r with
    | positions =>
      show browses actor db .accountCategory k = true ↔ browses actor db' .accountCategory k = true
      unfold browses
      simp only [table_of_userView h (m := .accountCategory) rfl, Option.any_eq_true, reaches_category]
    | lines => exact ⟨hposition h, hposition h.symm⟩

theorem internal_user_congr {actor : Actor} (h : userView user db = userView user db') (hl : actor.Limited user)
    (names : Finset Name) (data : ARow) :
    internalErrors fw actor db r.model names data = internalErrors fw actor db' r.model names data := by
  have hrelations : relationErrors fw actor db r.model names data = relationErrors fw actor db' r.model names data :=
    relationErrors_congr fun n target hkey _ k _ => browses_user_congr h hl hkey k
  unfold internalErrors
  rw [hrelations]

/-- A position that is found is one of the user's: what is said of it is the same. -/
theorem valid_user_congr {actor : Actor} (h : userView user db = userView user db') (hl : actor.Limited user)
    {today : ℕ} {names : Finset Name} {data : ARow} {existing : Option ARow}
    (hinternal : internalErrors fw actor db r.model names data = [])
    (hbudget : ∃ b, (existing.getD data).key .budget = some b ∧ Owned user db b) :
    validateData db today r.model names data existing = validateData db' today r.model names data existing := by
  obtain ⟨b, hb, howned⟩ := hbudget
  have hview := view_of_userView h howned
  cases r with
  | positions =>
    unfold validateData
    simp only [Resource.model, hb]
    rw [keyOf_budget hview]
    unfold keyOf
    rw [view_table hview rfl (by decide)]
  | lines =>
    unfold validateData
    simp only [Resource.model]
    have hsame : ∀ y : Option String, (∀ k, y = some k → browses actor db .budgetPosition k = true) →
        keyOf db .budgetPosition .budget y = keyOf db' .budgetPosition .budget y := by
      intro y hy
      cases y with
      | none => rfl
      | some k =>
        obtain ⟨row, hrow, hcharge⟩ := (browses_position_limited hl).mp (hy k rfl)
        simp only [keyOf, Option.bind_some, hrow, (get_of_owned h hrow hcharge).1]
    rw [hsame _ fun k hk => ?_]
    split_ifs at hk with hn
    exact (internalErrors_eq_nil.mp hinternal).2 .position .budgetPosition line_position hn k hk

/-- A record that is in a budget of the user. -/
theorem owned_accepted {actor : Actor} {row : ARow} {id operation : String} {budget : String}
    (hl : actor.Limited user)
    (hop : operation ∈ ["create", "read", "update", "delete"])
    (hrow : onPath actor db r budget operation id = some row) :
    ∃ b, row.key .budget = some b ∧ Owned user db b :=
  ⟨budget, (onPath_eq_some.mp hrow).2.2, owned_of_onPath hl hop hrow⟩

theorem onPath_user_congr {actor : Actor} (h : userView user db = userView user db') (hl : actor.Limited user)
    {budget operation k : String} (hop : operation ∈ ["create", "read", "update", "delete"]) :
    onPath actor db r budget operation k = onPath actor db' r budget operation k := by
  by_cases howned : Owned user db budget
  · exact onPath_congr (view_of_userView h howned) operation k
  · rw [onPath_foreign hl hop howned, onPath_foreign hl hop fun h' => howned ((owned_congr h).mpr h')]

theorem create_user_congr {pk : String} {body : Body} (hop : c.operation = .create pk body) (hs : Sound db)
    (hs' : Sound db') (h : userView user db = userView user db') (hl : c.actor.Limited user)
    (hnew : (db c.resource.model).get pk = none) (hnew' : (db' c.resource.model).get pk = none) :
    (create fw c.actor db c.resource c.budget pk body c.clock).1
      = (create fw c.actor db' c.resource c.budget pk body c.clock).1 := by
  by_cases hmissing : (c.resource.required.filter fun n => decide (n ∉ body.names)) = []
  swap
  · unfold create
    dsimp only
    rw [if_pos hmissing, if_pos hmissing]
  have hbudget : internalErrors fw c.actor db c.resource.model (createFields c.resource.model)
      (body.input c.budget) = [] → Owned user db c.budget := fun hinternal => by
    by_contra hforeign
    exact internal_foreign hl hforeign body hinternal
  by_cases haccepted : Accepted fw c.actor db c.resource c.clock.today (createFields c.resource.model)
    (body.input c.budget) none
  · have hview := view_of_userView h (hbudget haccepted.internal)
    exact (create_accepted_congr hop hs hs' hview hnew hnew' hmissing haccepted).1
  · obtain ⟨errors, herrors, herrors'⟩ := create_rejected_congr pk
      (internal_user_congr h hl _ _)
      (fun hinternal => valid_user_congr h hl hinternal ⟨c.budget, rfl, hbudget hinternal⟩) haccepted
    rw [herrors, herrors']

theorem update_user_congr {id : String} {body : Body} (hop : c.operation = .update id body) (hs : Sound db)
    (hs' : Sound db') (h : userView user db = userView user db') (hl : c.actor.Limited user) :
    (update fw c.actor db c.resource c.budget id body c.clock).1
      = (update fw c.actor db' c.resource c.budget id body c.clock).1 := by
  by_cases haccepted : ∃ row, onPath c.actor db c.resource c.budget "update" id = some row ∧
    Accepted fw c.actor db c.resource c.clock.today (body.names ∩ updateFields c.resource.model) body.values (some row)
  · obtain ⟨row, hrow, haccepted⟩ := haccepted
    have hview := view_of_userView h (owned_of_onPath hl (by decide) hrow)
    exact (update_accepted_congr hop hs hs' hview hrow haccepted).1
  · obtain ⟨answer, hanswer, hanswer'⟩ := update_rejected_congr
      (onPath_user_congr h hl (by decide)) (internal_user_congr h hl _ _)
      (fun row hrow hinternal => valid_user_congr h hl hinternal (owned_accepted hl (by decide) hrow))
      fun row hrow haccepted' => haccepted ⟨row, hrow, haccepted'⟩
    rw [hanswer, hanswer']

/-- A request without a body. -/
theorem answer_plain_congr (fw : Framework) (hs : Sound db) (hs' : Sound db')
    (h : userView user db = userView user db')
    (hl : c.actor.Limited user) (hfresh : c.Fresh db) (hfresh' : c.Fresh db')
    (hplain : (∀ pk body, c.operation ≠ .create pk body) ∧ ∀ id body, c.operation ≠ .update id body) :
    (serve fw db c).1 = (serve fw db' c).1 := by
  by_cases howned : Owned user db c.budget
  · refine (serve_congr fw hs hs' (view_of_userView h howned) hfresh hfresh').1.resolve_right ?_
    rintro ⟨-, hname, -⟩
    cases hop : c.operation with
    | create pk body => exact hplain.1 pk body hop
    | update id body => exact hplain.2 id body hop
    | _ => rw [hop] at hname; exact absurd hname (Finset.notMem_empty _)
  have hpath : ∀ {operation : String}, operation ∈ ["create", "read", "update", "delete"] →
      onPath c.actor db c.resource c.budget operation = fun _ => none :=
    fun hop => funext fun k => onPath_foreign hl hop howned
  have hpath' : ∀ {operation : String}, operation ∈ ["create", "read", "update", "delete"] →
      onPath c.actor db' c.resource c.budget operation = fun _ => none :=
    fun hop => funext fun k => onPath_foreign hl hop fun h' => howned ((owned_congr h).mpr h')
  cases hop : c.operation with
  | create pk body => exact absurd hop (hplain.1 pk body)
  | update id body => exact absurd hop (hplain.2 id body)
  | list filter =>
    rw [serve, serve, hop]
    refine congrArg Answer.listed ?_
    ext1 k
    rw [list, list, Table.get_map, Table.get_map, Table.get_filter, Table.get_filter, hpath (by decide),
      hpath' (by decide)]
    cases (db c.resource.model).get k <;> cases (db' c.resource.model).get k <;> rfl
  | retrieve id =>
    rw [serve, serve, hop]
    dsimp only
    rw [hpath (by decide), hpath' (by decide)]
    rfl
  | displayName ids =>
    rw [serve, serve, hop]
    dsimp only
    rw [displayName, displayName, hpath (by decide), hpath' (by decide)]
    rfl
  | delete id =>
    rw [serve, serve, hop]
    dsimp only
    rw [delete, delete, hpath (by decide), hpath' (by decide)]
  | resequence ids offset =>
    cases ids with
    | nil => rw [resequence_nil hs c fw hop, resequence_nil hs' c fw hop]
    | cons k ids =>
      have hmissing : ((k :: ids).filter fun _ => (none : Option ARow).isNone) ≠ [] := by simp
      rw [serve, serve, hop]
      dsimp only
      rw [resequence, resequence, hpath (by decide), hpath' (by decide)]
      dsimp only
      rw [if_pos hmissing, if_pos hmissing]
      split_ifs <;> rfl

/-- **The same request of a limited user**, whatever the budgets of the others hold. -/
theorem answer_user_congr (fw : Framework) (hs : Sound db) (hs' : Sound db')
    (h : userView user db = userView user db')
    (hl : c.actor.Limited user) (hfresh : c.Fresh db) (hfresh' : c.Fresh db') :
    (serve fw db c).1 = (serve fw db' c).1 := by
  cases hop : c.operation with
  | create pk body =>
    rw [Call.Fresh, hop] at hfresh hfresh'
    rw [serve, serve, hop]
    exact create_user_congr hop hs hs' h hl hfresh hfresh'
  | update id body =>
    rw [serve, serve, hop]
    exact update_user_congr hop hs hs' h hl
  | _ =>
    refine answer_plain_congr fw hs hs' h hl hfresh hfresh' ⟨fun pk body hne => ?_, fun id body hne => ?_⟩
    · rw [hop] at hne
      cases hne
    · rw [hop] at hne
      cases hne

end Congr

/-! ## Runs -/

section Users

variable {user v : String} {db db' : ADb} {c : Call}

/-- The tables that are in no budget, budgets apart. -/
theorem serve_shared (fw : Framework) (c : Call) (hs : Sound db) {m : Model} (hm : isRuled m = false) :
    (serve fw db c).2 m = db m := by
  obtain ⟨b, hb⟩ : ∃ b, b ≠ c.budget := ⟨c.budget.push 'x', fun h => by simpa using congrArg String.length h⟩
  rw [isRuled, Bool.or_eq_false_iff, decide_eq_false_iff_not] at hm
  exact view_table (serve_frame fw hs hb) hm.2 hm.1

/-- No request changes who is in charge of a budget. -/
theorem owned_serve (fw : Framework) (c : Call) (hs : Sound db) {b : String} :
    Owned user (serve fw db c).2 b ↔ Owned user db b := by
  rcases serve_cases fw c hs with hsame | ⟨raw, hwritten, hrefreshed, -⟩
  · rw [hsame]
  obtain ⟨f, hacts⟩ := hwritten.acts hs
  have hraw : raw .budget = db .budget := by
    ext1 k
    refine Option.ext fun row => ⟨fun hrow => ?_, fun hrow => ?_⟩
    · exact (hacts.writes _ k row hrow).resolve_right fun h => absurd h.1 (by decide)
    · rw [hacts.get, hrow]
      exact hacts.others _ k row hrow fun h => absurd h (by decide)
  unfold Owned keyOf
  rw [Option.bind_some, Option.bind_some, Option.bind_eq_some_iff, Option.bind_eq_some_iff]
  constructor
  · rintro ⟨row, hrow, huser⟩
    obtain ⟨row₀, hrow₀, hkey, -⟩ := hrefreshed.row_of hrow
    exact ⟨row₀, by rw [← hraw, hrow₀], by rw [← hkey, huser]⟩
  · rintro ⟨row, hrow, huser⟩
    obtain ⟨row', hrow', hkey, -⟩ := hrefreshed.rows .budget b row (by rw [hraw, hrow])
    exact ⟨row', hrow', by rw [hkey, huser]⟩

/-- A limited user leaves the budgets of the others as they were. -/
theorem serve_user_frame (fw : Framework) (hs : Sound db) (hl : c.actor.Limited v) (hne : v ≠ user) :
    userView user (serve fw db c).2 = userView user db := by
  by_cases howned : Owned v db c.budget
  · refine userView_eq (fun m hm => serve_shared fw c hs hm) (fun b => owned_serve fw c hs) fun b hb => ?_
    refine serve_frame fw hs ?_
    rintro rfl
    rw [owned_serve fw c hs] at hb
    exact hne (Option.some.inj (howned.symm.trans hb))
  · rw [(serve_foreign fw hs hl howned).2]

theorem serve_user_congr (fw : Framework) (hs : Sound db) (hs' : Sound db') (h : userView user db = userView user db')
    (hl : c.actor.Limited user) (hfresh : c.Fresh db) (hfresh' : c.Fresh db') :
    (serve fw db c).1 = (serve fw db' c).1 ∧ userView user (serve fw db c).2 = userView user (serve fw db' c).2 := by
  refine ⟨answer_user_congr fw hs hs' h hl hfresh hfresh', ?_⟩
  refine userView_eq (fun m hm => ?_) (fun b => ?_) fun b hb => ?_
  · rw [serve_shared fw c hs hm, serve_shared fw c hs' hm, table_of_userView h hm]
  · rw [owned_serve, owned_serve]
    · exact owned_congr h
    · exact hs'
    · exact hs
  · rw [owned_serve fw c hs] at hb
    have hview := view_of_userView h hb
    by_cases hbudget : b = c.budget
    · subst hbudget
      exact (serve_congr fw hs hs' hview hfresh hfresh').2
    · rw [serve_frame fw hs hbudget, serve_frame fw hs' hbudget, hview]

/-- What the requests of a limited user on the budgets of others are answered. -/
theorem run_foreign (fw : Framework) (cs : List Call) (hs : Sound db) :
    ∀ x ∈ (run fw db cs).1, x.1.actor.Limited user → ¬ Owned user db x.1.budget → x.2.Nothing := by
  induction cs generalizing db with
  | nil => exact fun x hx => absurd hx List.not_mem_nil
  | cons c cs ih =>
    intro x hx hl hforeign
    rw [run] at hx
    rcases List.mem_cons.mp hx with rfl | hx
    · exact (serve_foreign fw hs hl hforeign).1
    · exact ih (serve_sound fw c hs) x hx hl fun h => hforeign ((owned_serve fw c hs).mp h)

/-- **The requests of a user, among those of the others**, each limited to their budgets.  Two databases may differ in
everything that is in the budgets of others, and the second receives the requests of the user alone: they are answered
the same, and leave the budgets of the user the same.  A request on the budget of another answers nothing of it. -/
theorem users_isolated (fw : Framework) (user : String) (cs : List Call) (hs : Sound db) (hs' : Sound db')
    (hview : userView user db = userView user db') (hlimited : ∀ c ∈ cs, ∃ v, c.actor.Limited v)
    (hnew : NewKeys db cs)
    (hnew' : NewKeys db' (cs.filter fun c => c.actor.user = some user)) :
    (run fw db cs).1.filter (fun x => x.1.actor.user = some user)
        = (run fw db' (cs.filter fun c => c.actor.user = some user)).1 ∧
      userView user (run fw db cs).2 = userView user (run fw db' (cs.filter fun c => c.actor.user = some user)).2 ∧
      ∀ x ∈ (run fw db cs).1, x.1.actor.user = some user → ¬ Owned user db x.1.budget → x.2.Nothing := by
  have hmine : ∀ {c : Call}, (∃ v, c.actor.Limited v) → c.actor.user = some user → c.actor.Limited user := by
    rintro c ⟨v, hl⟩ huser
    rw [← Option.some.inj (hl.user.symm.trans huser)]
    exact hl
  rw [← and_assoc]
  refine ⟨?_, fun x hx huser hforeign =>
    run_foreign fw cs hs x hx (hmine (hlimited x.1 (call_of_run hx)) huser) hforeign⟩
  induction cs generalizing db db' with
  | nil => exact ⟨rfl, hview⟩
  | cons c cs ih =>
    have hl := hlimited c List.mem_cons_self
    have hrest : ∀ c ∈ cs, ∃ v, c.actor.Limited v := fun c hc => hlimited c (List.mem_cons_of_mem _ hc)
    by_cases huser : c.actor.user = some user
    · have hfilter : (c :: cs).filter (fun c' => decide (c'.actor.user = some user))
          = c :: cs.filter fun c' => decide (c'.actor.user = some user) :=
            List.filter_cons_of_pos (by simpa using huser)
      rw [hfilter] at hnew' ⊢
      obtain ⟨hsame, hnext⟩ := serve_user_congr fw hs hs' hview (hmine hl huser) hnew.fresh hnew'.fresh
      obtain ⟨hanswers, hviews⟩ := ih (serve_sound fw c hs) (serve_sound fw c hs') hnext hrest (hnew.next fw hs)
        (hnew'.next fw hs')
      refine ⟨?_, hviews⟩
      rw [run, run, List.filter_cons_of_pos (by simpa using huser), hanswers, hsame]
    · have hfilter : (c :: cs).filter (fun c' => decide (c'.actor.user = some user))
          = cs.filter fun c' => decide (c'.actor.user = some user) := List.filter_cons_of_neg (by simpa using huser)
      rw [hfilter] at hnew' ⊢
      obtain ⟨v, hv⟩ := hl
      have hne : v ≠ user := by
        rintro rfl
        exact huser hv.user
      have hnext : userView user (serve fw db c).2 = userView user db' := (serve_user_frame fw hs hv hne).trans hview
      obtain ⟨hanswers, hviews⟩ := ih (serve_sound fw c hs) hs' hnext hrest (hnew.next fw hs) hnew'
      refine ⟨?_, hviews⟩
      rw [run, List.filter_cons_of_neg (by simpa using huser)]
      exact hanswers

theorem inCharge_limited (user : String) : (inCharge user).Limited user where
  user := rfl
  own := by
    intro p hp
    refine ⟨_, List.mem_singleton_self _, ?_⟩
    have hown : ∀ p ∈ pairs,
        p.1.identifier ∈ ["budget_manage_own", "budget_position_manage_own", "budget_line_manage_own"] := by
      simp [pairs, budgetManageOwnRule, budgetPositionManageOwnRule, budgetLineManageOwnRule, manageOwn]
    exact hown p hp
  narrowed := by
    intro p hp role hrole hall
    obtain rfl := List.mem_singleton.mp hrole
    have hnone : ∀ p ∈ pairs,
        p.2.identifier ∉ ["budget_manage_own", "budget_position_manage_own", "budget_line_manage_own"] := by
      simp [pairs, budgetManageAllRule, budgetPositionManageAllRule, budgetLineManageAllRule, manageAll]
    exact absurd hall (hnone p hp)

/-- Each of the two users has their budget as if they were alone. -/
theorem users_isolated_sample : userView "U2" (run sampleFramework twoBudgets sampleCalls).2
    = userView "U2" (run sampleFramework twoBudgets (sampleCalls.filter fun c => c.actor.user = some "U2")).2 := by
  have hnew : NewKeys twoBudgets (sampleCalls.filter fun c => c.actor.user = some "U2") := ⟨by decide, by decide⟩
  have hlimited : ∀ c ∈ sampleCalls, ∃ v, c.actor.Limited v := by
    have hin : ∀ c ∈ sampleCalls, c.actor = inCharge "U1" ∨ c.actor = inCharge "U2" := by simp [sampleCalls]
    intro c hc
    rcases hin c hc with h | h <;> exact ⟨_, h ▸ inCharge_limited _⟩
  exact (users_isolated sampleFramework "U2" sampleCalls twoBudgets_sound twoBudgets_sound rfl hlimited sampleCalls_new
    hnew).2.1

end Users

end Totem.Budgets.Nested
