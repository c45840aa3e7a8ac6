import Totem.Lib.Run
import Totem.Services.AccessPolicy

/-!
# Totem.Services.AccessComposition — what several roles and rules admit together

The rules of a role narrow it, the roles of a user widen each other; a rule without a filter, of another
operation or of another model, does neither.

* `registered_nodup`: a registry never holds two rules of one identifier.
* `admits_applyAccessRules`: the filter, read as a predicate on records.
* `access_rules_compose`: the union over the roles of the intersection of their rules.
* `selects_iff_admits`: the predicate is what the queryset selects, where no filter joins rows.
-/

namespace Totem.Services

open Lib

variable {Model User R Rel J : Type}

/-! ## The registry -/

/-- `register_rule`: refused when the identifier is taken. -/
def registerRule (registry : List (Rule Model User R Rel J)) (rule : Rule Model User R Rel J) :
    Option (List (Rule Model User R Rel J)) :=
  if rule.identifier ∈ registry.map Rule.identifier then none else some (registry ++ [rule])

/-- A registry filled by `register_rule`. -/
def Registered (registry : List (Rule Model User R Rel J)) : Prop :=
  ∃ rules : List (Rule Model User R Rel J), rules.foldlM registerRule [] = some registry

theorem registered_nodup {registry : List (Rule Model User R Rel J)} (h : Registered registry) :
    (registry.map Rule.identifier).Nodup := by
  obtain ⟨rules, h⟩ := h
  refine (Run.of_foldlM h).invariant (I := fun registry => (registry.map Rule.identifier).Nodup)
    (fun registry rule next hnodup hnext => ?_) List.nodup_nil
  unfold registerRule at hnext
  split_ifs at hnext with hmem
  obtain rfl := Option.some.inj hnext
  rw [List.map_append, List.nodup_append]
  refine ⟨hnodup, List.nodup_singleton _, ?_⟩
  rintro a ha b hb rfl
  rw [List.map_singleton, List.mem_singleton] at hb
  exact hmem (hb ▸ ha)

/-! ## Filters as predicates -/

/-- The filter says something of the record, and the record satisfies it; or it says nothing. -/
def Admits (joins : Joins R Rel J) (r : R) (q : Cond R Rel J) : Prop :=
  isTruthy q = true → q.somewhere joins r = true

variable {joins : Joins R Rel J} {r : R} {p q : Cond R Rel J}

theorem isTruthy_qAnd : isTruthy (qAnd p q) = (isTruthy p || isTruthy q) := by
  unfold qAnd
  split_ifs with hp hq
  · rw [hp, Bool.false_or]
  · rw [hq, Bool.or_false]
  · rw [Bool.not_eq_false] at hp
    rw [hp]
    rfl

theorem admits_qAnd : Admits joins r (qAnd p q) ↔ Admits joins r p ∧ Admits joins r q := by
  unfold Admits qAnd
  split_ifs with hp hq
  · simp [hp]
  · simp [hq]
  · rw [Bool.not_eq_false] at hp hq
    simp [isTruthy, hp, hq, Cond.somewhere]

theorem isTruthy_qOr (hp : isTruthy p = true) : isTruthy (qOr p q) = true := by
  unfold qOr
  split_ifs with hp' hq
  · rw [hp] at hp'
    cases hp'
  · exact hp
  · rfl

theorem somewhere_qOr (hp : isTruthy p = true) (hq : isTruthy q = true) :
    (qOr p q).somewhere joins r = true ↔ p.somewhere joins r = true ∨ q.somewhere joins r = true := by
  simp [qOr, hp, hq, Cond.somewhere]

/-- The roles, ORed. -/
theorem somewhere_foldl_qOr (joins : Joins R Rel J) (r : R) {lookups : List (Cond R Rel J)}
    (hp : isTruthy p = true) (h : ∀ q ∈ lookups, isTruthy q = true) : isTruthy (lookups.foldl qOr p) = true ∧
      ((lookups.foldl qOr p).somewhere joins r = true ↔
        ∃ q ∈ p :: lookups, q.somewhere joins r = true) := by
  induction lookups generalizing p with
  | nil => exact ⟨hp, by simp⟩
  | cons q lookups ih =>
    have hq := h q List.mem_cons_self
    obtain ⟨htruthy, hsomewhere⟩ := ih (isTruthy_qOr hp) fun q hq => h q (List.mem_cons_of_mem _ hq)
    refine ⟨htruthy, ?_⟩
    rw [List.foldl_cons, hsomewhere]
    simp only [List.exists_mem_cons_iff, somewhere_qOr hp hq, or_assoc]

/-! ## A role -/

section Roles

variable [DecidableEq Model] {env env' : Environment Model User R Rel J} {model : Model} {operation : String}

/-- A rule of the role, on the model, for the operation. -/
structure Applies (env : Environment Model User R Rel J) (model : Model) (operation : String)
    (role : Option (List String)) (rule : Rule Model User R Rel J) : Prop where
  registered : rule ∈ env.registry
  model : rule.model = model
  operation : operation ∈ rule.operations
  granted : rule.identifier ∈ role.getD []

/-- The role has a matching rule with a filter. -/
def HasFilter (env : Environment Model User R Rel J) (model : Model) (operation : String)
    (role : Option (List String)) : Prop :=
  ∃ rule, Applies env model operation role rule ∧ isTruthy (rule.scopeFilter env.user) = true

/-- The record satisfies every filter of the role. -/
def RoleAdmits (env : Environment Model User R Rel J) (model : Model) (operation : String)
    (joins : Joins R Rel J) (r : R) (role : Option (List String)) : Prop :=
  ∀ rule, Applies env model operation role rule → Admits joins r (rule.scopeFilter env.user)

/-- The rules of all the roles that match. -/
def matchingOf (env : Environment Model User R Rel J) (model : Model) (operation : String) :
    List (Rule Model User R Rel J) :=
  getMatchingRules env.registry model operation (env.roles.map fun rules => rules.getD []).flatten

/-- The lookup of one role of the user. -/
def lookupOf (env : Environment Model User R Rel J) (model : Model) (operation : String)
    (role : Option (List String)) : Cond R Rel J :=
  roleLookup (matchingOf env model operation) env.user (role.getD [])

omit [DecidableEq Model] in
theorem find?_eq_some_iff {rules : List (Rule Model User R Rel J)} (h : (rules.map Rule.identifier).Nodup)
    {rule : Rule Model User R Rel J} {identifier : String} :
    rules.find? (fun rule => rule.identifier = identifier) = some rule ↔
      rule ∈ rules ∧ rule.identifier = identifier := by
  constructor
  · intro hfind
    have hid := List.find?_some hfind
    rw [decide_eq_true_eq] at hid
    exact ⟨List.mem_of_find?_eq_some hfind, hid⟩
  · rintro ⟨hmem, rfl⟩
    cases hfind : rules.find? fun rule' => rule'.identifier = rule.identifier with
    | none => exact absurd (List.find?_eq_none.1 hfind rule hmem) (by simp)
    | some rule' =>
      have hid := List.find?_some hfind
      rw [decide_eq_true_eq] at hid
      rw [List.inj_on_of_nodup_map h (List.mem_of_find?_eq_some hfind) hmem hid]

/-- A rule found for a rule id of a role. -/
theorem find?_matching (h : Registered env.registry) {role : Option (List String)} (hrole : role ∈ env.roles)
    {rule : Rule Model User R Rel J} :
    (∃ id ∈ role.getD [], (matchingOf env model operation).find? (fun rule => rule.identifier = id) = some rule) ↔
      Applies env model operation role rule := by
  have hsub : (matchingOf env model operation).Sublist env.registry := List.filter_sublist
  have hnodup : ((matchingOf env model operation).map Rule.identifier).Nodup :=
    (registered_nodup h).sublist (hsub.map _)
  have hmem : rule ∈ matchingOf env model operation ↔ rule ∈ env.registry ∧
      (rule.model = model ∧ operation ∈ rule.operations) ∧
        rule.identifier ∈ (env.roles.map fun rules => rules.getD []).flatten := by
    simp only [matchingOf, getMatchingRules, List.mem_filter, Bool.and_eq_true, decide_eq_true_eq]
  constructor
  · rintro ⟨id, hid, hfind⟩
    obtain ⟨hrule, rfl⟩ := (find?_eq_some_iff hnodup).1 hfind
    obtain ⟨hreg, ⟨hmodel, hop⟩, -⟩ := hmem.1 hrule
    exact ⟨hreg, hmodel, hop, hid⟩
  · rintro ⟨hreg, hmodel, hop, hid⟩
    refine ⟨rule.identifier, hid, (find?_eq_some_iff hnodup).2 ⟨hmem.2 ⟨hreg, ⟨hmodel, hop⟩, ?_⟩, rfl⟩⟩
    exact List.mem_flatten.2 ⟨_, List.mem_map_of_mem hrole, hid⟩

omit [DecidableEq Model] in
/-- The rules of a role, ANDed one after the other. -/
theorem roleLookup_spec (joins : Joins R Rel J) (r : R) (matching : List (Rule Model User R Rel J))
    (user : Option User) (ruleIds : List String) (q : Cond R Rel J) :
    (isTruthy (ruleIds.foldl (addRule matching user) q) = true ↔ isTruthy q = true ∨
      ∃ rule, (∃ id ∈ ruleIds, matching.find? (fun rule => rule.identifier = id) = some rule) ∧
        isTruthy (rule.scopeFilter user) = true) ∧
    (Admits joins r (ruleIds.foldl (addRule matching user) q) ↔ Admits joins r q ∧
      ∀ rule, (∃ id ∈ ruleIds, matching.find? (fun rule => rule.identifier = id) = some rule) →
        Admits joins r (rule.scopeFilter user)) := by
  induction ruleIds generalizing q with
  | nil => simp
  | cons id ruleIds ih =>
    rw [List.foldl_cons, (ih _).1, (ih _).2]
    unfold addRule
    simp only [List.exists_mem_cons_iff]
    split
    · rename_i rule hfind
      rw [isTruthy_qAnd, admits_qAnd, Bool.or_eq_true, or_assoc, and_assoc]
      constructor
      · apply or_congr_right
        constructor
        · rintro (h | ⟨rule', h, htruthy⟩)
          · exact ⟨rule, .inl hfind, h⟩
          · exact ⟨rule', .inr h, htruthy⟩
        · rintro ⟨rule', h | h, htruthy⟩
          · obtain rfl := Option.some.inj (hfind.symm.trans h)
            exact .inl htruthy
          · exact .inr ⟨rule', h, htruthy⟩
      · apply and_congr_right
        intro _
        constructor
        · rintro ⟨hrule, h⟩ rule' (h' | h')
          · obtain rfl := Option.some.inj (hfind.symm.trans h')
            exact hrule
          · exact h rule' h'
        · exact fun h => ⟨h rule (.inl hfind), fun rule' h' => h rule' (.inr h')⟩
    · rename_i hfind
      simp only [hfind, reduceCtorEq, false_or]
      exact ⟨trivial, trivial⟩

/-- **One role.** -/
theorem lookupOf_spec (model : Model) (operation : String) (joins : Joins R Rel J) (r : R)
    (h : Registered env.registry) {role : Option (List String)} (hrole : role ∈ env.roles) :
    (isTruthy (lookupOf env model operation role) = true ↔ HasFilter env model operation role) ∧
    (Admits joins r (lookupOf env model operation role) ↔ RoleAdmits env model operation joins r role) := by
  have hspec := roleLookup_spec joins r (matchingOf env model operation) env.user (role.getD []) .all
  unfold lookupOf roleLookup
  rw [hspec.1, hspec.2]
  simp only [find?_matching h hrole]
  constructor
  · simp [isTruthy, HasFilter]
  · simp [Admits, isTruthy, RoleAdmits]

/-! ## All the roles -/

/-- The record is admitted: it satisfies the filter, if there is one. -/
def Admitted (env : Environment Model User R Rel J) (model : Model) (operation : String)
    (joins : Joins R Rel J) (r : R) : Prop :=
  ∀ q ∈ applyAccessRules env model operation, q.somewhere joins r = true

/-- The lookups of the roles that have one. -/
def lookups (env : Environment Model User R Rel J) (model : Model) (operation : String) :
    List (Cond R Rel J) :=
  (env.roles.map (lookupOf env model operation)).filter isTruthy

/-- The lookups, ORed, if there are any. -/
def orAll : List (Cond R Rel J) → List (Cond R Rel J)
  | [] => []
  | lookup :: rest => if isTruthy (rest.foldl qOr lookup) then [rest.foldl qOr lookup] else []

theorem applyAccessRules_eq :
    applyAccessRules env model operation = orAll (lookups env model operation) := by
  unfold applyAccessRules lookups
  simp only [List.map_map]
  rfl

theorem mem_lookups {q : Cond R Rel J} : q ∈ lookups env model operation ↔
    (∃ role ∈ env.roles, lookupOf env model operation role = q) ∧ isTruthy q = true := by
  rw [lookups, List.mem_filter, List.mem_map]

/-- **The filter of an operation**, as a predicate on records. -/
theorem admits_applyAccessRules (env : Environment Model User R Rel J) (h : Registered env.registry) :
    Admitted env model operation joins r ↔
    (∀ role ∈ env.roles, ¬ HasFilter env model operation role) ∨
      ∃ role ∈ env.roles, HasFilter env model operation role ∧ RoleAdmits env model operation joins r role := by
  have htruthy : ∀ q ∈ lookups env model operation, isTruthy q = true := fun q hq => (mem_lookups.1 hq).2
  have hrole : (∃ q ∈ lookups env model operation, q.somewhere joins r = true) ↔
      ∃ role ∈ env.roles, HasFilter env model operation role ∧ RoleAdmits env model operation joins r role := by
    constructor
    · rintro ⟨q, hq, hsomewhere⟩
      obtain ⟨⟨role, hmem, rfl⟩, hq⟩ := mem_lookups.1 hq
      have hspec := lookupOf_spec model operation joins r h hmem
      exact ⟨role, hmem, hspec.1.1 hq, hspec.2.1 fun _ => hsomewhere⟩
    · rintro ⟨role, hmem, hfilter, hadmits⟩
      have hspec := lookupOf_spec model operation joins r h hmem
      have hq := hspec.1.2 hfilter
      exact ⟨_, mem_lookups.2 ⟨⟨role, hmem, rfl⟩, hq⟩, hspec.2.2 hadmits hq⟩
  unfold Admitted
  rw [applyAccessRules_eq, ← hrole]
  cases hlookups : lookups env model operation with
  | nil =>
    have hnone : ∀ role ∈ env.roles, ¬ HasFilter env model operation role := by
      intro role hmem hfilter
      have hq := (lookupOf_spec model operation joins r h hmem).1.2 hfilter
      have hin : lookupOf env model operation role ∈ lookups env model operation :=
        mem_lookups.2 ⟨⟨role, hmem, rfl⟩, hq⟩
      rw [hlookups] at hin
      cases hin
    exact ⟨fun _ => .inl hnone, fun _ q hq => by cases hq⟩
  | cons lookup rest =>
    rw [hlookups] at htruthy
    obtain ⟨hfold, hsomewhere⟩ := somewhere_foldl_qOr joins r (htruthy lookup List.mem_cons_self)
      fun q hq => htruthy q (List.mem_cons_of_mem _ hq)
    have hsome : ¬ ∀ role ∈ env.roles, ¬ HasFilter env model operation role := by
      intro hnone
      have hin : lookup ∈ lookups env model operation := by rw [hlookups]; exact List.mem_cons_self
      obtain ⟨⟨role, hmem, rfl⟩, hq⟩ := mem_lookups.1 hin
      exact hnone role hmem ((lookupOf_spec model operation joins r h hmem).1.1 hq)
    simp only [orAll, hfold, if_true, List.mem_singleton, forall_eq, hsomewhere, hsome, false_or]

/-- The same rules and the same roles, whatever the order and the repetitions. -/
structure SameRules (env env' : Environment Model User R Rel J) : Prop where
  user : env.user = env'.user
  registry : ∀ rule, rule ∈ env.registry ↔ rule ∈ env'.registry
  roles : ∀ role ∈ env.roles, ∃ role' ∈ env'.roles, ∀ id, id ∈ role.getD [] ↔ id ∈ role'.getD []
  roles' : ∀ role' ∈ env'.roles, ∃ role ∈ env.roles, ∀ id, id ∈ role.getD [] ↔ id ∈ role'.getD []

omit [DecidableEq Model] in
theorem SameRules.symm (h : SameRules env env') : SameRules env' env where
  user := h.user.symm
  registry rule := (h.registry rule).symm
  roles role' hrole' := by
    obtain ⟨role, hrole, hids⟩ := h.roles' role' hrole'
    exact ⟨role, hrole, fun id => (hids id).symm⟩
  roles' role hrole := by
    obtain ⟨role', hrole', hids⟩ := h.roles role hrole
    exact ⟨role', hrole', fun id => (hids id).symm⟩

omit [DecidableEq Model] in
theorem applies_congr (hregistry : ∀ rule, rule ∈ env.registry ↔ rule ∈ env'.registry)
    {role role' : Option (List String)} (hids : ∀ id, id ∈ role.getD [] ↔ id ∈ role'.getD [])
    {rule : Rule Model User R Rel J} :
    Applies env model operation role rule ↔ Applies env' model operation role' rule := by
  constructor
  · rintro ⟨hreg, hmodel, hop, hid⟩
    exact ⟨(hregistry rule).1 hreg, hmodel, hop, (hids _).1 hid⟩
  · rintro ⟨hreg, hmodel, hop, hid⟩
    exact ⟨(hregistry rule).2 hreg, hmodel, hop, (hids _).2 hid⟩

/-- What the composition says of a record: no role filters, or some role that does admits it. -/
def Composed (env : Environment Model User R Rel J) (model : Model) (operation : String)
    (joins : Joins R Rel J) (r : R) : Prop :=
  (∀ role ∈ env.roles, ¬ HasFilter env model operation role) ∨
    ∃ role ∈ env.roles, HasFilter env model operation role ∧ RoleAdmits env model operation joins r role

omit [DecidableEq Model] in
theorem SameRules.composed (h : SameRules env env') (hc : Composed env model operation joins r) :
    Composed env' model operation joins r := by
  have hrole : ∀ role role' : Option (List String), (∀ id, id ∈ role.getD [] ↔ id ∈ role'.getD []) →
      (HasFilter env model operation role ↔ HasFilter env' model operation role') ∧
        (RoleAdmits env model operation joins r role ↔ RoleAdmits env' model operation joins r role') := by
    intro role role' hids
    simp only [HasFilter, RoleAdmits, applies_congr h.registry hids, h.user, and_self]
  rcases hc with hnone | ⟨role, hmem, hfilter, hadmits⟩
  · refine .inl fun role' hrole' hfilter => ?_
    obtain ⟨role, hmem, hids⟩ := h.roles' role' hrole'
    exact hnone role hmem ((hrole role role' hids).1.2 hfilter)
  · obtain ⟨role', hmem', hids⟩ := h.roles role hmem
    exact .inr ⟨role', hmem', (hrole role role' hids).1.1 hfilter, (hrole role role' hids).2.1 hadmits⟩

/-- **Composition of access rules.**  With the filters read as predicates on records: everything is admitted
when no role has a matching rule with a filter, and else what satisfies all the filters of one of the roles
that have some.  The order and repetition of roles and rules do not matter, and one more role takes nothing
away from what a role with a filter admits. -/
theorem access_rules_compose (h : Registered env.registry) (model : Model) (operation : String)
    (joins : Joins R Rel J) :
    (∀ r, Admitted env model operation joins r ↔ Composed env model operation joins r) ∧
    (∀ env', Registered env'.registry → SameRules env env' → ∀ r,
      Admitted env model operation joins r ↔ Admitted env' model operation joins r) ∧
    ∀ before after role, env.roles = before ++ after → ∀ r,
      (∃ other ∈ env.roles, HasFilter env model operation other ∧
        RoleAdmits env model operation joins r other) →
      Admitted { env with roles := before ++ role :: after } model operation joins r := by
  refine ⟨fun r => admits_applyAccessRules env h, fun env' h' hsame r => ?_, ?_⟩
  · rw [admits_applyAccessRules env h, admits_applyAccessRules env' h']
    exact ⟨hsame.composed, hsame.symm.composed⟩
  · rintro before after role hroles r ⟨other, hother, hfilter, hadmits⟩
    refine (admits_applyAccessRules { env with roles := before ++ role :: after } h).2
      (.inr ⟨other, ?_, ?_, ?_⟩)
    · rw [hroles] at hother
      rcases List.mem_append.1 hother with hmem | hmem
      · exact List.mem_append_left _ hmem
      · exact List.mem_append_right _ (List.mem_cons_of_mem _ hmem)
    · obtain ⟨rule, happlies, htruthy⟩ := hfilter
      exact ⟨rule, ⟨happlies.registered, happlies.model, happlies.operation, happlies.granted⟩, htruthy⟩
    · intro rule happlies
      exact hadmits rule ⟨happlies.registered, happlies.model, happlies.operation, happlies.granted⟩

/-- **What the queryset selects** is what is admitted, where no filter crosses a to-many relation. -/
theorem selects_iff_admits (h : ∀ rule ∈ env.registry, rule.model = model → operation ∈ rule.operations →
    (rule.scopeFilter env.user).rels = []) :
    Selects joins (applyAccessRules env model operation) r ↔ Admitted env model operation joins r :=
  forall₂_congr fun q hq => Cond.hits_ne_nil_iff joins (rels_applyAccessRules h q hq) r

end Roles

section Sample

/-- Records have an owner; the rule of the owner, and one that admits everything. -/
def ownerRule : Rule Unit ℕ ℕ Empty Unit where
  identifier := "budget_manage_own"
  model := ()
  operations := ["create", "read", "update", "delete"]
  scopeFilter user := user.elim .all fun user => .column fun owner => decide (owner = user)

def everyoneRule : Rule Unit ℕ ℕ Empty Unit where
  identifier := "budget_manage_all"
  model := ()
  operations := ["create", "read", "update", "delete"]
  scopeFilter _ := .column fun _ => true

/-- The user 1, with a role limited to its own budgets. -/
def budgetUser : Environment Unit ℕ ℕ Empty Unit := ⟨[ownerRule, everyoneRule], some 1, [some ["budget_manage_own"]]⟩

def oneRow : Joins ℕ Empty Unit := ⟨fun _ _ => [()], fun _ => rfl⟩

theorem access_rules_compose_sample : Admitted budgetUser () "read" oneRow 1 ∧
    ¬ Admitted budgetUser () "read" oneRow 2 ∧
      Admitted { budgetUser with roles := [some ["budget_manage_all"], some ["budget_manage_own"]] }
        () "read" oneRow 1 := by
  have hregistered : Registered budgetUser.registry := ⟨[ownerRule, everyoneRule], rfl⟩
  have happlies : Applies budgetUser () "read" (some ["budget_manage_own"]) ownerRule :=
    ⟨List.mem_cons_self, rfl, by decide, by decide⟩
  have hfilter : HasFilter budgetUser () "read" (some ["budget_manage_own"]) := ⟨ownerRule, happlies, rfl⟩
  have honly : ∀ r rule, Applies budgetUser () "read" (some ["budget_manage_own"]) rule →
      (Admits oneRow r (rule.scopeFilter budgetUser.user) ↔ r = 1) := by
    rintro r rule ⟨hreg, -, -, hid⟩
    simp only [budgetUser, List.mem_cons, List.not_mem_nil, or_false] at hreg
    rcases hreg with rfl | rfl
    · simp [Admits, ownerRule, budgetUser, isTruthy, Cond.somewhere]
    · simp [everyoneRule] at hid
  obtain ⟨hcompose, -, hmore⟩ := access_rules_compose hregistered () "read" oneRow
  have hadmits : RoleAdmits budgetUser () "read" oneRow 1 (some ["budget_manage_own"]) :=
    fun rule hrule => (honly 1 rule hrule).2 rfl
  refine ⟨(hcompose 1).2 (.inr ⟨_, List.mem_cons_self, hfilter, hadmits⟩), fun h => ?_,
    hmore [] [some ["budget_manage_own"]] _ rfl 1 ⟨_, List.mem_cons_self, hfilter, hadmits⟩⟩
  rcases (hcompose 2).1 h with hnone | ⟨role, hrole, -, hadmits⟩
  · exact hnone _ List.mem_cons_self hfilter
  · obtain rfl := List.mem_singleton.1 hrole
    exact absurd ((honly 2 ownerRule happlies).1 (hadmits ownerRule happlies)) (by decide)

end Sample

end Totem.Services
