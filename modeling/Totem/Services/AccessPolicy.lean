import Totem.Lib.Selection

/-!
# Totem.Services.AccessPolicy — the records an operation may reach

`user.access_policy`: the rules of every role of the acting user are ANDed, the roles ORed, and the result is one
filter on the queryset.  `Q()` is the condition that says nothing: it is false in a boolean context, and it
vanishes in a combination.
-/

namespace Totem.Services

open Lib

variable {Model User R Rel J : Type}

/-! ## Combining lookups -/

/-- `bool(q)`: whether it has children; `~q` has those of `q`. -/
def isTruthy : Cond R Rel J → Bool
  | .all => false
  | .not q => isTruthy q
  | _ => true

/-- `p & q`. -/
def qAnd (p q : Cond R Rel J) : Cond R Rel J :=
  if isTruthy p = false then q else if isTruthy q = false then p else .and p q

/-- `p | q`. -/
def qOr (p q : Cond R Rel J) : Cond R Rel J :=
  if isTruthy p = false then q else if isTruthy q = false then p else .or p q

theorem rels_of_not_truthy {p : Cond R Rel J} (h : isTruthy p = false) : p.rels = [] := by
  cases p <;> simp_all [isTruthy, Cond.rels]

theorem rels_qAnd (p q : Cond R Rel J) : (qAnd p q).rels = p.rels ++ q.rels := by
  unfold qAnd
  split_ifs with hp hq
  · rw [rels_of_not_truthy hp, List.nil_append]
  · rw [rels_of_not_truthy hq, List.append_nil]
  · rfl

theorem rels_qOr (p q : Cond R Rel J) : (qOr p q).rels = p.rels ++ q.rels := by
  unfold qOr
  split_ifs with hp hq
  · rw [rels_of_not_truthy hp, List.nil_append]
  · rw [rels_of_not_truthy hq, List.append_nil]
  · rfl

/-! ## Rules -/

structure Rule (Model User R Rel J : Type) where
  identifier : String
  model : Model
  operations : List String
  scopeFilter : Option User → Cond R Rel J

/-- What a service needs of the environment it runs in: the registered rules, the acting user and the rules of
its roles. -/
structure Environment (Model User R Rel J : Type) where
  registry : List (Rule Model User R Rel J)
  user : Option User
  /-- `role.rules` of every role. -/
  roles : List (Option (List String))

variable [DecidableEq Model]

/-- `get_matching_rules`. -/
def getMatchingRules (registry : List (Rule Model User R Rel J)) (model : Model) (operation : String)
    (ruleIds : List String) : List (Rule Model User R Rel J) :=
  registry.filter fun rule =>
    decide (rule.model = model) && decide (operation ∈ rule.operations) && decide (rule.identifier ∈ ruleIds)

/-- One more rule of a role, if it applies. -/
def addRule (matching : List (Rule Model User R Rel J)) (user : Option User) (q : Cond R Rel J)
    (ruleId : String) : Cond R Rel J :=
  match matching.find? fun rule => rule.identifier = ruleId with
  | some rule => qAnd q (rule.scopeFilter user)
  | none => q

/-- The lookup of one role: its rules ANDed. -/
def roleLookup (matching : List (Rule Model User R Rel J)) (user : Option User) (ruleIds : List String) :
    Cond R Rel J :=
  ruleIds.foldl (addRule matching user) .all

/-- The filters `apply_access_rules` adds to a queryset of the model: at most one. -/
def applyAccessRules (env : Environment Model User R Rel J) (model : Model) (operation : String) :
    List (Cond R Rel J) :=
  let ruleGroups := env.roles.map fun rules => rules.getD []
  let matching := getMatchingRules env.registry model operation ruleGroups.flatten
  let lookups := (ruleGroups.map (roleLookup matching env.user)).filter isTruthy
  match lookups with
  | [] => []
  | lookup :: lookups =>
      let ruleLookup := lookups.foldl qOr lookup
      if isTruthy ruleLookup then [ruleLookup] else []

/-! ## Rules that cross no to-many relation -/

omit [DecidableEq Model] in
theorem rels_addRule {matching : List (Rule Model User R Rel J)} {user : Option User}
    (h : ∀ rule ∈ matching, (rule.scopeFilter user).rels = []) {q : Cond R Rel J} (hq : q.rels = [])
    (ruleId : String) : (addRule matching user q ruleId).rels = [] := by
  unfold addRule
  split
  · next rule hfind => rw [rels_qAnd, hq, h rule (List.mem_of_find?_eq_some hfind), List.append_nil]
  · exact hq

omit [DecidableEq Model] in
theorem rels_roleLookup {matching : List (Rule Model User R Rel J)} {user : Option User}
    (h : ∀ rule ∈ matching, (rule.scopeFilter user).rels = []) (ruleIds : List String) :
    (roleLookup matching user ruleIds).rels = [] := by
  have hfold : ∀ q : Cond R Rel J, q.rels = [] → (ruleIds.foldl (addRule matching user) q).rels = [] := by
    induction ruleIds with
    | nil => exact fun q hq => hq
    | cons ruleId ruleIds ih => exact fun q hq => ih _ (rels_addRule h hq ruleId)
  exact hfold .all rfl

/-- Where no rule joins rows, neither does the filter made of them. -/
theorem rels_applyAccessRules {env : Environment Model User R Rel J} {model : Model} {operation : String}
    (h : ∀ rule ∈ env.registry, rule.model = model → operation ∈ rule.operations →
      (rule.scopeFilter env.user).rels = []) :
    ∀ q ∈ applyAccessRules env model operation, q.rels = [] := by
  have hor : ∀ (lookups : List (Cond R Rel J)) (q : Cond R Rel J), q.rels = [] →
      (∀ q ∈ lookups, q.rels = []) → (lookups.foldl qOr q).rels = [] := by
    intro lookups
    induction lookups with
    | nil => exact fun q hq _ => hq
    | cons p lookups ih =>
      intro q hq hall
      refine ih (qOr q p) ?_ fun r hr => hall r (List.mem_cons_of_mem _ hr)
      rw [rels_qOr, hq, hall p (List.mem_cons_self ..), List.append_nil]
  have hlookups : ∀ q ∈ ((env.roles.map fun rules => rules.getD []).map (roleLookup (getMatchingRules env.registry
      model operation (env.roles.map fun rules => rules.getD []).flatten) env.user)).filter isTruthy, q.rels = [] := by
    intro q hq
    obtain ⟨ruleIds, -, rfl⟩ := List.mem_map.1 (List.mem_filter.1 hq).1
    refine rels_roleLookup (fun rule hrule => ?_) ruleIds
    simp only [getMatchingRules, List.mem_filter, Bool.and_eq_true, decide_eq_true_eq] at hrule
    exact h rule hrule.1 hrule.2.1.1 hrule.2.1.2
  unfold applyAccessRules
  simp only
  split
  · simp
  · next lookup lookups heq =>
    rw [heq] at hlookups
    intro q hq
    split_ifs at hq
    · rw [List.mem_singleton.1 hq]
      exact hor lookups lookup (hlookups lookup (List.mem_cons_self ..))
        fun p hp => hlookups p (List.mem_cons_of_mem _ hp)
    · cases hq

end Totem.Services
