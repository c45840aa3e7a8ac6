import Totem.Computed.Schema

/-!
# Totem.Computed.Expression — which columns are generated, and what is watched for them

`is_row_local` and `ComputedField.__new__`, which hand a stored field to the database as a generated
column, and `_field_names` with `_referenced_names`, which tell the names that a dependency on it watches.

* `Expression`, `Q`: the trees of django, with `F`, functions, arithmetic and `Case`.
* `eval_congr`: a value is a function of what occurs in its expression.
* `triggers_complete_iff`: when everything that can change the column is watched.
-/

namespace Totem.Computed

/-! ## Expressions -/

/-- How two conditions are combined. -/
inductive Connector
  | and
  | or
  | xor
deriving DecidableEq

/- A name is given as its parts between `LOOKUP_SEP`. -/
mutual

/-- What `annotation_method` returns. -/
inductive Expression (N V : Type)
  | f (name : List N)
  | value (v : V)
  | func (function : String) (sources : List (Expression N V))
  | combined (lhs : Expression N V) (connector : String) (rhs : Expression N V)
  | case (cases : List (When N V)) (default : Expression N V)
  | aggregate (function : String) (sources : List (Expression N V))
  | window (source : Expression N V)
  | subquery

inductive When (N V : Type)
  | mk (condition : Q N V) (result : Expression N V)

/-- A condition; a lookup is a name, maybe with transforms and an operator, and a right-hand side. -/
inductive Q (N V : Type)
  | lookup (name : List N) (rhs : Expression N V)
  | combine (connector : Connector) (lhs rhs : Q N V)
  | invert (q : Q N V)

end

section Expression

variable {N V : Type}

/-- `any` of attributes that may not exist: it stops at the first that is true, or is missing. -/
def anyAttribute : Option Bool → Option Bool → Option Bool
  | some false, b => b
  | a, _ => a

mutual

/-- `contains_aggregate`: neither an `F` nor a `Q` has it. -/
def Expression.containsAggregate : Expression N V → Option Bool
  | .f _ => none
  | .value _ => some false
  | .func _ sources => anyContainsAggregate sources
  | .combined lhs _ rhs => anyAttribute lhs.containsAggregate rhs.containsAggregate
  | .case cases default => anyAttribute (casesContainAggregate cases) default.containsAggregate
  | .aggregate _ _ => some true
  | .window _ => some false
  | .subquery => some false

def anyContainsAggregate : List (Expression N V) → Option Bool
  | [] => some false
  | e :: es => anyAttribute e.containsAggregate (anyContainsAggregate es)

/-- The condition comes first, and has no such attribute. -/
def casesContainAggregate : List (When N V) → Option Bool
  | [] => some false
  | _ :: _ => none

end

mutual

/-- `contains_over_clause`. -/
def Expression.containsOverClause : Expression N V → Option Bool
  | .f _ => none
  | .value _ => some false
  | .func _ sources => anyContainsOverClause sources
  | .combined lhs _ rhs => anyAttribute lhs.containsOverClause rhs.containsOverClause
  | .case cases default => anyAttribute (casesContainOverClause cases) default.containsOverClause
  | .aggregate _ sources => anyContainsOverClause sources
  | .window _ => some true
  | .subquery => some false

def anyContainsOverClause : List (Expression N V) → Option Bool
  | [] => some false
  | e :: es => anyAttribute e.containsOverClause (anyContainsOverClause es)

def casesContainOverClause : List (When N V) → Option Bool
  | [] => some false
  | _ :: _ => none

end

/-- The two `getattr` of `is_row_local`; a missing attribute reads as false. -/
def Expression.aggregates (e : Expression N V) : Bool :=
  e.containsAggregate.getD false || e.containsOverClause.getD false

mutual

/-- `is_row_local`. -/
def Expression.isRowLocal : Expression N V → Bool
  | .f name => decide (name.length = 1)
  | .value v => !(Expression.value (N := N) v).aggregates
  | .func function sources => !(Expression.func function sources).aggregates && allRowLocal sources
  | .combined lhs connector rhs =>
    !(Expression.combined lhs connector rhs).aggregates && (lhs.isRowLocal && rhs.isRowLocal)
  | .case cases default =>
    !(Expression.case cases default).aggregates && (casesRowLocal cases && default.isRowLocal)
  | .aggregate function sources => !(Expression.aggregate function sources).aggregates && allRowLocal sources
  | .window source => !(Expression.window source).aggregates && source.isRowLocal
  | .subquery => false

def allRowLocal : List (Expression N V) → Bool
  | [] => true
  | e :: es => e.isRowLocal && allRowLocal es

/-- A `Q` has no source expressions: it counts as a plain value. -/
def When.isRowLocal : When N V → Bool
  | .mk _ result => result.isRowLocal

def casesRowLocal : List (When N V) → Bool
  | [] => true
  | w :: ws => w.isRowLocal && casesRowLocal ws

end

mutual

/-- `_referenced_names`; it does not descend into a `Q` either. -/
def Expression.referencedNames : Expression N V → List (List N)
  | .f name => [name]
  | .value _ => []
  | .func _ sources => allReferencedNames sources
  | .combined lhs _ rhs => lhs.referencedNames ++ rhs.referencedNames
  | .case cases default => casesReferencedNames cases ++ default.referencedNames
  | .aggregate _ sources => allReferencedNames sources
  | .window source => source.referencedNames
  | .subquery => []

def allReferencedNames : List (Expression N V) → List (List N)
  | [] => []
  | e :: es => e.referencedNames ++ allReferencedNames es

def When.referencedNames : When N V → List (List N)
  | .mk _ result => result.referencedNames

def casesReferencedNames : List (When N V) → List (List N)
  | [] => []
  | w :: ws => w.referencedNames ++ casesReferencedNames ws

end

/-- `_field_names` of a generated column. -/
def generatedNames (column : N) (e : Expression N V) : List (List N) := [column] :: e.referencedNames

/-- What `ComputedField(...)` constructs. -/
inductive Constructed (N V : Type)
  | computed
  | generated (expression : Expression N V)

/-- `ComputedField.__new__`; `expression` is that of the `annotation_method`, `some none` when it
raises at declaration. -/
def ComputedField.new (stored : Bool) (expression : Option (Option (Expression N V))) (prefetch : Bool) :
    Constructed N V :=
  match stored, expression, prefetch with
  | true, some (some e), false => if e.isRowLocal then .generated e else .computed
  | _, _, _ => .computed

/-! ## What an expression refers to -/

/-- A name, or other rows: what an aggregate, a window or a subquery reads. -/
inductive Reference (N : Type)
  | name (parts : List N)
  | rows

mutual

/-- What the expression refers to, and whether from within a condition. -/
def Expression.references : Expression N V → List (Bool × Reference N)
  | .f name => [(false, .name name)]
  | .value _ => []
  | .func _ sources => allReferences sources
  | .combined lhs _ rhs => lhs.references ++ rhs.references
  | .case cases default => casesReferences cases ++ default.references
  | .aggregate _ sources => (false, .rows) :: allReferences sources
  | .window source => (false, .rows) :: source.references
  | .subquery => [(false, .rows)]

def allReferences : List (Expression N V) → List (Bool × Reference N)
  | [] => []
  | e :: es => e.references ++ allReferences es

def When.references : When N V → List (Bool × Reference N)
  | .mk condition result => condition.references.map (Prod.mk true) ++ result.references

def casesReferences : List (When N V) → List (Bool × Reference N)
  | [] => []
  | w :: ws => w.references ++ casesReferences ws

/-- The names looked up, and what the right-hand sides refer to. -/
def Q.references : Q N V → List (Reference N)
  | .lookup name rhs => .name name :: rhs.references.map Prod.snd
  | .combine _ lhs rhs => lhs.references ++ rhs.references
  | .invert q => q.references

end

/-! ## Values -/

/-- What the database computes: functions, operators, lookups. -/
structure Interpretation (N V : Type) where
  func : String → List V → V
  combined : String → V → V → V
  lookup : List N → V → V → Option Bool
  connect : Connector → Option Bool → Option Bool → Option Bool
  invert : Option Bool → Option Bool

mutual

/-- The value on a row, `env` being what its names stand for there; none for what reads other rows. -/
def Expression.eval (I : Interpretation N V) (env : List N → V) : Expression N V → Option V
  | .f name => some (env name)
  | .value v => some v
  | .func function sources => (evalAll I env sources).map (I.func function)
  | .combined lhs connector rhs =>
    match lhs.eval I env, rhs.eval I env with
    | some v, some w => some (I.combined connector v w)
    | _, _ => none
  | .case cases default => evalCases I env (default.eval I env) cases
  | .aggregate _ _ | .window _ | .subquery => none

def evalAll (I : Interpretation N V) (env : List N → V) : List (Expression N V) → Option (List V)
  | [] => some []
  | e :: es =>
    match e.eval I env, evalAll I env es with
    | some v, some vs => some (v :: vs)
    | _, _ => none

/-- The result of the first case whose condition is true. -/
def evalCases (I : Interpretation N V) (env : List N → V) (default : Option V) :
    List (When N V) → Option V
  | [] => default
  | .mk condition result :: ws =>
    if condition.eval I env = some true then result.eval I env else evalCases I env default ws

def Q.eval (I : Interpretation N V) (env : List N → V) : Q N V → Option Bool
  | .lookup name rhs => (rhs.eval I env).bind (I.lookup name (env name))
  | .combine connector lhs rhs => I.connect connector (lhs.eval I env) (rhs.eval I env)
  | .invert q => I.invert (q.eval I env)

end

variable {I : Interpretation N V} {env env' : List N → V}

mutual

/-- **A value is a function of the names in its expression.** -/
theorem Expression.eval_congr : (e : Expression N V) →
    (∀ o ∈ e.references, ∀ name, o.2 = .name name → env name = env' name) →
    e.eval I env = e.eval I env'
  | .f name, h => by
    have hname := h (false, .name name) (List.mem_singleton_self _) name rfl
    simp only [Expression.eval, hname]
  | .value v, _ => rfl
  | .func function sources, h => by
    simp only [Expression.eval, evalAll_congr sources h]
  | .combined lhs connector rhs, h => by
    have hl := lhs.eval_congr fun o ho => h o (List.mem_append_left _ ho)
    have hr := rhs.eval_congr fun o ho => h o (List.mem_append_right _ ho)
    simp only [Expression.eval, hl, hr]
  | .case cases default, h => by
    have hdefault := default.eval_congr fun o ho => h o (List.mem_append_right _ ho)
    simp only [Expression.eval, hdefault]
    exact evalCases_congr cases _ fun o ho => h o (List.mem_append_left _ ho)
  | .aggregate _ _, _ => rfl
  | .window _, _ => rfl
  | .subquery, _ => rfl

theorem evalAll_congr : (es : List (Expression N V)) →
    (∀ o ∈ allReferences es, ∀ name, o.2 = .name name → env name = env' name) →
    evalAll I env es = evalAll I env' es
  | [], _ => rfl
  | e :: es, h => by
    have he := e.eval_congr fun o ho => h o (List.mem_append_left _ ho)
    have hes := evalAll_congr es fun o ho => h o (List.mem_append_right _ ho)
    simp only [evalAll, he, hes]

theorem evalCases_congr : (ws : List (When N V)) → (default : Option V) →
    (∀ o ∈ casesReferences ws, ∀ name, o.2 = .name name → env name = env' name) →
    evalCases I env default ws = evalCases I env' default ws
  | [], _, _ => rfl
  | .mk condition result :: ws, default, h => by
    have hwhen : ∀ o ∈ (When.mk condition result).references, ∀ name, o.2 = .name name →
        env name = env' name := fun o ho => h o (List.mem_append_left _ ho)
    have hc := condition.eval_congr fun name hname =>
      hwhen (true, .name name) (List.mem_append_left _ (List.mem_map_of_mem hname)) name rfl
    have hr := result.eval_congr fun o ho => hwhen o (List.mem_append_right _ ho)
    have hws := evalCases_congr ws default fun o ho => h o (List.mem_append_right _ ho)
    simp only [evalCases, hc, hr, hws]

theorem Q.eval_congr : (q : Q N V) → (∀ name, .name name ∈ q.references → env name = env' name) →
    q.eval I env = q.eval I env'
  | .lookup name rhs, h => by
    have hname := h name List.mem_cons_self
    have hrhs := rhs.eval_congr fun o ho name hname =>
      h name (List.mem_cons_of_mem _ (List.mem_map.mpr ⟨o, ho, hname⟩))
    simp only [Q.eval, hname, hrhs]
  | .combine connector lhs rhs, h => by
    have hl := lhs.eval_congr fun name hn => h name (List.mem_append_left _ hn)
    have hr := rhs.eval_congr fun name hn => h name (List.mem_append_right _ hn)
    simp only [Q.eval, hl, hr]
  | .invert q, h => by
    have hq := q.eval_congr h
    simp only [Q.eval, hq]

end

/-! ## What the code sees -/

mutual

/-- **The names referenced** are those outside the conditions. -/
theorem Expression.mem_referencedNames {name : List N} : (e : Expression N V) →
    (name ∈ e.referencedNames ↔ (false, .name name) ∈ e.references)
  | .f _ => by simp [Expression.referencedNames, Expression.references]
  | .value _ => by simp [Expression.referencedNames, Expression.references]
  | .func _ sources => by
    simp only [Expression.referencedNames, Expression.references, mem_allReferencedNames sources]
  | .combined lhs _ rhs => by
    simp only [Expression.referencedNames, Expression.references, List.mem_append, lhs.mem_referencedNames,
      rhs.mem_referencedNames]
  | .case cases default => by
    simp only [Expression.referencedNames, Expression.references, List.mem_append, mem_casesReferencedNames cases,
      default.mem_referencedNames]
  | .aggregate _ sources => by
    simp [Expression.referencedNames, Expression.references, mem_allReferencedNames sources]
  | .window source => by simp [Expression.referencedNames, Expression.references, source.mem_referencedNames]
  | .subquery => by simp [Expression.referencedNames, Expression.references]

theorem mem_allReferencedNames {name : List N} : (es : List (Expression N V)) →
    (name ∈ allReferencedNames es ↔ (false, .name name) ∈ allReferences es)
  | [] => by simp [allReferencedNames, allReferences]
  | e :: es => by
    simp only [allReferencedNames, allReferences, List.mem_append, e.mem_referencedNames,
      mem_allReferencedNames es]

theorem mem_casesReferencedNames {name : List N} : (ws : List (When N V)) →
    (name ∈ casesReferencedNames ws ↔ (false, .name name) ∈ casesReferences ws)
  | [] => by simp [casesReferencedNames, casesReferences]
  | .mk condition result :: ws => by
    have hcondition : (false, .name name) ∉ condition.references.map (Prod.mk true) := by simp
    simp only [casesReferencedNames, casesReferences, When.referencedNames, When.references,
      List.mem_append, result.mem_referencedNames, mem_casesReferencedNames ws, hcondition, false_or]

end

theorem anyAttribute_eq_true {a b : Option Bool} (h : anyAttribute a b = some true) :
    a = some true ∨ b = some true := by
  match a, h with
  | some true, _ => exact .inl rfl
  | some false, h => exact .inr h

mutual

theorem Expression.rows_of_containsAggregate : (e : Expression N V) → e.containsAggregate = some true →
    (false, .rows) ∈ e.references
  | .f _, h => by simp [Expression.containsAggregate] at h
  | .value _, h => by simp [Expression.containsAggregate] at h
  | .func _ sources, h => rows_of_anyContainsAggregate sources h
  | .combined lhs _ rhs, h =>
    match anyAttribute_eq_true h with
    | .inl h => List.mem_append_left _ (lhs.rows_of_containsAggregate h)
    | .inr h => List.mem_append_right _ (rhs.rows_of_containsAggregate h)
  | .case cases default, h =>
    match anyAttribute_eq_true h with
    | .inl h => by cases cases <;> simp [casesContainAggregate] at h
    | .inr h => List.mem_append_right _ (default.rows_of_containsAggregate h)
  | .aggregate _ _, _ => List.mem_cons_self
  | .window _, _ => List.mem_cons_self
  | .subquery, _ => List.mem_singleton_self _

theorem rows_of_anyContainsAggregate : (es : List (Expression N V)) →
    anyContainsAggregate es = some true → (false, .rows) ∈ allReferences es
  | [], h => by simp [anyContainsAggregate] at h
  | e :: es, h =>
    match anyAttribute_eq_true h with
    | .inl h => List.mem_append_left _ (e.rows_of_containsAggregate h)
    | .inr h => List.mem_append_right _ (rows_of_anyContainsAggregate es h)

end

mutual

theorem Expression.rows_of_containsOverClause : (e : Expression N V) → e.containsOverClause = some true →
    (false, .rows) ∈ e.references
  | .f _, h => by simp [Expression.containsOverClause] at h
  | .value _, h => by simp [Expression.containsOverClause] at h
  | .func _ sources, h => rows_of_anyContainsOverClause sources h
  | .combined lhs _ rhs, h =>
    match anyAttribute_eq_true h with
    | .inl h => List.mem_append_left _ (lhs.rows_of_containsOverClause h)
    | .inr h => List.mem_append_right _ (rhs.rows_of_containsOverClause h)
  | .case cases default, h =>
    match anyAttribute_eq_true h with
    | .inl h => by cases cases <;> simp [casesContainOverClause] at h
    | .inr h => List.mem_append_right _ (default.rows_of_containsOverClause h)
  | .aggregate _ _, _ => List.mem_cons_self
  | .window _, _ => List.mem_cons_self
  | .subquery, _ => List.mem_singleton_self _

theorem rows_of_anyContainsOverClause : (es : List (Expression N V)) →
    anyContainsOverClause es = some true → (false, .rows) ∈ allReferences es
  | [], h => by simp [anyContainsOverClause] at h
  | e :: es, h =>
    match anyAttribute_eq_true h with
    | .inl h => List.mem_append_left _ (e.rows_of_containsOverClause h)
    | .inr h => List.mem_append_right _ (rows_of_anyContainsOverClause es h)

end

/-- The attributes, missing or not, never refuse what the descent would accept. -/
theorem Expression.not_aggregates {e : Expression N V} (h : (false, .rows) ∉ e.references) :
    (!e.aggregates) = true := by
  rw [Bool.not_eq_true', aggregates, Bool.or_eq_false_iff]
  constructor
  · match hattr : e.containsAggregate with
    | none => rfl
    | some false => rfl
    | some true => exact absurd (e.rows_of_containsAggregate hattr) h
  · match hattr : e.containsOverClause with
    | none => rfl
    | some false => rfl
    | some true => exact absurd (e.rows_of_containsOverClause hattr) h

/-- Nothing but single names, outside the conditions. -/
def Single (references : List (Bool × Reference N)) : Prop :=
  ∀ r, (false, r) ∈ references → ∃ n, r = .name [n]

theorem Single.append {as bs : List (Bool × Reference N)} :
    Single (as ++ bs) ↔ Single as ∧ Single bs := by
  unfold Single
  simp only [List.mem_append, or_imp, forall_and]

theorem Single.rows_notMem {as : List (Bool × Reference N)} (h : Single as) : (false, .rows) ∉ as := by
  intro hmem
  obtain ⟨n, hn⟩ := h .rows hmem
  cases hn

theorem Single.conditions (as : List (Reference N)) : Single (as.map (Prod.mk true)) := by
  intro r hr
  simp at hr

mutual

/-- **What `is_row_local` accepts**: nothing but single names, outside the conditions. -/
theorem Expression.isRowLocal_iff : (e : Expression N V) → (e.isRowLocal = true ↔ Single e.references)
  | .f name => by
    simp only [Expression.isRowLocal, Expression.references, Single, decide_eq_true_eq,
      List.length_eq_one_iff, List.mem_singleton, Prod.mk.injEq, true_and, forall_eq]
    simp
  | .value v => by
    simp [Expression.isRowLocal, Expression.references, Single, Expression.aggregates,
      Expression.containsAggregate, Expression.containsOverClause]
  | .func function sources => by
    rw [Expression.isRowLocal, Bool.and_eq_true, allRowLocal_iff sources]
    exact and_iff_right_of_imp fun h => Expression.not_aggregates h.rows_notMem
  | .combined lhs connector rhs => by
    have happend : Single lhs.references ∧ Single rhs.references ↔
        Single (Expression.combined lhs connector rhs).references := Single.append.symm
    rw [Expression.isRowLocal, Bool.and_eq_true, Bool.and_eq_true, lhs.isRowLocal_iff, rhs.isRowLocal_iff,
      happend]
    exact and_iff_right_of_imp fun h => Expression.not_aggregates h.rows_notMem
  | .case cases default => by
    have happend : Single (casesReferences cases) ∧ Single default.references ↔
        Single (Expression.case cases default).references := Single.append.symm
    rw [Expression.isRowLocal, Bool.and_eq_true, Bool.and_eq_true, casesRowLocal_iff cases,
      default.isRowLocal_iff, happend]
    exact and_iff_right_of_imp fun h => Expression.not_aggregates h.rows_notMem
  | .aggregate function sources => by
    have hrows : ¬ Single (Expression.aggregate function sources).references := fun h =>
      h.rows_notMem List.mem_cons_self
    simp [Expression.isRowLocal, Expression.aggregates, Expression.containsAggregate, hrows]
  | .window source => by
    have hrows : ¬ Single (Expression.window source).references := fun h => h.rows_notMem List.mem_cons_self
    simp [Expression.isRowLocal, Expression.aggregates, Expression.containsOverClause, hrows]
  | .subquery => by
    have hrows : ¬ Single (Expression.subquery (N := N) (V := V)).references := fun h =>
      h.rows_notMem (List.mem_singleton_self _)
    simp [Expression.isRowLocal, hrows]

theorem allRowLocal_iff : (es : List (Expression N V)) → (allRowLocal es = true ↔ Single (allReferences es))
  | [] => by simp [allRowLocal, allReferences, Single]
  | e :: es => by
    rw [allRowLocal, Bool.and_eq_true, e.isRowLocal_iff, allRowLocal_iff es]
    exact Single.append.symm

theorem casesRowLocal_iff : (ws : List (When N V)) →
    (casesRowLocal ws = true ↔ Single (casesReferences ws))
  | [] => by simp [casesRowLocal, casesReferences, Single]
  | .mk condition result :: ws => by
    rw [casesRowLocal, When.isRowLocal, Bool.and_eq_true, result.isRowLocal_iff, casesRowLocal_iff ws,
      casesReferences, Single.append, When.references, Single.append]
    simp only [Single.conditions, true_and]

end

end Expression

section Triggers

variable {M N K V : Type} [DecidableEq M] [DecidableEq N]

/-! ## Columns of the row -/

/-- What a name reads on a row: a field of it, or something of other rows. -/
inductive Read (M N K V : Type)
  | own (f : Field M N K V)
  | other

/-- What a name reads from the model `m`: a key crosses when the next part is a field of its target, and
is itself a column; the other relations always cross. -/
def nameReads (S : Schema M N K V) (m : M) : List N → List (Read M N K V)
  | [] => []
  | name :: rest =>
    match S.getField m name with
    | none => []
    | some (.reverse _ _) => [.other]
    | some (.own f) =>
      match f.target with
      | none => [.own f]
      | some target =>
        if !f.isKey then [.other]
        else if rest.head?.any fun next => (S.getField target next).isSome then [.own f, .other]
        else [.own f]

def Reference.reads (S : Schema M N K V) (m : M) : Reference N → List (Read M N K V)
  | .name parts => nameReads S m parts
  | .rows => [.other]

/-- What the value of an expression on a row of `m` is computed from. -/
def Expression.reads (S : Schema M N K V) (m : M) (e : Expression N V) : List (Read M N K V) :=
  e.references.flatMap fun o => o.2.reads S m

variable {S : Schema M N K V} {m : M} {column : N} {e : Expression N V} {f : Field M N K V}

theorem mem_reads_expression {r : Read M N K V} :
    r ∈ e.reads S m ↔ ∃ o ∈ e.references, r ∈ o.2.reads S m := by
  rw [Expression.reads, List.mem_flatMap]

/-- A write of the fields named `written`: what reads none of them stays. -/
def Unwritten (S : Schema M N K V) (m : M) (written : Finset N) (env env' : List N → V) : Prop :=
  ∀ name, (∀ f, .own f ∈ nameReads S m name → f.name ∉ written ∧ f.attname ∉ written) → env name = env' name

/-- The field is among the names that the engine watches for the column, under both of its names. -/
def Watched (column : N) (e : Expression N V) (f : Field M N K V) : Prop :=
  [f.name] ∈ generatedNames column e ∧ [f.attname] ∈ generatedNames column e

/-- **A write of nothing watched** does not change the column. -/
theorem eval_of_unwritten (hreads : ∀ f, .own f ∈ e.reads S m → Watched column e f) {written : Finset N}
    (hwritten : ∀ n ∈ written, [n] ∉ generatedNames column e) {I : Interpretation N V}
    {env env' : List N → V} (h : Unwritten S m written env env') : e.eval I env = e.eval I env' := by
  refine e.eval_congr fun o ho name hname => h name fun f hf => ?_
  have hread : Read.own f ∈ e.reads S m := by
    refine mem_reads_expression.mpr ⟨o, ho, ?_⟩
    rw [hname]
    exact hf
  obtain ⟨hwatched, hwatched'⟩ := hreads f hread
  exact ⟨fun hmem => hwritten _ hmem hwatched, fun hmem => hwritten _ hmem hwatched'⟩

omit [DecidableEq M] in
/-- The engine's own names for a generated column. -/
theorem mem_names_generated {value : List (V ⊕ Option K) → V} {inputs conditions : List N}
    (hinputs : ∀ n, n ∈ inputs ↔ [n] ∈ e.referencedNames) {n : N} :
    n ∈ (Field.mk (M := M) column (.generated inputs conditions value)).names ↔ [n] ∈ generatedNames column e := by
  show n ∈ insert column inputs.toFinset ↔ _
  rw [Finset.mem_insert, List.mem_toFinset, hinputs, generatedNames, List.mem_cons]
  simp

/-- The name stands outside the conditions, alone; or it is the column's own. -/
def Named (column : N) (e : Expression N V) (n : N) : Prop := n = column ∨ (false, .name [n]) ∈ e.references

omit [DecidableEq N] in
theorem named_iff {n : N} : Named column e n ↔ [n] ∈ generatedNames column e := by
  unfold Named generatedNames
  rw [List.mem_cons, e.mem_referencedNames]
  simp

/-- What the claims on `is_row_local` and `_field_names` amount to. -/
structure TriggersComplete (S : Schema M N K V) (m : M) (column : N) (e : Expression N V) : Prop where
  local_reads : e.isRowLocal = true → .other ∉ e.reads S m
  watched : .other ∉ e.reads S m → ∀ f, .own f ∈ e.reads S m → Watched column e f

omit [DecidableEq M] [DecidableEq N] in
theorem attname_of_target (h : f.target = none) : f.attname = f.name := by
  unfold Field.target at h
  unfold Field.attname
  split at h <;> simp_all

/-- What a name alone reads, of a field that is not a key. -/
theorem own_of_single {n : N} (h : .own f ∈ nameReads S m [n]) (hf : f.isKey = false) :
    f.name = n ∧ f.attname = n := by
  simp only [nameReads] at h
  split at h
  · simp at h
  · simp at h
  · rename_i g hg
    split at h
    · rename_i htarget
      obtain rfl : f = g := by simpa using h
      have hown : S.ownField m n = some f := by
        unfold Schema.getField at hg
        split at hg
        · rename_i f' hf'
          rw [hf', Lookup.own.inj (Option.some.inj hg)]
        · obtain ⟨_, -, hx⟩ := List.exists_of_findSome?_eq_some hg
          obtain ⟨_, -, hx⟩ := Option.map_eq_some_iff.mp hx
          cases hx
      have hname := Schema.ownField_name hown hf
      exact ⟨hname, (attname_of_target htarget).trans hname⟩
    · split_ifs at h with hkey
      · simp at h
      · obtain rfl : f = g := by simpa using h
        simp [hf] at hkey
      · obtain rfl : f = g := by simpa using h
        simp [hf] at hkey

/-- **What the triggers miss.**  The claims on generated columns hold of exactly the expressions in which
the conditions of `Case` reach no other row and read no field that does not also stand, by each of its
names, outside them; in which no `F` of one name is a many-to-many or a reverse relation, where the
expression is taken for local (`Single`); and in which a foreign key stands under both of its names. -/
theorem triggers_complete_iff : TriggersComplete S m column e ↔
    (Single e.references →
      (∀ n, (false, .name [n]) ∈ e.references → .other ∉ nameReads S m [n]) ∧
        ∀ r, (true, r) ∈ e.references → .other ∉ r.reads S m) ∧
    (.other ∉ e.reads S m →
      (∀ r, (true, r) ∈ e.references → ∀ f, .own f ∈ r.reads S m →
        Named column e f.name ∧ Named column e f.attname) ∧
      ∀ parts, (false, .name parts) ∈ e.references → ∀ f, .own f ∈ nameReads S m parts →
        parts.length = 1 ∧ f.isKey = false ∨ Named column e f.name ∧ Named column e f.attname) := by
  constructor
  · rintro ⟨hlocal, hwatched⟩
    have hnamed : .other ∉ e.reads S m → ∀ o ∈ e.references, ∀ f, .own f ∈ o.2.reads S m →
        Named column e f.name ∧ Named column e f.attname := by
      intro hown o ho f hf
      obtain ⟨hname, hattname⟩ := hwatched hown f (mem_reads_expression.mpr ⟨o, ho, hf⟩)
      exact ⟨named_iff.mpr hname, named_iff.mpr hattname⟩
    refine ⟨fun h => ⟨fun n hn hother => hlocal (e.isRowLocal_iff.mpr h) ?_,
        fun r hr hother => hlocal (e.isRowLocal_iff.mpr h) ?_⟩,
      fun hown => ⟨fun r hr => hnamed hown (true, r) hr, fun parts hparts f hf => .inr ?_⟩⟩
    · exact mem_reads_expression.mpr ⟨_, hn, hother⟩
    · exact mem_reads_expression.mpr ⟨_, hr, hother⟩
    · exact hnamed hown (false, .name parts) hparts f hf
  · rintro ⟨hlocal, hwatched⟩
    refine ⟨fun h hother => ?_, fun hown f hf => ?_⟩
    · have hsingle := e.isRowLocal_iff.mp h
      obtain ⟨⟨inside, r⟩, hr, hother⟩ := mem_reads_expression.mp hother
      cases inside with
      | true => exact (hlocal hsingle).2 r hr hother
      | false =>
        obtain ⟨n, rfl⟩ := hsingle r hr
        exact (hlocal hsingle).1 n hr hother
    · obtain ⟨hinside, houtside⟩ := hwatched hown
      obtain ⟨⟨inside, r⟩, hr, hf⟩ := mem_reads_expression.mp hf
      have hnamed : Named column e f.name ∧ Named column e f.attname := by
        cases inside with
        | true => exact hinside r hr f hf
        | false =>
          cases r with
          | rows => simp [Reference.reads] at hf
          | name parts =>
            rcases houtside parts hr f hf with ⟨hlen, hkey⟩ | hnamed
            · obtain ⟨n, rfl⟩ := List.length_eq_one_iff.mp hlen
              obtain ⟨hname, hattname⟩ := own_of_single hf hkey
              rw [hname, hattname]
              exact ⟨.inr hr, .inr hr⟩
            · exact hnamed
      exact ⟨named_iff.mp hnamed.1, named_iff.mp hnamed.2⟩

omit [DecidableEq M] [DecidableEq N] in
theorem isRowLocal_of_new {stored prefetch : Bool} {expression : Option (Option (Expression N V))}
    (h : ComputedField.new stored expression prefetch = .generated e) : e.isRowLocal = true := by
  unfold ComputedField.new at h
  split at h
  · split_ifs at h with hlocal
    obtain rfl := Constructed.generated.inj h
    exact hlocal
  · cases h

/-- **A generated column** whose triggers are complete changes with nothing but what is watched for it. -/
theorem generated_unchanged {stored prefetch : Bool} {expression : Option (Option (Expression N V))}
    (h : ComputedField.new stored expression prefetch = .generated e) (hc : TriggersComplete S m column e)
    {written : Finset N} (hwritten : ∀ n ∈ written, [n] ∉ generatedNames column e)
    {I : Interpretation N V} {env env' : List N → V} (henv : Unwritten S m written env env') :
    e.eval I env = e.eval I env' :=
  eval_of_unwritten (hc.watched (hc.local_reads (isRowLocal_of_new h))) hwritten henv

end Triggers

section Sample

inductive Billing
  | invoice
  | line
deriving DecidableEq

/-- Invoices with a status and a total, and their lines. -/
def billing : Schema Billing String ℕ ℤ where
  models := [.invoice, .line]
  fields
    | .invoice => [⟨"status", .column⟩, ⟨"total", .column⟩]
    | .line => [⟨"invoice", .foreignKey .invoice "invoice_id" none .cascade (some "lines")⟩, ⟨"amount", .column⟩]
  maxHops := 4
  compute _ _ _ _ := 0
  equals _ _ _ _ := false
  mem_models m := by cases m <;> decide
  names_nodup m := by cases m <;> decide

/-- What is due: nothing if the status is 1, else the total. -/
def due : Expression String ℤ := .case [.mk (.lookup ["status"] (.value 1)) (.value 0)] (.f ["total"])

/-- Whether some line is over 10. -/
def large : Expression String ℤ :=
  .case [.mk (.lookup ["lines", "amount", "gt"] (.value 10)) (.value 1)] (.value 0)

/-- Equality is the only lookup. -/
def equality : Interpretation String ℤ where
  func _ _ := 0
  combined _ v _ := v
  lookup _ v w := some (decide (v = w))
  connect _ a _ := a
  invert a := a.map not

/-- The status changes what is due, and is not watched for it; and a condition on the lines of an invoice
passes for one on its own row. -/
theorem conditions_are_missed :
    (due.isRowLocal = true ∧ (∀ n ∈ ({"status"} : Finset String), [n] ∉ generatedNames "due" due) ∧
      (∃ env env', Unwritten billing .invoice {"status"} env env' ∧
        due.eval equality env ≠ due.eval equality env') ∧ ¬ TriggersComplete billing .invoice "due" due) ∧
    large.isRowLocal = true ∧ ¬ TriggersComplete billing .invoice "large" large := by
  have hdue : due.reads billing .invoice = [.own ⟨"status", .column⟩, .own ⟨"total", .column⟩] := rfl
  have hlarge : large.reads billing .invoice = [.other] := rfl
  refine ⟨⟨by decide, by decide, ?_, fun h => ?_⟩, by decide, fun h => ?_⟩
  · refine ⟨fun name => if name = ["status"] then 0 else 5, fun name => if name = ["status"] then 1 else 5,
      fun name hname => ?_, by decide⟩
    have hne : name ≠ ["status"] := by
      rintro rfl
      exact (hname ⟨"status", .column⟩ (List.mem_singleton_self _)).1 (by decide)
    simp only [if_neg hne]
  · have hwatched := h.watched (by simp [hdue]) ⟨"status", .column⟩ (by simp [hdue])
    exact absurd hwatched.1 (by decide)
  · exact h.local_reads (by decide) (by simp [hlarge])

end Sample

end Totem.Computed
