import Totem.Lib.Fallible

/-!
# Totem.Api.Permission — permission expressions

`core/api/permission.py`: permission classes are combined with `&`, `|` and `~` into holders, which make an instance
of the operator for each check.  A holder of two operands makes the instances of its operands when it is built and
keeps them, and an instance writes its message while it is asked; a holder of one operand has no message.

* `hasPermission_fst`: an instance answers as its formula, whatever messages were written before.
* `granted_iff_buildable`: the lists of expressions that mean what they say, over runs of requests.
-/

namespace Totem.Api

/-! ## Classes, instances and holders -/

/-- What the permission classes say. -/
structure PermissionClasses (C M R O : Type) where
  message : C → M
  hasPermission : C → R → Bool
  hasObjectPermission : C → R → O → Bool

inductive BinaryOperator where
  | and
  | or
  deriving DecidableEq, Repr

/-- An instance of a permission class; those of `AND`, `OR` and `NOT` have a message of their own. -/
inductive BasePermission (C M : Type) where
  | leaf (c : C)
  | binary (operator : BinaryOperator) (op1 op2 : BasePermission C M) (message : M)
  | not (op1 : BasePermission C M) (message : M)
  deriving DecidableEq, Repr

/-- What can be an operand: a class, a `SingleOperandHolder` of `NOT`, or an `OperandHolder`. -/
inductive Operand (C M : Type) where
  | cls (c : C)
  | single (op1 : Operand C M)
  | pair (operator : BinaryOperator) (op1 op2 : BasePermission C M) (message : M)
  deriving DecidableEq, Repr

section

variable {C M R O : Type} (classes : PermissionClasses C M R O)

/-- `permission.message`. -/
def BasePermission.message : BasePermission C M → M
  | .leaf c => classes.message c
  | .binary _ _ _ message => message
  | .not _ message => message

/-- `op.message`; `none` where there is no such attribute. -/
def Operand.message? : Operand C M → Option M
  | .cls c => some (classes.message c)
  | .single _ => none
  | .pair _ _ _ message => some message

/-- `op()`. -/
def Operand.call : Operand C M → BasePermission C M
  | .cls c => .leaf c
  | .single op1 => .not op1.call (op1.call.message classes)
  | .pair operator op1 op2 _ => .binary operator op1 op2 (op1.message classes)

/-- `OperandHolder(operator, op1, op2)`; `none` is the `AttributeError` of `op1.message`. -/
def operandHolder (operator : BinaryOperator) (op1 op2 : Operand C M) : Option (Operand C M) :=
  (op1.message? classes).map fun message => .pair operator (op1.call classes) (op2.call classes) message

/-- `has_permission`, and the instance as it is left. -/
def BasePermission.hasPermission : BasePermission C M → R → Bool × BasePermission C M
  | .leaf c, request => (classes.hasPermission c request, .leaf c)
  | .binary .and op1 op2 message, request =>
      let first := op1.hasPermission request
      if first.1 then
        let second := op2.hasPermission request
        (second.1, .binary .and first.2 second.2 (op2.message classes))
      else (false, .binary .and first.2 op2 message)
  | .binary .or op1 op2 message, request =>
      let first := op1.hasPermission request
      if !first.1 then
        let second := op2.hasPermission request
        (second.1, .binary .or first.2 second.2 (op2.message classes))
      else (true, .binary .or first.2 op2 message)
  | .not op1 message, request =>
      let first := op1.hasPermission request
      (!first.1, .not first.2 message)

def BasePermission.hasObjectPermission : BasePermission C M → R → O → Bool
  | .leaf c, request, obj => classes.hasObjectPermission c request obj
  | .binary .and op1 op2 _, request, obj => op1.hasObjectPermission request obj && op2.hasObjectPermission request obj
  | .binary .or op1 op2 _, request, obj => op1.hasObjectPermission request obj || op2.hasObjectPermission request obj
  | .not op1 _, request, obj => !op1.hasObjectPermission request obj

/-- The holder after the instance it made was asked: it shares the instances of its operands with it. -/
def Operand.keep : Operand C M → BasePermission C M → Operand C M
  | .single op1, .not instance1 _ => .single (op1.keep instance1)
  | .pair operator _ _ message, .binary _ op1 op2 _ => .pair operator op1 op2 message
  | op, _ => op

/-- `evaluate_permissions`: what it raises `PermissionDenied` with, and the operands as they are left. -/
def evaluatePermissions : List (Operand C M) → R → Except M Unit × List (Operand C M)
  | [], _ => (.ok (), [])
  | op :: ops, request =>
      let asked := (op.call classes).hasPermission classes request
      if asked.1 then
        let rest := evaluatePermissions ops request
        (rest.1, op.keep asked.2 :: rest.2)
      else (.error (asked.2.message classes), op.keep asked.2 :: ops)

end

/-! ## Expressions -/

/-- An expression over permission classes. -/
inductive PermissionExpr (C : Type) where
  | cls (c : C)
  | binary (operator : BinaryOperator) (left right : PermissionExpr C)
  | not (operand : PermissionExpr C)
  deriving DecidableEq, Repr

section

variable {C M R O : Type} (classes : PermissionClasses C M R O)

/-- The value of an expression; `none` where building it raises. -/
def PermissionExpr.build : PermissionExpr C → Option (Operand C M)
  | .cls c => some (.cls c)
  | .binary operator left right => do operandHolder classes operator (← left.build) (← right.build)
  | .not operand => operand.build.map .single

def BinaryOperator.eval : BinaryOperator → Bool → Bool → Bool
  | .and, a, b => a && b
  | .or, a, b => a || b

/-- The boolean formula, over the answers of the classes. -/
def PermissionExpr.eval (answer : C → Bool) : PermissionExpr C → Bool
  | .cls c => answer c
  | .binary operator left right => operator.eval (left.eval answer) (right.eval answer)
  | .not operand => !operand.eval answer

def PermissionExpr.IsNot : PermissionExpr C → Prop
  | .not _ => True
  | _ => False

/-- No operator has a negation for its left operand. -/
def PermissionExpr.LeftPlain : PermissionExpr C → Prop
  | .cls _ => True
  | .binary _ left right => ¬ left.IsNot ∧ left.LeftPlain ∧ right.LeftPlain
  | .not operand => operand.LeftPlain

/-! ## Answers -/

/-- The instance answers as the expression. -/
inductive BasePermission.Means : BasePermission C M → PermissionExpr C → Prop
  | leaf (c : C) : Means (.leaf c) (.cls c)
  | binary {operator : BinaryOperator} {op1 op2 : BasePermission C M} {left right : PermissionExpr C} (message : M)
      (h1 : Means op1 left) (h2 : Means op2 right) :
      Means (.binary operator op1 op2 message) (.binary operator left right)
  | not {op1 : BasePermission C M} {operand : PermissionExpr C} (message : M) (h1 : Means op1 operand) :
      Means (.not op1 message) (.not operand)

/-- **An instance answers as its formula, and is left with the same one.** -/
theorem BasePermission.Means.hasPermission {p : BasePermission C M} {e : PermissionExpr C} (h : p.Means e)
    (request : R) : (p.hasPermission classes request).1 = e.eval (fun c => classes.hasPermission c request) ∧
      (p.hasPermission classes request).2.Means e := by
  induction h with
  | leaf c => exact ⟨rfl, .leaf c⟩
  | @binary operator op1 op2 left right message h1 h2 ih1 ih2 =>
    obtain ⟨ihleft, hleft⟩ := ih1
    obtain ⟨ihright, hright⟩ := ih2
    cases operator with
    | and =>
      rw [BasePermission.hasPermission, PermissionExpr.eval, BinaryOperator.eval, ← ihleft, ← ihright]
      by_cases hfirst : (op1.hasPermission classes request).1 = true
      · simp only [hfirst, if_true, Bool.true_and]
        exact ⟨trivial, .binary _ hleft hright⟩
      · simp only [hfirst, Bool.false_and]
        exact ⟨rfl, .binary _ hleft h2⟩
    | or =>
      rw [BasePermission.hasPermission, PermissionExpr.eval, BinaryOperator.eval, ← ihleft, ← ihright]
      by_cases hfirst : (op1.hasPermission classes request).1 = true
      · simp only [hfirst, Bool.true_or]
        exact ⟨rfl, .binary _ hleft h2⟩
      · simp only [Bool.not_eq_true] at hfirst
        simp only [hfirst, Bool.false_or]
        exact ⟨rfl, .binary _ hleft hright⟩
  | not message h1 ih =>
    obtain ⟨ihop, hop⟩ := ih
    exact ⟨congrArg (!·) ihop, .not message hop⟩

theorem BasePermission.Means.hasObjectPermission {p : BasePermission C M} {e : PermissionExpr C} (h : p.Means e)
    (request : R) (obj : O) : p.hasObjectPermission classes request obj =
      e.eval fun c => classes.hasObjectPermission c request obj := by
  induction h with
  | leaf c => rfl
  | @binary operator op1 op2 left right message h1 h2 ih1 ih2 =>
    cases operator <;> rw [BasePermission.hasObjectPermission, ih1, ih2] <;> rfl
  | not message h1 ih => rw [BasePermission.hasObjectPermission, ih]; rfl

/-- A holder of the expression: whatever it makes answers as the expression. -/
inductive Operand.Holds : Operand C M → PermissionExpr C → Prop
  | cls (c : C) : Holds (.cls c) (.cls c)
  | single {op1 : Operand C M} {operand : PermissionExpr C} (h1 : Holds op1 operand) :
      Holds (.single op1) (.not operand)
  | pair {operator : BinaryOperator} {op1 op2 : BasePermission C M} {left right : PermissionExpr C} (message : M)
      (h1 : op1.Means left) (h2 : op2.Means right) :
      Holds (.pair operator op1 op2 message) (.binary operator left right)

theorem Operand.Holds.call {op : Operand C M} {e : PermissionExpr C} (h : op.Holds e) : (op.call classes).Means e := by
  induction h with
  | cls c => exact .leaf c
  | single h1 ih => exact .not _ ih
  | pair message h1 h2 => exact .binary _ h1 h2

theorem Operand.Holds.keep {op : Operand C M} {e : PermissionExpr C} (h : op.Holds e) {p : BasePermission C M}
    (hp : p.Means e) : (op.keep p).Holds e := by
  induction h generalizing p with
  | cls c =>
    cases hp
    exact .cls c
  | single h1 ih =>
    cases hp with
    | not message hop => exact .single (ih hop)
  | pair message h1 h2 =>
    cases hp with
    | binary message' hleft hright => exact .pair message hleft hright

/-- One check grants what the formulas grant, and keeps the holders. -/
theorem evaluatePermissions_step {ops : List (Operand C M)} {es : List (PermissionExpr C)}
    (h : List.Forall₂ Operand.Holds ops es) (request : R) :
    ((evaluatePermissions classes ops request).1 = .ok () ↔
        ∀ e ∈ es, e.eval (fun c => classes.hasPermission c request) = true) ∧
      List.Forall₂ Operand.Holds (evaluatePermissions classes ops request).2 es := by
  induction h with
  | nil => exact ⟨by simp [evaluatePermissions], .nil⟩
  | @cons op e ops es hop hops ih =>
    obtain ⟨hanswer, hleft⟩ := (hop.call classes).hasPermission classes request
    rw [evaluatePermissions, List.forall_mem_cons, ← hanswer]
    by_cases hgranted : ((op.call classes).hasPermission classes request).1 = true
    · simp only [hgranted, if_true, true_and]
      exact ⟨ih.1, .cons (hop.keep hleft) ih.2⟩
    · simp only [hgranted]
      exact ⟨by simp, .cons (hop.keep hleft) hops⟩

/-- The operands after a run of requests. -/
def afterRequests (ops : List (Operand C M)) (requests : List R) :
    List (Operand C M) :=
  requests.foldl (fun ops request => (evaluatePermissions classes ops request).2) ops

theorem holds_afterRequests {ops : List (Operand C M)} {es : List (PermissionExpr C)}
    (h : List.Forall₂ Operand.Holds ops es) (requests : List R) :
    List.Forall₂ Operand.Holds (afterRequests classes ops requests) es := by
  induction requests generalizing ops with
  | nil => exact h
  | cons request requests ih => exact ih (evaluatePermissions_step classes h request).2

/-! ## Building -/

theorem PermissionExpr.holds_of_build {e : PermissionExpr C} {op : Operand C M} (h : e.build classes = some op) :
    op.Holds e := by
  induction e generalizing op with
  | cls c =>
    cases h
    exact .cls c
  | binary operator left right ihleft ihright =>
    rw [build] at h
    obtain ⟨op1, h1, h⟩ := Option.bind_eq_some_iff.mp h
    obtain ⟨op2, h2, h⟩ := Option.bind_eq_some_iff.mp h
    obtain ⟨message, -, rfl⟩ := Option.map_eq_some_iff.mp h
    exact .pair message ((ihleft h1).call classes) ((ihright h2).call classes)
  | not operand ih =>
    obtain ⟨op1, h1, rfl⟩ := Option.map_eq_some_iff.mp h
    exact .single (ih h1)

theorem Operand.Holds.message_isSome {op : Operand C M} {e : PermissionExpr C} (h : op.Holds e) :
    (op.message? classes).isSome ↔ ¬ e.IsNot := by
  cases h with
  | cls c => simp [Operand.message?, PermissionExpr.IsNot]
  | single h1 => simp [Operand.message?, PermissionExpr.IsNot]
  | pair message h1 h2 => simp [Operand.message?, PermissionExpr.IsNot]

theorem PermissionExpr.build_isSome_iff {e : PermissionExpr C} : (e.build classes).isSome ↔ e.LeftPlain := by
  induction e with
  | cls c => simp [build, LeftPlain]
  | binary operator left right ihleft ihright =>
    rw [build, LeftPlain, ← ihleft, ← ihright]
    cases hleft : left.build classes with
    | none => simp
    | some op1 =>
      cases hright : right.build classes with
      | none => simp
      | some op2 =>
        have hmessage := (holds_of_build classes hleft).message_isSome classes
        simpa [operandHolder] using hmessage
  | not operand ih => rw [build, LeftPlain, ← ih, Option.isSome_map]

theorem mapM_build_isSome_iff {es : List (PermissionExpr C)} :
    (es.mapM (PermissionExpr.build classes)).isSome ↔ ∀ e ∈ es, e.LeftPlain :=
  Lib.isSome_mapM.trans (forall₂_congr fun _ _ => PermissionExpr.build_isSome_iff classes)

theorem holds_of_mapM_build {es : List (PermissionExpr C)} {ops : List (Operand C M)}
    (h : es.mapM (PermissionExpr.build classes) = some ops) : List.Forall₂ Operand.Holds ops es := by
  have hbuilt := (Lib.mapM_eq_some.mp h).flip
  exact hbuilt.imp fun op e hop => PermissionExpr.holds_of_build classes hop

/-- The expressions can be built, and after any requests a request is granted exactly when the formulas hold. -/
def MeansWhatItSays (es : List (PermissionExpr C)) : Prop :=
  ∃ ops, es.mapM (PermissionExpr.build classes) = some ops ∧ ∀ (earlier : List R) (request : R),
    ((evaluatePermissions classes (afterRequests classes ops earlier) request).1 = .ok () ↔
      ∀ e ∈ es, e.eval (fun c => classes.hasPermission c request) = true)

/-- **A list of expressions means what it says exactly when none of their operators has a negation on its left.** -/
theorem granted_iff_buildable (es : List (PermissionExpr C)) :
    MeansWhatItSays classes es ↔ ∀ e ∈ es, e.LeftPlain := by
  rw [← mapM_build_isSome_iff classes]
  constructor
  · rintro ⟨ops, hops, -⟩
    rw [hops]
    rfl
  · intro h
    obtain ⟨ops, hops⟩ := Option.isSome_iff_exists.mp h
    refine ⟨ops, hops, fun earlier request => ?_⟩
    have hholds := holds_afterRequests classes (holds_of_mapM_build classes hops) earlier
    exact (evaluatePermissions_step classes hholds request).1

end

/-- `~A & B`: the holder of the negation has no message. -/
theorem negation_on_the_left : ¬ ∀ es : List (PermissionExpr Bool),
    MeansWhatItSays (⟨fun _ => (), fun c _ => c, fun c _ _ => c⟩ : PermissionClasses Bool Unit Unit Unit) es := by
  intro h
  obtain ⟨ops, hops, -⟩ := h [.binary .and (.not (.cls false)) (.cls true)]
  cases hops

end Totem.Api
