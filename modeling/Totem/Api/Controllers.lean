import Totem.Lib.Dict
import Totem.Lib.Linearization
import Mathlib.Logic.Function.Basic

/-!
# Totem.Api.Controllers — the controller classes, and what the definition of one does

A controller registers its routes when its class is defined.  The CRUD mixins set the route on their own function,
which the controllers share, and `BaseController.add_routes_to` registers the functions that have one.

* `World`: the classes, the functions with the route set on each, and the routes.
* `World.register`, `World.runMixin`, `World.baseAddRoutesTo`: the `add_routes_to` of a mixin and of `BaseController`.
* `World.define`: the definition of a class, by `__init_subclass__`; `none` when the import fails.
* `dispatch`: the operation that answers a request.
-/

namespace Totem.Api.Controllers

open Totem.Lib Totem.Lib.Linearization

/-! ## Routes -/

/-- `ROUTE_METHODS`. -/
inductive Method
  | post | put | patch | delete | get | head | options | trace
  deriving DecidableEq

/-- What is between two slashes of a path. -/
inductive Segment
  | literal (text : String)
  | parameter (name : String)
  deriving DecidableEq

/-- A path below the prefix of its controller; one that ends with a slash has an empty segment last. -/
abbrev Path := List Segment

/-- A path of Django: a parameter takes one segment, which is not empty. -/
def matchesPath : Path → List String → Bool
  | [], [] => true
  | .literal text :: path, segment :: segments => text == segment && matchesPath path segments
  | .parameter _ :: path, segment :: segments => segment != "" && matchesPath path segments
  | _, _ => false

/-- The path and the methods of an operation, and the scopes its `check_permissions` requires. -/
structure RouteParams where
  path : Path
  methods : List Method
  scopes : List String
  deriving DecidableEq

structure Route where
  params : RouteParams
  viewFunc : ℕ
  /-- The class of the instance it is bound to. -/
  controller : Option ℕ

/-- What `router.add_api_operation` is given: the handler calls the function of the route with the instance that the
route is bound to. -/
structure Operation where
  name : String
  params : RouteParams
  viewFunc : ℕ
  route : ℕ
  deriving DecidableEq

/-- The operation that answers: of the first path that matches, the first one with the method. -/
def dispatch (router : List Operation) (segments : List String) (method : Method) : Option Operation :=
  (router.find? fun op => matchesPath op.params.path segments).bind fun first =>
    router.find? fun op => decide (op.params.path = first.params.path ∧ method ∈ op.params.methods)

/-! ## The mixins -/

inductive Mixin
  | list | create | retrieve | update | delete | resequence | displayName | groupBy
  deriving DecidableEq

/-- The views that the mixins register. -/
inductive Action
  | list | create | defaultValues | retrieve | update | delete | resequence | displayName | groupBy
  deriving DecidableEq

namespace Action

def mixin : Action → Mixin
  | list => .list
  | create | defaultValues => .create
  | retrieve => .retrieve
  | update => .update
  | delete => .delete
  | resequence => .resequence
  | displayName => .displayName
  | groupBy => .groupBy

/-- The name of the view. -/
def name : Action → String
  | list => "list"
  | create => "create"
  | defaultValues => "default_values"
  | retrieve => "retrieve"
  | update => "update"
  | delete => "delete"
  | resequence => "resequence"
  | displayName => "display_name"
  | groupBy => "group_by"

def path : Action → Path
  | list | create => [.literal ""]
  | defaultValues => [.literal "default-values", .literal ""]
  | retrieve | update | delete => [.parameter "id", .literal ""]
  | resequence => [.literal "resequence", .literal ""]
  | displayName => [.literal "display-name", .literal ""]
  | groupBy => [.literal "group-by", .literal ""]

def method : Action → Method
  | list | defaultValues | retrieve | displayName => .get
  | create | resequence | groupBy => .post
  | update => .patch
  | delete => .delete

/-- The key of its scopes in `permission_map`. -/
def permissionKey : Action → String
  | list | retrieve => "read"
  | create | defaultValues => "create"
  | update => "update"
  | delete => "delete"
  | resequence => "resequence"
  | displayName => "display_name"
  | groupBy => "group_by"

/-- Its scopes must be in `permission_map`. -/
def scopesRequired : Action → Bool
  | resequence | displayName | groupBy => true
  | _ => false

theorem name_inj {a b : Action} (h : a.name = b.name) : a = b := by
  cases a <;> cases b <;> simp [name] at h <;> rfl

/-- The other attributes that the framework reads are no views. -/
theorem name_ne (a : Action) : a.name ≠ "model" ∧ a.name ≠ "service" ∧ a.name ≠ "permission_map" ∧
    a.name ≠ "list_response_schema" ∧ a.name ≠ "create_request_schema" ∧ a.name ≠ "retrieve_response_schema" ∧
      a.name ≠ "update_request_schema" ∧ a.name ≠ "display_name_response_schema" := by
  cases a <;> decide

end Action

/-! ## Classes -/

/-- An attribute of a class. -/
inductive Value
  | none
  | data (id : ℕ)
  | function (id : ℕ)
  deriving DecidableEq

def Value.truthy : Value → Bool
  | .none => false
  | _ => true

/-- What the body of a class says of a name; a function may be decorated with `@route`. -/
inductive Member
  | none
  | data (id : ℕ)
  | function (route : Option RouteParams)

/-- The classes whose own code takes part in the definition of a controller. -/
inductive Role
  | plain
  | mixin (m : Mixin)
  | baseController
  | baseModelController
  /-- `TokenHasScopePermissionModelControllerMixin`. -/
  | tokenHasScope
  deriving DecidableEq

structure Class where
  role : Role
  /-- `__mro__`, without `object`. -/
  mro : List ℕ
  dict : Dict String Value
  /-- It has an `_instance` of its own. -/
  instantiated : Bool
  router : List Operation

structure ClassDef where
  role : Role
  bases : List ℕ
  body : List (String × Member)

/-- What the data that the bodies of the classes refer to says. -/
structure Declarations where
  /-- The `model` of a service. -/
  model : ℕ → ℕ
  /-- A service has `resequence`. -/
  resequences : ℕ → Bool
  /-- A service has dimensions to group by. -/
  groups : ℕ → Bool
  /-- A `permission_map`. -/
  scopes : ℕ → String → List String

structure World where
  classes : ℕ → Class
  nextClass : ℕ
  /-- `MAGIC_ROUTE_ATTR` of each function. -/
  marks : ℕ → Option ℕ
  nextFunction : ℕ
  routes : ℕ → Route
  nextRoute : ℕ

/-- Before the first class. -/
def World.start : World where
  classes _ := ⟨.plain, [], .empty, false, []⟩
  nextClass := 0
  marks _ := none
  nextFunction := 0
  routes _ := ⟨⟨[], [], []⟩, 0, none⟩
  nextRoute := 0

namespace World

/-- `getattr` of a class. -/
def getattr (w : World) (c : ℕ) (name : String) : Option Value :=
  (w.classes c).mro.findSome? fun k => (w.classes k).dict.get name

def setClass (w : World) (c : ℕ) (cls : Class) : World := { w with classes := Function.update w.classes c cls }

/-- `setattr` of a class. -/
def setattr (w : World) (c : ℕ) (name : String) (value : Value) : World :=
  w.setClass c { w.classes c with dict := (w.classes c).dict.set name value }

/-- An attribute that is set and not empty. -/
def has (w : World) (c : ℕ) (name : String) : Bool := ((w.getattr c name).map Value.truthy).getD false

/-- The class whose instance a class has: its own, or that of the first of its bases with one. -/
def instanceClass (w : World) (c : ℕ) : Option ℕ := (w.classes c).mro.find? fun k => (w.classes k).instantiated

/-- `cls()`. -/
def call (w : World) (c : ℕ) : World × ℕ :=
  match w.instanceClass c with
  | some k => (w, k)
  | none => (w.setClass c { w.classes c with instantiated := true }, c)

/-- `_get_action_permissions`. -/
def actionPermissions (D : Declarations) (w : World) (c : ℕ) (a : Action) : List String :=
  match w.getattr c "permission_map" with
  | some (.data id) => D.scopes id a.permissionKey
  | _ => []

/-- The scopes that the `_*_function_decorators` of a class require for an action.  Those of
`TokenHasScopePermissionModelControllerMixin` are found when it comes before the mixin; no other class has its own. -/
def scopesOf (D : Declarations) (w : World) (c : ℕ) (a : Action) : Option (List String) :=
  let before := (w.classes c).mro.takeWhile fun k => decide ((w.classes k).role ≠ .mixin a.mixin)
  if before.any fun k => decide ((w.classes k).role = .tokenHasScope) then
    if a.scopesRequired = true ∧ w.actionPermissions D c a = [] then none else some (w.actionPermissions D c a)
  else some []

/-- A new route, set on a function. -/
def mark (w : World) (f : ℕ) (route : Route) : World :=
  { w with marks := Function.update w.marks f (some w.nextRoute)
           routes := Function.update w.routes w.nextRoute route
           nextRoute := w.nextRoute + 1 }

/-- `method_to_route_function`, for the view of an action. -/
def register (D : Declarations) (w : World) (c : ℕ) (a : Action) : Option World :=
  match w.scopesOf D c a, w.getattr c a.name with
  | some scopes, some (.function f) =>
    let (w, k) := (w.setattr c a.name (.function f)).call c
    some (w.mark f ⟨⟨a.path, [a.method], scopes⟩, f, some k⟩)
  | _, _ => none

/-- The service of a class has what a mixin needs. -/
def serviceHas (w : World) (c : ℕ) (p : ℕ → Bool) : Bool :=
  match w.getattr c "service" with
  | some (.data service) => p service
  | _ => false

/-- The views that a mixin registers on a class with a model; `none` when it is misconfigured. -/
def actionsOf (D : Declarations) (w : World) (c : ℕ) : Mixin → Option (List Action)
  | .list => some (if w.has c "list_response_schema" then [.list] else [])
  | .create => some (if w.has c "create_request_schema" then [.create, .defaultValues] else [])
  | .retrieve => some (if w.has c "retrieve_response_schema" then [.retrieve] else [])
  | .update => some (if w.has c "update_request_schema" then [.update] else [])
  | .delete => some [.delete]
  | .resequence => if w.serviceHas c D.resequences then some [.resequence] else none
  | .displayName => if w.has c "display_name_response_schema" then some [.displayName] else none
  | .groupBy => if w.serviceHas c D.groups then some [.groupBy] else none

/-- `add_routes_to` of a mixin, up to `super()`. -/
def runMixin (D : Declarations) (c : ℕ) (m : Mixin) (w : World) : Option World :=
  if w.has c "model" then
    (w.actionsOf D c m).bind fun actions => actions.foldlM (fun w a => w.register D c a) w
  else some w

/-- The function that a name stands for in a class has a route. -/
def marked (w : World) (c : ℕ) (name : String) : Bool :=
  match w.getattr c name with
  | some (.function f) => (w.marks f).isSome
  | _ => false

/-- One round of the loop of `BaseController.add_routes_to`. -/
def addOperation (c : ℕ) (w : World) (entry : String × Value) : World :=
  match entry.2 with
  | .function f =>
    match w.marks f with
    | some r =>
      let (w, k) := w.call c
      let route := w.routes r
      let w := { w with routes := Function.update w.routes r { route with controller := some k } }
      w.setClass c { w.classes c with
        router := (w.classes c).router ++ [⟨entry.1, route.params, route.viewFunc, r⟩] }
    | none => w
  | _ => w

/-- `add_routes_to` of `BaseController`: the functions with a route, in the order of the `__dict__` of the class.  One
that is not in it cannot be ordered. -/
def baseAddRoutesTo (c : ℕ) (w : World) : Option World :=
  if ∀ k ∈ (w.classes c).mro, ∀ name ∈ (w.classes k).dict.keys, w.marked c name = true →
      name ∈ (w.classes c).dict.keys then
    some ((w.classes c).dict.entries.foldl (addOperation c) w)
  else none

/-- `cls.add_routes_to(router)`: that of each class of the order, which calls the next one up to `BaseController`. -/
def addRoutesTo (D : Declarations) (c : ℕ) : List ℕ → World → Option World
  | [], _ => none
  | k :: mro, w =>
    match (w.classes k).role with
    | .mixin m => (w.runMixin D c m).bind (addRoutesTo D c mro)
    | .baseController => w.baseAddRoutesTo c
    | _ => addRoutesTo D c mro w

/-- `__init_subclass__` of `BaseModelController`, up to `super()`: the model is that of the service. -/
def deduceModel (D : Declarations) (c : ℕ) (w : World) : Option World :=
  match w.getattr c "service" with
  | some (.data service) =>
    match (w.classes c).dict.get "model" with
    | some (.data model) => if model = D.model service then some (w.setattr c "model" (.data model)) else none
    | some (.function _) => none
    | _ => some (w.setattr c "model" (.data (D.model service)))
  | _ => some w

/-- One line of the body of a class.  A function is one that the body defines, and neither `add_routes_to` nor one of
the `_*_function_decorators`. -/
def bindMember (c : ℕ) (w : World) (member : String × Member) : World :=
  match member.2 with
  | .none => w.setattr c member.1 .none
  | .data id => w.setattr c member.1 (.data id)
  | .function route =>
    let f := w.nextFunction
    let w := { w with nextFunction := f + 1 }.setattr c member.1 (.function f)
    match route with
    | none => w
    | some params => w.mark f ⟨params, f, none⟩

/-- The class statement, up to `__init_subclass__`. -/
def create (w : World) (d : ClassDef) : Option World :=
  if ∀ b ∈ d.bases, b < w.nextClass then
    (merge (d.bases.map (fun b => (w.classes b).mro) ++ [d.bases])).map fun mro =>
      d.body.foldl (bindMember w.nextClass)
        { w.setClass w.nextClass ⟨d.role, w.nextClass :: mro, .empty, false, []⟩ with nextClass := w.nextClass + 1 }
  else none

/-- **The definition of a class.** -/
def define (D : Declarations) (w : World) (d : ClassDef) : Option World := do
  let c := w.nextClass
  let w ← w.create d
  let bases := (w.classes c).mro.tail
  if bases.any fun k => decide ((w.classes k).role = .baseController) then
    let w ← if bases.any fun k => decide ((w.classes k).role = .baseModelController) then w.deduceModel D c else some w
    w.addRoutesTo D c (w.classes c).mro
  else some w

end World

/-! ## The classes of the framework -/

/-- `BaseController`, `BaseModelController`, the mixins, `ModelController` and
`TokenHasScopePermissionModelControllerMixin`, in this order. -/
def framework : List ClassDef :=
  [⟨.baseController, [], []⟩,
    ⟨.baseModelController, [0], [("model", .none), ("service", .none)]⟩,
    ⟨.mixin .list, [], [("list_response_schema", .none), ("list", .function none)]⟩,
    ⟨.mixin .create, [],
      [("create_request_schema", .none), ("create", .function none), ("default_values", .function none)]⟩,
    ⟨.mixin .retrieve, [], [("retrieve_response_schema", .none), ("retrieve", .function none)]⟩,
    ⟨.mixin .update, [], [("update_request_schema", .none), ("update", .function none)]⟩,
    ⟨.mixin .delete, [], [("delete", .function none)]⟩,
    ⟨.mixin .resequence, [], [("resequence", .function none)]⟩,
    ⟨.mixin .displayName, [], [("display_name_response_schema", .none), ("display_name", .function none)]⟩,
    ⟨.mixin .groupBy, [], [("group_by", .function none)]⟩,
    ⟨.plain, [2, 3, 4, 5, 6, 1], []⟩,
    ⟨.tokenHasScope, [], [("permission_map", .none)]⟩]

end Totem.Api.Controllers
