import Totem.Api.Controllers
import Totem.Lib.Run
import Mathlib.Data.List.Find
import Mathlib.Data.List.Induction
import Mathlib.Tactic.Set

/-!
# Totem.Api.Routing — the routes that the controllers end up with

* `Named`: a function is that of one name, and its route is its own.
* `Defining`: what is known between the body of a class and the end of `add_routes_to`.
* `Inv`: what every sequence of definitions keeps; `inv_define`, `inv_run`.
* `MadeBy`, `routes_isolated`: the routes of a controller, each of which its own definition made.
-/

namespace Totem.Api.Controllers

open Totem.Lib Totem.Lib.Linearization

variable {D : Declarations} {w w' w₀ : World} {c k f r : ℕ} {a : Action} {n : String} {value : Value}

namespace World

/-! ## What each part of a definition changes -/

theorem classes_setattr : (w.setattr c n value).classes k =
    if k = c then { w.classes c with dict := (w.classes c).dict.set n value } else w.classes k := by
  unfold setattr setClass
  by_cases hk : k = c
  · subst hk
    simp
  · simp [hk]

/-- The entry of one name of a class changes. -/
theorem get_setattr (n' : String) : ((w.setattr c n value).classes k).dict.get n' =
    if k = c ∧ n' = n then some value else (w.classes k).dict.get n' := by
  rw [classes_setattr]
  by_cases hk : k = c
  · subst hk
    rw [if_pos rfl]
    show ((w.classes k).dict.set n value).get n' = _
    rw [Dict.get_set]
    simp
  · simp [hk]

theorem classes_call : (w.call c).1.classes k =
    if k = c ∧ w.instanceClass c = none then { w.classes c with instantiated := true } else w.classes k := by
  unfold call
  cases w.instanceClass c with
  | some i => simp
  | none =>
    unfold setClass
    by_cases hk : k = c
    · subst hk
      simp
    · simp [hk]

theorem dict_call : ((w.call c).1.classes k).dict = (w.classes k).dict := by
  rw [classes_call]
  split_ifs with hk
  · rw [hk.1]
  · rfl

theorem mro_call : ((w.call c).1.classes k).mro = (w.classes k).mro := by
  rw [classes_call]
  split_ifs with hk
  · rw [hk.1]
  · rfl

theorem role_call : ((w.call c).1.classes k).role = (w.classes k).role := by
  rw [classes_call]
  split_ifs with hk
  · rw [hk.1]
  · rfl

theorem router_call : ((w.call c).1.classes k).router = (w.classes k).router := by
  rw [classes_call]
  split_ifs with hk
  · rw [hk.1]
  · rfl

theorem mro_setattr : ((w.setattr c n value).classes k).mro = (w.classes k).mro := by
  rw [classes_setattr]
  split_ifs with hk
  · rw [hk]
  · rfl

theorem role_setattr : ((w.setattr c n value).classes k).role = (w.classes k).role := by
  rw [classes_setattr]
  split_ifs with hk
  · rw [hk]
  · rfl

/-- What a call leaves but the classes. -/
theorem call_same (w : World) (c : ℕ) : (w.call c).1.marks = w.marks ∧ (w.call c).1.routes = w.routes ∧
    (w.call c).1.nextClass = w.nextClass ∧ (w.call c).1.nextFunction = w.nextFunction ∧
      (w.call c).1.nextRoute = w.nextRoute := by
  unfold call
  cases w.instanceClass c <;> exact ⟨rfl, rfl, rfl, rfl, rfl⟩

/-- A class that is called has an instance from then on, of the class the call says. -/
theorem instanceClass_call (hc : c ∈ (w.classes c).mro) : (w.call c).1.instanceClass c = some (w.call c).2 := by
  unfold call
  cases h : w.instanceClass c with
  | some i => exact h
  | none =>
    show (((w.setClass c _).classes c).mro.find? fun k => ((w.setClass c _).classes k).instantiated) = some c
    have hmro : ((w.setClass c { w.classes c with instantiated := true }).classes c).mro = (w.classes c).mro := by
      simp [setClass]
    rw [hmro]
    unfold instanceClass at h
    generalize (w.classes c).mro = mro at hc h
    induction mro with
    | nil => exact absurd hc List.not_mem_nil
    | cons k mro ih =>
      rw [List.find?_cons] at h ⊢
      by_cases hk : k = c
      · subst hk
        simp [setClass]
      · have hsame : (w.setClass c { w.classes c with instantiated := true }).classes k = w.classes k := by
          simp [setClass, hk]
        rw [hsame]
        cases hinst : (w.classes k).instantiated with
        | true =>
          rw [hinst] at h
          cases h
        | false =>
          rw [hinst] at h
          exact ih ((List.mem_cons.mp hc).resolve_left (Ne.symm hk)) h

/-- When a class has no instance, none of its bases has. -/
theorem instantiated_of_none (h : w.instanceClass c = none) (hk : k ∈ (w.classes c).mro) :
    (w.classes k).instantiated = false := by
  have hnot := List.find?_eq_none.mp h k hk
  simpa using hnot

theorem getattr_eq_some (h : w.getattr c n = some value) :
    ∃ k ∈ (w.classes c).mro, (w.classes k).dict.get n = some value := by
  obtain ⟨k, hk, hget⟩ := List.exists_of_findSome?_eq_some h
  exact ⟨k, hk, hget⟩

theorem getattr_congr (hmro : (w'.classes c).mro = (w.classes c).mro)
    (hdict : ∀ k, (w'.classes k).dict.get n = (w.classes k).dict.get n) : w'.getattr c n = w.getattr c n := by
  unfold getattr
  rw [hmro]
  congr 1
  funext k
  exact hdict k

/-- The scopes of an action are those of the bases and of `permission_map`. -/
theorem scopesOf_congr (hmro : (w'.classes c).mro = (w.classes c).mro)
    (hrole : ∀ k, (w'.classes k).role = (w.classes k).role)
    (hmap : w'.getattr c "permission_map" = w.getattr c "permission_map") : w'.scopesOf D c a = w.scopesOf D c a := by
  unfold scopesOf actionPermissions
  simp only [hmro, hrole, hmap]

end World

/-! ## Functions and their routes -/

/-- A function is that of one name, and its route is its own. -/
structure Named (w : World) : Prop where
  lt : ∀ c n f, (w.classes c).dict.get n = some (.function f) → f < w.nextFunction
  name : ∀ c c' n n' f, (w.classes c).dict.get n = some (.function f) →
    (w.classes c').dict.get n' = some (.function f) →
    n = n'
  marks : ∀ f r, w.marks f = some r → f < w.nextFunction ∧ r < w.nextRoute ∧ (w.routes r).viewFunc = f

/-- An attribute that is no function. -/
theorem Named.setattr_data (h : Named w) (hvalue : ∀ f, value ≠ .function f) : Named (w.setattr c n value) where
  lt c' n' f hf := by
    rw [World.get_setattr] at hf
    split_ifs at hf with heq
    · exact absurd (Option.some.inj hf) (hvalue f)
    · exact h.lt c' n' f hf
  name c₁ c₂ n₁ n₂ f h₁ h₂ := by
    rw [World.get_setattr] at h₁ h₂
    split_ifs at h₁ h₂ with heq₁ heq₂ heq₂
    · exact absurd (Option.some.inj h₁) (hvalue f)
    · exact absurd (Option.some.inj h₁) (hvalue f)
    · exact absurd (Option.some.inj h₂) (hvalue f)
    · exact h.name c₁ c₂ n₁ n₂ f h₁ h₂
  marks := h.marks

/-- A function that the class has under this name already, maybe from a base. -/
theorem Named.setattr_visible (h : Named w) (hf : w.getattr c n = some (.function f)) :
    Named (w.setattr c n (.function f)) := by
  obtain ⟨k, -, hk⟩ := World.getattr_eq_some hf
  refine ⟨fun c' n' f' hf' => ?_, fun c₁ c₂ n₁ n₂ f' h₁ h₂ => ?_, h.marks⟩
  · rw [World.get_setattr] at hf'
    split_ifs at hf' with heq
    · cases hf'
      exact h.lt k n f hk
    · exact h.lt c' n' f' hf'
  · rw [World.get_setattr] at h₁ h₂
    split_ifs at h₁ h₂ with heq₁ heq₂ heq₂
    · exact heq₁.2.trans heq₂.2.symm
    · cases h₁
      exact heq₁.2.trans (h.name k c₂ n n₂ f hk h₂)
    · cases h₂
      exact (h.name c₁ k n₁ n f h₁ hk).trans heq₂.2.symm
    · exact h.name c₁ c₂ n₁ n₂ f' h₁ h₂

/-- A function that was just defined. -/
theorem Named.setattr_fresh (h : Named w) :
    Named ({ w with nextFunction := w.nextFunction + 1 }.setattr c n (.function w.nextFunction)) := by
  have hget : ∀ k n',
      (({ w with nextFunction := w.nextFunction + 1 }.setattr c n (.function w.nextFunction)).classes k).dict.get n' =
      if k = c ∧ n' = n then some (.function w.nextFunction) else (w.classes k).dict.get n' :=
    fun k n' => World.get_setattr n'
  refine ⟨fun c' n' f hf => ?_, fun c₁ c₂ n₁ n₂ f h₁ h₂ => ?_, fun f r hr => ?_⟩
  · rw [hget] at hf
    split_ifs at hf with heq
    · cases hf
      exact Nat.lt_succ_self _
    · exact Nat.lt_succ_of_lt (h.lt c' n' f hf)
  · rw [hget] at h₁ h₂
    split_ifs at h₁ h₂ with heq₁ heq₂ heq₂
    · exact heq₁.2.trans heq₂.2.symm
    · cases h₁
      exact absurd (h.lt c₂ n₂ _ h₂) (Nat.lt_irrefl _)
    · cases h₂
      exact absurd (h.lt c₁ n₁ _ h₁) (Nat.lt_irrefl _)
    · exact h.name c₁ c₂ n₁ n₂ f h₁ h₂
  · obtain ⟨h₁, h₂, h₃⟩ := h.marks f r hr
    exact ⟨Nat.lt_succ_of_lt h₁, h₂, h₃⟩

theorem Named.call (h : Named w) : Named (w.call c).1 := by
  obtain ⟨hmarks, hroutes, -, hfunction, hroute⟩ := w.call_same c
  refine ⟨fun c' n' f hf => ?_, fun c₁ c₂ n₁ n₂ f h₁ h₂ => ?_, fun f r hr => ?_⟩
  · rw [World.dict_call] at hf
    rw [hfunction]
    exact h.lt c' n' f hf
  · rw [World.dict_call] at h₁ h₂
    exact h.name c₁ c₂ n₁ n₂ f h₁ h₂
  · rw [hmarks] at hr
    rw [hfunction, hroute, hroutes]
    exact h.marks f r hr

theorem marks_mark (route : Route) (f' : ℕ) :
    (w.mark f route).marks f' = if f' = f then some w.nextRoute else w.marks f' := by
  unfold World.mark
  by_cases hf : f' = f
  · subst hf
    simp
  · simp [hf]

theorem routes_mark (route : Route) (r : ℕ) :
    (w.mark f route).routes r = if r = w.nextRoute then route else w.routes r := by
  unfold World.mark
  by_cases hr : r = w.nextRoute
  · subst hr
    simp
  · simp [hr]

theorem Named.mark (h : Named w) (hf : f < w.nextFunction) {route : Route} (hroute : route.viewFunc = f) :
    Named (w.mark f route) := by
  refine ⟨h.lt, h.name, fun f' r hr => ?_⟩
  rw [marks_mark] at hr
  rw [routes_mark]
  show f' < w.nextFunction ∧ r < w.nextRoute + 1 ∧ _
  split_ifs at hr with heq
  · cases hr
    rw [heq, if_pos rfl]
    exact ⟨hf, Nat.lt_succ_self _, hroute⟩
  · obtain ⟨h₁, h₂, h₃⟩ := h.marks f' r hr
    rw [if_neg (Nat.ne_of_lt h₂)]
    exact ⟨h₁, Nat.lt_succ_of_lt h₂, h₃⟩

/-! ## A class that is being defined -/

/-- The class `w₀.nextClass` between its body and the end of `add_routes_to`, with the views registered so far: its
functions have routes of the class itself, from the body or from `register`. -/
structure Defining (D : Declarations) (w₀ : World) (d : ClassDef) (mro : List ℕ) (done : List Action)
    (w : World) : Prop
    extends Named w where
  others : ∀ k, k ≠ w₀.nextClass → w.classes k = w₀.classes k
  nextClass : w.nextClass = w₀.nextClass + 1
  mro_eq : (w.classes w₀.nextClass).mro = w₀.nextClass :: mro
  role_eq : (w.classes w₀.nextClass).role = d.role
  router : (w.classes w₀.nextClass).router = []
  nextFunction : w₀.nextFunction ≤ w.nextFunction
  nextRoute : w₀.nextRoute ≤ w.nextRoute
  routes : ∀ r, r < w₀.nextRoute → w.routes r = w₀.routes r
  marked : ∀ f, (w₀.marks f).isSome = true → (w.marks f).isSome = true
  own : ∀ n f r, (w.classes w₀.nextClass).dict.get n = some (.function f) → w.marks f = some r →
    w₀.nextRoute ≤ r ∧ ((∃ params, (n, .function (some params)) ∈ d.body ∧ (w.routes r).params = params) ∨
      ∃ a ∈ done, a.name = n ∧ ∃ scopes, w.scopesOf D w₀.nextClass a = some scopes ∧
        (w.routes r).params = ⟨a.path, [a.method], scopes⟩)
  registered : ∀ a ∈ done, ∃ f r scopes, (w.classes w₀.nextClass).dict.get a.name = some (.function f) ∧
    w.marks f = some r ∧ w.scopesOf D w₀.nextClass a = some scopes ∧
      (w.routes r).params = ⟨a.path, [a.method], scopes⟩
  keys : ∀ n ∈ (w.classes w₀.nextClass).dict.keys, n ∈ d.body.map Prod.fst ∨ n = "model" ∨ ∃ a ∈ done, a.name = n
  instantiated : (w.classes w₀.nextClass).instantiated = true →
    done ≠ [] ∧ ∀ k ∈ mro, k ≠ w₀.nextClass → (w₀.classes k).instantiated = false

namespace Defining

variable {d : ClassDef} {mro : List ℕ} {done : List Action}

/-- An entry of the dict that is no function, and not the scopes. -/
theorem setattr_data (h : Defining D w₀ d mro done w) (hvalue : ∀ f, value ≠ .function f)
    (hmap : n ≠ "permission_map" ∨ done = [])
    (hkey : n ∈ d.body.map Prod.fst ∨ n = "model") (hname : ∀ a ∈ done, a.name ≠ n) :
    Defining D w₀ d mro done (w.setattr w₀.nextClass n value) := by
  have hscopes : ∀ a ∈ done, (w.setattr w₀.nextClass n value).scopesOf D w₀.nextClass a =
      w.scopesOf D w₀.nextClass a := by
    intro a ha
    refine World.scopesOf_congr World.mro_setattr (fun k => World.role_setattr) ?_
    refine World.getattr_congr World.mro_setattr fun k => ?_
    rw [World.get_setattr, if_neg]
    rintro ⟨-, heq⟩
    rcases hmap with hmap | rfl
    · exact hmap heq.symm
    · exact absurd ha List.not_mem_nil
  have hown : ∀ n' f, ((w.setattr w₀.nextClass n value).classes w₀.nextClass).dict.get n' = some (.function f) →
      (w.classes w₀.nextClass).dict.get n' = some (.function f) := by
    intro n' f hf
    rw [World.get_setattr] at hf
    split_ifs at hf with heq
    · exact absurd (Option.some.inj hf) (hvalue f)
    · exact hf
  refine ⟨h.toNamed.setattr_data hvalue, fun k hk => ?_, h.nextClass, World.mro_setattr.trans h.mro_eq,
    World.role_setattr.trans h.role_eq, ?_, h.nextFunction, h.nextRoute, h.routes, h.marked,
    fun n' f r hf hr => ?_, fun a ha => ?_, fun n' hn' => ?_, fun hinst => ?_⟩
  · rw [World.classes_setattr, if_neg hk]
    exact h.others k hk
  · rw [World.classes_setattr, if_pos rfl]
    exact h.router
  · refine (h.own n' f r (hown n' f hf) hr).imp_right (Or.imp_right ?_)
    rintro ⟨a, ha, hn, scopes, hsc, hparams⟩
    exact ⟨a, ha, hn, scopes, (hscopes a ha).trans hsc, hparams⟩
  · obtain ⟨f, r, scopes, hf, hr, hsc, hparams⟩ := h.registered a ha
    refine ⟨f, r, scopes, ?_, hr, (hscopes a ha).trans hsc, hparams⟩
    rw [World.get_setattr, if_neg fun heq => hname a ha heq.2]
    exact hf
  · obtain ⟨v, hv⟩ := Dict.mem_keys.mp hn'
    rw [World.get_setattr] at hv
    split_ifs at hv with heq
    · rw [heq.2]
      exact hkey.imp_right Or.inl
    · exact h.keys n' (Dict.mem_keys.mpr ⟨v, hv⟩)
  · rw [World.classes_setattr, if_pos rfl] at hinst
    exact h.instantiated hinst

/-- A function that was just defined, without its route. -/
theorem setattr_fresh (h : Defining D w₀ d mro [] w) (hkey : n ∈ d.body.map Prod.fst) : Defining D w₀ d mro []
    ({ w with nextFunction := w.nextFunction + 1 }.setattr w₀.nextClass n (.function w.nextFunction)) := by
  have hclasses : ∀ k, ({ w with nextFunction := w.nextFunction + 1 }.setattr w₀.nextClass n
      (.function w.nextFunction)).classes k = (w.setattr w₀.nextClass n (.function w.nextFunction)).classes k :=
    fun k => rfl
  refine ⟨h.toNamed.setattr_fresh, fun k hk => ?_, h.nextClass, ?_, ?_, ?_, Nat.le_succ_of_le h.nextFunction,
    h.nextRoute, h.routes, h.marked, fun n' f r hf hr => ?_, nofun, fun n' hn' => ?_, fun hinst => ?_⟩
  · rw [hclasses, World.classes_setattr, if_neg hk]
    exact h.others k hk
  · rw [hclasses, World.mro_setattr]
    exact h.mro_eq
  · rw [hclasses, World.role_setattr]
    exact h.role_eq
  · rw [hclasses, World.classes_setattr, if_pos rfl]
    exact h.router
  · rw [hclasses, World.get_setattr] at hf
    split_ifs at hf with heq
    · cases hf
      exact absurd (h.marks _ r hr).1 (Nat.lt_irrefl _)
    · refine (h.own n' f r hf hr).imp_right (Or.imp_right ?_)
      rintro ⟨a, ha, -⟩
      exact absurd ha List.not_mem_nil
  · obtain ⟨v, hv⟩ := Dict.mem_keys.mp hn'
    rw [hclasses, World.get_setattr] at hv
    split_ifs at hv with heq
    · rw [heq.2]
      exact .inl hkey
    · exact h.keys n' (Dict.mem_keys.mpr ⟨v, hv⟩)
  · rw [hclasses, World.classes_setattr, if_pos rfl] at hinst
    exact h.instantiated hinst

/-- The route of a function that is decorated. -/
theorem decorate (h : Defining D w₀ d mro [] w) {params : RouteParams}
    (hmember : (n, .function (some params)) ∈ d.body)
    (hf : (w.classes w₀.nextClass).dict.get n = some (.function f)) :
    Defining D w₀ d mro [] (w.mark f ⟨params, f, none⟩) := by
  refine ⟨h.toNamed.mark (h.lt _ n f hf) rfl, h.others, h.nextClass, h.mro_eq, h.role_eq, h.router, h.nextFunction,
    Nat.le_succ_of_le h.nextRoute, fun r hr => ?_, fun f' hf' => ?_, fun n' f' r hf' hr => ?_, nofun, h.keys,
    h.instantiated⟩
  · have hlt := Nat.lt_of_lt_of_le hr h.nextRoute
    rw [routes_mark, if_neg (Nat.ne_of_lt hlt)]
    exact h.routes r hr
  · rw [marks_mark]
    split_ifs
    · rfl
    · exact h.marked f' hf'
  · rw [marks_mark] at hr
    rw [routes_mark]
    split_ifs at hr with heq
    · obtain rfl : w.nextRoute = r := Option.some.inj hr
      obtain rfl := h.name _ _ _ _ _ (heq ▸ hf') hf
      exact ⟨h.nextRoute, .inl ⟨params, hmember, by rw [if_pos rfl]⟩⟩
    · have hlt := (h.marks f' r hr).2.1
      rw [if_neg (Nat.ne_of_lt hlt)]
      refine (h.own n' f' r hf' hr).imp_right (Or.imp_right ?_)
      rintro ⟨a, ha, -⟩
      exact absurd ha List.not_mem_nil

/-- A line of the body. -/
theorem bindMember (h : Defining D w₀ d mro [] w) {member : String × Member} (hmember : member ∈ d.body) :
    Defining D w₀ d mro [] (World.bindMember w₀.nextClass w member) := by
  obtain ⟨n, m⟩ := member
  have hkey : n ∈ d.body.map Prod.fst := List.mem_map_of_mem hmember
  cases m with
  | none => exact h.setattr_data nofun (.inr rfl) (.inl hkey) nofun
  | data id => exact h.setattr_data nofun (.inr rfl) (.inl hkey) nofun
  | function route =>
    have hplain := h.setattr_fresh hkey
    cases route with
    | none => exact hplain
    | some params =>
      refine hplain.decorate hmember ?_
      show ((w.setattr w₀.nextClass n (.function w.nextFunction)).classes w₀.nextClass).dict.get n = _
      rw [World.get_setattr, if_pos ⟨rfl, rfl⟩]

/-- The view of an action. -/
theorem register (h : Defining D w₀ d mro done w) (hstep : w.register D w₀.nextClass a = some w') :
    Defining D w₀ d mro (a :: done) w' := by
  unfold World.register at hstep
  split at hstep
  case h_2 => cases hstep
  rename_i scopes f hsc hf
  obtain rfl := Option.some.inj hstep
  generalize hw₁ : w.setattr w₀.nextClass a.name (.function f) = w₁
  have hnamed : Named w₁ := hw₁ ▸ h.toNamed.setattr_visible hf
  have hget : ∀ k n', (w₁.classes k).dict.get n' =
      if k = w₀.nextClass ∧ n' = a.name then some (.function f) else (w.classes k).dict.get n' := by
    intro k n'
    rw [← hw₁]
    exact World.get_setattr n'
  have hmro : ∀ k, (w₁.classes k).mro = (w.classes k).mro := fun k => by rw [← hw₁, World.mro_setattr]
  have hrole : ∀ k, (w₁.classes k).role = (w.classes k).role := fun k => by rw [← hw₁, World.role_setattr]
  have hsame : w₁.marks = w.marks ∧ w₁.routes = w.routes ∧ w₁.nextClass = w.nextClass ∧
      w₁.nextFunction = w.nextFunction ∧ w₁.nextRoute = w.nextRoute := by
    rw [← hw₁]
    exact ⟨rfl, rfl, rfl, rfl, rfl⟩
  obtain ⟨hmarks, hroutes, hnextClass, hnextFunction, hnextRoute⟩ := hsame
  obtain ⟨hmarks', hroutes', hnextClass', hnextFunction', hnextRoute'⟩ := w₁.call_same w₀.nextClass
  have hlt : f < w₁.nextFunction := by
    obtain ⟨k, -, hk⟩ := World.getattr_eq_some hf
    rw [hnextFunction]
    exact h.lt k a.name f hk
  set route : Route := ⟨⟨a.path, [a.method], scopes⟩, f, some (w₁.call w₀.nextClass).2⟩ with hroute
  show Defining D w₀ d mro (a :: done) ((w₁.call w₀.nextClass).1.mark f route)
  have hclasses : ((w₁.call w₀.nextClass).1.mark f route).classes = (w₁.call w₀.nextClass).1.classes := rfl
  have hscopes : ∀ a', ((w₁.call w₀.nextClass).1.mark f route).scopesOf D w₀.nextClass a' =
      w.scopesOf D w₀.nextClass a' := by
    intro a'
    have hmro' : ∀ k, (((w₁.call w₀.nextClass).1.mark f route).classes k).mro = (w.classes k).mro := fun k => by
      rw [hclasses, World.mro_call, hmro]
    refine World.scopesOf_congr (hmro' _) (fun k => by rw [hclasses, World.role_call, hrole]) ?_
    refine World.getattr_congr (hmro' _) fun k => ?_
    rw [hclasses, World.dict_call, hget, if_neg]
    rintro ⟨-, heq⟩
    exact a.name_ne.2.2.1 heq.symm
  have hnew : ∀ r, r < w.nextRoute → ((w₁.call w₀.nextClass).1.mark f route).routes r = w.routes r := by
    intro r hr
    rw [routes_mark, if_neg, hroutes', hroutes]
    rw [hnextRoute', hnextRoute]
    exact Nat.ne_of_lt hr
  have hmark : ((w₁.call w₀.nextClass).1.mark f route).marks f = some w.nextRoute := by
    rw [marks_mark, if_pos rfl, hnextRoute', hnextRoute]
  have hparams : (((w₁.call w₀.nextClass).1.mark f route).routes w.nextRoute).params =
      ⟨a.path, [a.method], scopes⟩ := by
    rw [routes_mark, if_pos (by rw [hnextRoute', hnextRoute])]
  -- a function under another name is another one, and keeps its route
  have hother : ∀ n' f', n' ≠ a.name → (w.classes w₀.nextClass).dict.get n' = some (.function f') →
      ((w₁.call w₀.nextClass).1.mark f route).marks f' = w.marks f' := by
    intro n' f' hne hf'
    rw [marks_mark, if_neg, hmarks', hmarks]
    rintro rfl
    obtain ⟨k, -, hk⟩ := World.getattr_eq_some hf
    exact hne (h.name _ k n' a.name f' hf' hk)
  have hdict : ∀ n', (((w₁.call w₀.nextClass).1.mark f route).classes w₀.nextClass).dict.get n' =
      if n' = a.name then some (.function f) else (w.classes w₀.nextClass).dict.get n' := by
    intro n'
    rw [hclasses, World.dict_call, hget]
    simp
  refine ⟨(hnamed.call).mark (by rw [hnextFunction']; exact hlt) rfl, fun k hk => ?_, ?_, ?_, ?_, ?_, ?_, ?_,
    fun r hr => ?_, fun f' hf' => ?_, fun n' f' r hf' hr => ?_, fun a' ha' => ?_, fun n' hn' => ?_,
    fun hinst => ⟨List.cons_ne_nil _ _, ?_⟩⟩
  · rw [hclasses, World.classes_call, if_neg fun heq => hk heq.1, ← hw₁, World.classes_setattr, if_neg hk]
    exact h.others k hk
  · exact hnextClass'.trans (hnextClass.trans h.nextClass)
  · rw [hclasses, World.mro_call, hmro]
    exact h.mro_eq
  · rw [hclasses, World.role_call, hrole]
    exact h.role_eq
  · rw [hclasses, World.router_call, ← hw₁, World.classes_setattr, if_pos rfl]
    exact h.router
  · show w₀.nextFunction ≤ (w₁.call w₀.nextClass).1.nextFunction
    rw [hnextFunction', hnextFunction]
    exact h.nextFunction
  · show w₀.nextRoute ≤ (w₁.call w₀.nextClass).1.nextRoute + 1
    rw [hnextRoute', hnextRoute]
    exact Nat.le_succ_of_le h.nextRoute
  · rw [hnew r (Nat.lt_of_lt_of_le hr h.nextRoute)]
    exact h.routes r hr
  · rw [marks_mark, hmarks', hmarks]
    split_ifs
    · rfl
    · exact h.marked f' hf'
  · rw [hdict] at hf'
    split_ifs at hf' with hn
    · cases hf'
      rw [hmark] at hr
      obtain rfl := Option.some.inj hr
      exact ⟨h.nextRoute, .inr ⟨a, List.mem_cons_self, hn.symm, scopes, (hscopes a).trans hsc, hparams⟩⟩
    · rw [hother n' f' hn hf'] at hr
      obtain ⟨hle, hfrom⟩ := h.own n' f' r hf' hr
      rw [hnew r (h.marks f' r hr).2.1]
      refine ⟨hle, hfrom.imp_right ?_⟩
      rintro ⟨a', ha', hn', scopes', hsc', hparams'⟩
      exact ⟨a', List.mem_cons_of_mem _ ha', hn', scopes', (hscopes a').trans hsc', hparams'⟩
  · by_cases heq : a'.name = a.name
    · obtain rfl := Action.name_inj heq
      exact ⟨f, w.nextRoute, scopes, by rw [hdict, if_pos rfl], hmark, (hscopes a').trans hsc, hparams⟩
    · have ha'' : a' ∈ done := by
        rcases List.mem_cons.mp ha' with rfl | ha'
        · exact absurd rfl heq
        · exact ha'
      obtain ⟨f', r, scopes', hf', hr, hsc', hparams'⟩ := h.registered a' ha''
      refine ⟨f', r, scopes', by rw [hdict, if_neg heq, hf'], (hother _ f' heq hf').trans hr,
        (hscopes a').trans hsc', ?_⟩
      rw [hnew r (h.marks f' r hr).2.1]
      exact hparams'
  · obtain ⟨v, hv⟩ := Dict.mem_keys.mp hn'
    rw [hdict] at hv
    split_ifs at hv with hn
    · exact .inr (.inr ⟨a, List.mem_cons_self, hn.symm⟩)
    · refine (h.keys n' (Dict.mem_keys.mpr ⟨v, hv⟩)).imp_right (Or.imp_right ?_)
      rintro ⟨a', ha', hn'⟩
      exact ⟨a', List.mem_cons_of_mem _ ha', hn'⟩
  · rw [hclasses, World.classes_call] at hinst
    split_ifs at hinst with hnone
    · intro k hk hne
      have hmem : k ∈ (w₁.classes w₀.nextClass).mro := by
        rw [hmro, h.mro_eq]
        exact List.mem_cons_of_mem _ hk
      have hfalse := World.instantiated_of_none hnone.2 hmem
      rwa [← hw₁, World.classes_setattr, if_neg hne, h.others k hne] at hfalse
    · rw [← hw₁, World.classes_setattr, if_pos rfl] at hinst
      exact (h.instantiated hinst).2

/-- An attribute that is no view is left. -/
theorem getattr_register (h : Defining D w₀ d mro done w) (hstep : w.register D w₀.nextClass a = some w')
    (hn : ∀ a : Action, a.name ≠ n) : w'.getattr w₀.nextClass n = w.getattr w₀.nextClass n := by
  have hmro := (h.register hstep).mro_eq.trans h.mro_eq.symm
  refine World.getattr_congr hmro fun k => ?_
  unfold World.register at hstep
  split at hstep
  case h_2 => cases hstep
  obtain rfl := Option.some.inj hstep
  show (((World.call _ _).1.classes k).dict).get n = _
  rw [World.dict_call, World.get_setattr, if_neg]
  rintro ⟨-, heq⟩
  exact hn a heq.symm

theorem registers (h : Defining D w₀ d mro done w) {actions : List Action}
    (hstep : actions.foldlM (fun w a => w.register D w₀.nextClass a) w = some w') :
    Defining D w₀ d mro (actions.reverse ++ done) w' ∧
      ∀ n, (∀ a : Action, a.name ≠ n) → w'.getattr w₀.nextClass n = w.getattr w₀.nextClass n := by
  induction actions generalizing w done with
  | nil =>
    obtain rfl := Option.some.inj hstep
    exact ⟨h, fun _ _ => rfl⟩
  | cons a actions ih =>
    rw [List.foldlM_cons] at hstep
    obtain ⟨w₁, hfirst, hrest⟩ := Option.bind_eq_some_iff.mp hstep
    obtain ⟨hdef, hattr⟩ := ih (h.register hfirst) hrest
    refine ⟨?_, fun n hn => (hattr n hn).trans (h.getattr_register hfirst hn)⟩
    rw [List.reverse_cons, List.append_assoc]
    exact hdef

/-- What decides the views of a mixin are attributes that are no views. -/
theorem actionsOf_congr (hattr : ∀ n, (∀ a : Action, a.name ≠ n) → w'.getattr c n = w.getattr c n) (m : Mixin) :
    w'.actionsOf D c m = w.actionsOf D c m ∧ w'.has c "model" = w.has c "model" := by
  have hhas : ∀ n, (∀ a : Action, a.name ≠ n) → w'.has c n = w.has c n := fun n hn => by
    unfold World.has
    rw [hattr n hn]
  have hservice : ∀ p, w'.serviceHas c p = w.serviceHas c p := fun p => by
    unfold World.serviceHas
    rw [hattr "service" fun a => a.name_ne.2.1]
  refine ⟨?_, hhas _ fun a => a.name_ne.1⟩
  unfold World.actionsOf
  rw [hhas _ fun a => a.name_ne.2.2.2.1, hhas _ fun a => a.name_ne.2.2.2.2.1, hhas _ fun a => a.name_ne.2.2.2.2.2.1,
    hhas _ fun a => a.name_ne.2.2.2.2.2.2.1, hhas _ fun a => a.name_ne.2.2.2.2.2.2.2, hservice, hservice]

/-- The `add_routes_to` of the classes up to `BaseController`: each of the mixins on the way registers its views. -/
theorem addRoutesTo (h : Defining D w₀ d mro done w) {ks : List ℕ}
    (hstep : w.addRoutesTo D w₀.nextClass ks = some w') :
    ∃ done' w₁, Defining D w₀ d mro done' w₁ ∧ w₁.baseAddRoutesTo w₀.nextClass = some w' ∧ done ⊆ done' ∧
      (∀ n, (∀ a : Action, a.name ≠ n) → w₁.getattr w₀.nextClass n = w.getattr w₀.nextClass n) ∧
      ∀ k ∈ ks.takeWhile (fun k => decide ((w.classes k).role ≠ .baseController)), ∀ m,
        (w.classes k).role = .mixin m →
        w.has w₀.nextClass "model" = true → ∃ actions, w.actionsOf D w₀.nextClass m = some actions ∧
          actions ⊆ done' := by
  induction ks generalizing w done with
  | nil => cases hstep
  | cons k ks ih =>
    unfold World.addRoutesTo at hstep
    split at hstep
    · rename_i m hrole
      obtain ⟨w₂, hmixin, hrest⟩ := Option.bind_eq_some_iff.mp hstep
      have hne : decide ((w.classes k).role ≠ .baseController) = true := by simp [hrole]
      -- what the mixin registers
      have hruns : ∃ done₂, Defining D w₀ d mro done₂ w₂ ∧ done ⊆ done₂ ∧
          (∀ n, (∀ a : Action, a.name ≠ n) → w₂.getattr w₀.nextClass n = w.getattr w₀.nextClass n) ∧
          (w.has w₀.nextClass "model" = true → ∃ actions, w.actionsOf D w₀.nextClass m = some actions ∧
            actions ⊆ done₂) := by
        unfold World.runMixin at hmixin
        split_ifs at hmixin with hmodel
        · obtain ⟨actions, hactions, hfold⟩ := Option.bind_eq_some_iff.mp hmixin
          obtain ⟨hdef, hattr⟩ := h.registers hfold
          refine ⟨_, hdef, List.subset_append_right _ _, hattr, fun _ => ⟨actions, hactions, fun a ha => ?_⟩⟩
          exact List.mem_append_left _ (List.mem_reverse.mpr ha)
        · obtain rfl := Option.some.inj hmixin
          exact ⟨done, h, List.Subset.refl _, fun _ _ => rfl, fun hm => absurd hm hmodel⟩
      obtain ⟨done₂, hdef₂, hsub₂, hattr₂, hmade₂⟩ := hruns
      obtain ⟨done', w₁, hdef', hbase, hsub', hattr', hmade'⟩ := ih hdef₂ hrest
      refine ⟨done', w₁, hdef', hbase, List.Subset.trans hsub₂ hsub', fun n hn => (hattr' n hn).trans (hattr₂ n hn),
        fun j hj m' hm' hmodel => ?_⟩
      have hroles : ∀ j, (w₂.classes j).role = (w.classes j).role := by
        intro j
        by_cases hj : j = w₀.nextClass
        · rw [hj, hdef₂.role_eq, h.role_eq]
        · rw [hdef₂.others j hj, h.others j hj]
      rw [List.takeWhile_cons, if_pos hne] at hj
      rcases List.mem_cons.mp hj with rfl | hj
      · rw [hrole] at hm'
        obtain rfl := Role.mixin.inj hm'
        obtain ⟨actions, hactions, hsub⟩ := hmade₂ hmodel
        exact ⟨actions, hactions, List.Subset.trans hsub hsub'⟩
      · obtain ⟨hsame, hhas⟩ := actionsOf_congr (D := D) hattr₂ m'
        have hmade := hmade' j (by simp only [hroles]; exact hj) m' ((hroles j).trans hm') (hhas.trans hmodel)
        rw [hsame] at hmade
        exact hmade
    · rename_i hrole
      refine ⟨done, w, h, hstep, List.Subset.refl _, fun _ _ => rfl, fun j hj => ?_⟩
      rw [List.takeWhile_cons, if_neg (by simp [hrole])] at hj
      exact absurd hj List.not_mem_nil
    · rename_i hmixin hbase
      obtain ⟨done', w₁, hdef', hstep', hsub', hattr', hmade'⟩ := ih h hstep
      refine ⟨done', w₁, hdef', hstep', hsub', hattr', fun j hj m' hm' => ?_⟩
      rw [List.takeWhile_cons, if_pos (by simpa using hbase)] at hj
      rcases List.mem_cons.mp hj with rfl | hj
      · exact absurd hm' (hmixin m')
      · exact hmade' j hj m' hm'

end Defining

/-! ## The loop of `BaseController.add_routes_to` -/

/-- The operation of an entry of the dict, if its function has a route. -/
def World.operationOf (w : World) (entry : String × Value) : Option Operation :=
  match entry.2 with
  | .function f => (w.marks f).map fun r => ⟨entry.1, (w.routes r).params, (w.routes r).viewFunc, r⟩
  | _ => none

/-- After some rounds of the loop. -/
structure Looped (w₀ : World) (c : ℕ) (entries : List (String × Value)) (w : World) : Prop where
  others : ∀ k, k ≠ c → w.classes k = w₀.classes k
  dict : (w.classes c).dict = (w₀.classes c).dict
  mro : (w.classes c).mro = (w₀.classes c).mro
  role : (w.classes c).role = (w₀.classes c).role
  router : (w.classes c).router = (w₀.classes c).router ++ entries.filterMap w₀.operationOf
  marks : w.marks = w₀.marks
  next : w.nextClass = w₀.nextClass ∧ w.nextFunction = w₀.nextFunction ∧ w.nextRoute = w₀.nextRoute
  routes : ∀ r, (w.routes r).params = (w₀.routes r).params ∧ (w.routes r).viewFunc = (w₀.routes r).viewFunc
  kept : ∀ r, (∀ op ∈ entries.filterMap w₀.operationOf, op.route ≠ r) → w.routes r = w₀.routes r
  bound : ∀ op ∈ entries.filterMap w₀.operationOf, (w.instanceClass c).isSome = true ∧
    (w.routes op.route).controller = w.instanceClass c
  instantiated : (w.classes c).instantiated = true → (w₀.classes c).instantiated = true ∨
    entries.filterMap w₀.operationOf ≠ [] ∧ ∀ k ∈ (w₀.classes c).mro, k ≠ c → (w₀.classes k).instantiated = false

theorem looped_addOperation {entries : List (String × Value)} (entry : String × Value) (hc : c ∈ (w₀.classes c).mro)
    (h : Looped w₀ c entries w) : Looped w₀ c (entries ++ [entry]) (World.addOperation c w entry) := by
  obtain ⟨n, v⟩ := entry
  have hskip : w₀.operationOf (n, v) = none → Looped w₀ c (entries ++ [(n, v)]) w := by
    intro hnone
    have hsame : (entries ++ [(n, v)]).filterMap w₀.operationOf = entries.filterMap w₀.operationOf := by
      rw [List.filterMap_append, List.filterMap_cons, hnone, List.filterMap_nil, List.append_nil]
    exact ⟨h.others, h.dict, h.mro, h.role, hsame ▸ h.router, h.marks, h.next, h.routes, hsame ▸ h.kept,
      hsame ▸ h.bound,
      hsame ▸ h.instantiated⟩
  unfold World.addOperation
  split
  case h_2 hno =>
    refine hskip ?_
    unfold World.operationOf
    split
    · rename_i f hf
      exact absurd hf (hno f)
    · rfl
  rename_i f hv
  obtain rfl : v = .function f := hv
  cases hmark : w.marks f with
  | none =>
    refine hskip ?_
    show (w₀.marks f).map _ = none
    rw [← h.marks, hmark, Option.map_none]
  | some r =>
    have hop : w₀.operationOf (n, .function f) = some ⟨n, (w₀.routes r).params, (w₀.routes r).viewFunc, r⟩ := by
      show (w₀.marks f).map _ = _
      rw [← h.marks, hmark, Option.map_some]
    have hall : (entries ++ [(n, Value.function f)]).filterMap w₀.operationOf =
        entries.filterMap w₀.operationOf ++ [⟨n, (w₀.routes r).params, (w₀.routes r).viewFunc, r⟩] := by
      rw [List.filterMap_append, List.filterMap_cons, hop, List.filterMap_nil]
    have hcw : c ∈ (w.classes c).mro := h.mro ▸ hc
    obtain ⟨hmarks, hroutes, hnextClass, hnextFunction, hnextRoute⟩ := w.call_same c
    have hinstance := World.instanceClass_call hcw
    generalize hcall : w.call c = called at hmarks hroutes hnextClass hnextFunction hnextRoute hinstance
    obtain ⟨w₁, i⟩ := called
    have hw₁ : w₁ = (w.call c).1 := by rw [hcall]
    simp only at hmarks hroutes hnextClass hnextFunction hnextRoute hinstance ⊢
    -- the world after the round
    generalize hw₂ : World.setClass _ c _ = w₂
    have hclasses : ∀ k, w₂.classes k = if k = c then { w₁.classes c with
        router := (w₁.classes c).router ++
          [⟨n, (w₁.routes r).params, (w₁.routes r).viewFunc, r⟩] } else w₁.classes k := by
      intro k
      rw [← hw₂]
      unfold World.setClass
      by_cases hk : k = c
      · subst hk
        simp
      · simp [hk]
    have hroutes₂ : ∀ r', w₂.routes r' =
        if r' = r then { w.routes r with controller := some i } else w.routes r' := by
      intro r'
      rw [← hw₂]
      show Function.update w₁.routes r _ r' = _
      rw [hroutes]
      by_cases hr : r' = r
      · subst hr
        simp
      · simp [hr]
    have hinstance₂ : w₂.instanceClass c = some i := by
      rw [← hinstance]
      unfold World.instanceClass
      have hmro : (w₂.classes c).mro = (w₁.classes c).mro := by rw [hclasses, if_pos rfl]
      rw [hmro]
      congr 1
      funext k
      rw [hclasses]
      split_ifs with hk
      · rw [hk]
      · rfl
    have hclass : ∀ k, k ≠ c → w₂.classes k = w.classes k := by
      intro k hk
      rw [hclasses, if_neg hk, hw₁, World.classes_call, if_neg fun heq => hk heq.1]
    refine ⟨fun k hk => (hclass k hk).trans (h.others k hk), ?_, ?_, ?_, ?_, ?_, ?_, fun r' => ?_, fun r' hr' => ?_,
      fun op hop' => ?_, fun hinst => ?_⟩
    · rw [hclasses, if_pos rfl]
      show (w₁.classes c).dict = _
      rw [hw₁, World.dict_call, h.dict]
    · rw [hclasses, if_pos rfl]
      show (w₁.classes c).mro = _
      rw [hw₁, World.mro_call, h.mro]
    · rw [hclasses, if_pos rfl]
      show (w₁.classes c).role = _
      rw [hw₁, World.role_call, h.role]
    · rw [hclasses, if_pos rfl, hall, ← List.append_assoc, ← h.router, hroutes, (h.routes r).1, (h.routes r).2, hw₁,
        World.router_call]
    · rw [← hw₂]
      exact hmarks.trans h.marks
    · rw [← hw₂]
      exact ⟨hnextClass.trans h.next.1, hnextFunction.trans h.next.2.1, hnextRoute.trans h.next.2.2⟩
    · rw [hroutes₂]
      split_ifs with heq
      · rw [heq]
        exact h.routes r
      · exact h.routes r'
    · rw [hall] at hr'
      rw [hroutes₂, if_neg, h.kept r' fun op hop' => hr' op (List.mem_append_left _ hop')]
      exact fun heq => hr' _ (List.mem_append_right _ List.mem_cons_self) heq.symm
    · rw [hinstance₂, hroutes₂]
      refine ⟨rfl, ?_⟩
      split_ifs with heq
      · rfl
      · rw [hall] at hop'
        rcases List.mem_append.mp hop' with hop' | hop'
        · obtain ⟨hsome, hbound⟩ := h.bound op hop'
          rw [hbound]
          -- a class with an instance keeps it
          cases hi : w.instanceClass c with
          | none =>
            rw [hi] at hsome
            cases hsome
          | some j =>
            have hcall' : w.call c = (w, j) := by
              unfold World.call
              rw [hi]
            rw [hcall'] at hcall
            rw [(Prod.mk.inj hcall).2]
        · rw [List.mem_singleton.mp hop'] at heq
          exact absurd rfl heq
    · have hne : (entries ++ [(n, Value.function f)]).filterMap w₀.operationOf ≠ [] := by
        rw [hall]
        exact List.append_ne_nil_of_right_ne_nil _ (List.cons_ne_nil _ _)
      rw [hclasses, if_pos rfl] at hinst
      replace hinst : (w₁.classes c).instantiated = true := hinst
      rw [hw₁, World.classes_call] at hinst
      split_ifs at hinst with hnone
      · refine .inr ⟨hne, fun k hk hkc => ?_⟩
        rw [← h.others k hkc]
        exact World.instantiated_of_none hnone.2 (h.mro ▸ hk)
      · exact (h.instantiated hinst).imp_right fun hold => ⟨hne, hold.2⟩

theorem looped_foldl (hc : c ∈ (w₀.classes c).mro) {done entries : List (String × Value)} (h : Looped w₀ c done w) :
    Looped w₀ c (done ++ entries) (entries.foldl (World.addOperation c) w) := by
  induction entries generalizing done w with
  | nil =>
    rw [List.append_nil]
    exact h
  | cons entry entries ih =>
    have hstep := ih (looped_addOperation entry hc h)
    rw [List.append_assoc] at hstep
    exact hstep

/-- **The loop.** -/
theorem looped_entries (hc : c ∈ (w.classes c).mro) (hrouter : (w.classes c).router = [])
    (entries : List (String × Value)) :
    Looped w c entries (entries.foldl (World.addOperation c) w) := by
  have h : Looped w c [] w :=
    ⟨fun _ _ => rfl, rfl, rfl, rfl, by rw [hrouter]; rfl, rfl, ⟨rfl, rfl, rfl⟩, fun _ => ⟨rfl, rfl⟩,
      fun _ _ => rfl, nofun,
      fun hinst => .inl hinst⟩
  exact looped_foldl hc h

/-! ## The definition of a class -/

variable {d : ClassDef} {mro : List ℕ} {done : List Action}

theorem create_spec (h : Named w₀) (hstep : w₀.create d = some w) : (∀ b ∈ d.bases, b < w₀.nextClass) ∧
    ∃ mro, merge (d.bases.map (fun b => (w₀.classes b).mro) ++ [d.bases]) = some mro ∧ Defining D w₀ d mro [] w := by
  unfold World.create at hstep
  split_ifs at hstep with hbases
  obtain ⟨mro, hmro, rfl⟩ := Option.map_eq_some_iff.mp hstep
  refine ⟨hbases, mro, hmro, ?_⟩
  have hclasses : ∀ k, (w₀.setClass w₀.nextClass ⟨d.role, w₀.nextClass :: mro, .empty, false, []⟩).classes k =
      if k = w₀.nextClass then ⟨d.role, w₀.nextClass :: mro, .empty, false, []⟩ else w₀.classes k := by
    intro k
    unfold World.setClass
    by_cases hk : k = w₀.nextClass
    · subst hk
      simp
    · simp [hk]
  have hdict : ∀ k n f,
      ((w₀.setClass w₀.nextClass ⟨d.role, w₀.nextClass :: mro, .empty, false, []⟩).classes k).dict.get n =
      some (.function f) → (w₀.classes k).dict.get n = some (.function f) := by
    intro k n f hf
    rw [hclasses] at hf
    split_ifs at hf
    · cases hf
    · exact hf
  have hself := hclasses w₀.nextClass
  rw [if_pos rfl] at hself
  have hshell : Defining D w₀ d mro []
      { w₀.setClass w₀.nextClass ⟨d.role, w₀.nextClass :: mro, .empty, false, []⟩ with
      nextClass := w₀.nextClass + 1 } := by
    refine ⟨⟨fun c n f hf => h.lt c n f (hdict c n f hf), fun c c' n n' f hf hf' =>
      h.name c c' n n' f (hdict c n f hf) (hdict c' n' f hf'), h.marks⟩, fun k hk => ?_, rfl, ?_, ?_, ?_,
      Nat.le_refl _, Nat.le_refl _, fun _ _ => rfl, fun _ hf => hf, fun n f r hf => ?_,
      fun _ ha => absurd ha List.not_mem_nil, fun n hn => ?_, fun hinst => ?_⟩
    · exact (hclasses k).trans (if_neg hk)
    · show ((w₀.setClass _ _).classes w₀.nextClass).mro = _
      rw [hself]
    · show ((w₀.setClass _ _).classes w₀.nextClass).role = _
      rw [hself]
    · show ((w₀.setClass _ _).classes w₀.nextClass).router = _
      rw [hself]
    · replace hf : ((w₀.setClass _ _).classes w₀.nextClass).dict.get n = _ := hf
      rw [hself] at hf
      cases hf
    · obtain ⟨v, hv⟩ := Dict.mem_keys.mp hn
      replace hv : ((w₀.setClass _ _).classes w₀.nextClass).dict.get n = _ := hv
      rw [hself] at hv
      cases hv
    · replace hinst : ((w₀.setClass _ _).classes w₀.nextClass).instantiated = true := hinst
      rw [hself] at hinst
      cases hinst
  have hbody : ∀ body : List (String × Member), body ⊆ d.body → ∀ w, Defining D w₀ d mro [] w →
      Defining D w₀ d mro [] (body.foldl (World.bindMember w₀.nextClass) w) := by
    intro body
    induction body with
    | nil => exact fun _ _ hw => hw
    | cons member body ih =>
      intro hsub w hw
      exact ih (List.subset_of_cons_subset hsub) _ (hw.bindMember (hsub List.mem_cons_self))
  exact hbody d.body (List.Subset.refl _) _ hshell

theorem Defining.deduceModel (h : Defining D w₀ d mro [] w) (hstep : w.deduceModel D w₀.nextClass = some w') :
    Defining D w₀ d mro [] w' := by
  have hset : ∀ model, Defining D w₀ d mro [] (w.setattr w₀.nextClass "model" (.data model)) := fun model =>
    h.setattr_data nofun (.inr rfl) (.inr rfl) nofun
  unfold World.deduceModel at hstep
  split at hstep
  · split at hstep
    · split_ifs at hstep
      obtain rfl := Option.some.inj hstep
      exact hset _
    · cases hstep
    · obtain rfl := Option.some.inj hstep
      exact hset _
  · obtain rfl := Option.some.inj hstep
    exact h

/-- A controller that was defined: the views `done` were registered, then the loop ran. -/
structure Defined (D : Declarations) (w₀ : World) (d : ClassDef) (mro : List ℕ) (done : List Action)
    (w₁ w : World) : Prop where
  defining : Defining D w₀ d mro done w₁
  /-- Every function that the class has with a route is in its own dict. -/
  visible : ∀ k ∈ w₀.nextClass :: mro, ∀ n ∈ (w₁.classes k).dict.keys, w₁.marked w₀.nextClass n = true →
    n ∈ (w₁.classes w₀.nextClass).dict.keys
  looped : Looped w₁ w₀.nextClass (w₁.classes w₀.nextClass).dict.entries w
  chain : ∀ k ∈ (w₀.nextClass :: mro).takeWhile (fun k => decide ((w.classes k).role ≠ .baseController)), ∀ m,
    (w.classes k).role = .mixin m → w.has w₀.nextClass "model" = true →
      ∃ actions, w.actionsOf D w₀.nextClass m = some actions ∧ actions ⊆ done

/-- **The definition of a class**: of a controller, or of another class. -/
theorem define_spec (h : Named w₀) (hstep : w₀.define D d = some w) : (∀ b ∈ d.bases, b < w₀.nextClass) ∧
    ∃ mro, merge (d.bases.map (fun b => (w₀.classes b).mro) ++ [d.bases]) = some mro ∧
      (Defining D w₀ d mro [] w ∧ (∀ k ∈ mro, (w.classes k).role ≠ .baseController) ∨
        ∃ done w₁, Defined D w₀ d mro done w₁ w) := by
  unfold World.define at hstep
  simp only [Option.bind_eq_bind, Option.bind_eq_some_iff] at hstep
  obtain ⟨w₂, hcreate, hstep⟩ := hstep
  obtain ⟨hbases, mro, hmro, hdef⟩ := create_spec (D := D) h hcreate
  refine ⟨hbases, mro, hmro, ?_⟩
  rw [hdef.mro_eq, List.tail_cons] at hstep
  by_cases hbase : (mro.any fun k => decide ((w₂.classes k).role = .baseController)) = true
  · rw [if_pos hbase] at hstep
    obtain ⟨w₃, hdef₃, hroutes⟩ : ∃ w₃, Defining D w₀ d mro [] w₃ ∧
        w₃.addRoutesTo D w₀.nextClass (w₃.classes w₀.nextClass).mro = some w := by
      split_ifs at hstep
      · obtain ⟨w₃, hmodel, hroutes⟩ := Option.bind_eq_some_iff.mp hstep
        exact ⟨w₃, hdef.deduceModel hmodel, hroutes⟩
      · exact ⟨w₂, hdef, hstep⟩
    rw [hdef₃.mro_eq] at hroutes
    obtain ⟨done, w₁, hdef₁, hfinal, -, hattr, hmade⟩ := hdef₃.addRoutesTo hroutes
    unfold World.baseAddRoutesTo at hfinal
    split_ifs at hfinal with hvisible
    obtain rfl := Option.some.inj hfinal
    have hself : w₀.nextClass ∈ (w₁.classes w₀.nextClass).mro := by
      rw [hdef₁.mro_eq]
      exact List.mem_cons_self
    have hlooped := looped_entries hself hdef₁.router (w₁.classes w₀.nextClass).dict.entries
    refine .inr ⟨done, w₁, hdef₁, ?_, hlooped, ?_⟩
    · rw [hdef₁.mro_eq] at hvisible
      exact hvisible
    · have hrole : ∀ k,
          ((((w₁.classes w₀.nextClass).dict.entries.foldl (World.addOperation w₀.nextClass) w₁)).classes k).role =
          (w₃.classes k).role := by
        intro k
        by_cases hk : k = w₀.nextClass
        · rw [hk, hlooped.role, hdef₁.role_eq, hdef₃.role_eq]
        · rw [hlooped.others k hk, hdef₁.others k hk, hdef₃.others k hk]
      have hsame : ∀ n, (∀ a : Action, a.name ≠ n) →
          ((w₁.classes w₀.nextClass).dict.entries.foldl (World.addOperation w₀.nextClass) w₁).getattr w₀.nextClass n =
            w₃.getattr w₀.nextClass n := by
        intro n hn
        rw [← hattr n hn]
        refine World.getattr_congr hlooped.mro fun k => ?_
        by_cases hk : k = w₀.nextClass
        · rw [hk, hlooped.dict]
        · rw [hlooped.others k hk]
      intro k hk m hm hhas
      simp only [hrole] at hk hm
      obtain ⟨hactions, hmodel⟩ := Defining.actionsOf_congr (D := D) hsame m
      rw [hactions]
      exact hmade k hk m hm (hmodel ▸ hhas)
  · rw [if_neg hbase] at hstep
    obtain rfl := Option.some.inj hstep
    refine .inl ⟨hdef, fun k hk hrole => hbase ?_⟩
    exact List.any_eq_true.mpr ⟨k, hk, by simp [hrole]⟩

/-! ## What every sequence of definitions keeps -/

/-- A class is a subclass of `BaseController`. -/
def World.IsController (w : World) (c : ℕ) : Prop :=
  ∃ k ∈ (w.classes c).mro.tail, (w.classes k).role = .baseController

structure Inv (w : World) : Prop extends Named w where
  empty : ∀ c, w.nextClass ≤ c → w.classes c = ⟨.plain, [], .empty, false, []⟩
  mro : ∀ c, c < w.nextClass → ∃ bases, (w.classes c).mro = c :: bases ∧ ∀ k ∈ bases, k < c
  ancestors : ∀ c k, k ∈ (w.classes c).mro → (w.classes k).mro.Sublist (w.classes c).mro
  /-- An operation is that of a function of its class, and its route is bound to the instance of the class. -/
  routers : ∀ c, ∀ op ∈ (w.classes c).router, op.route < w.nextRoute ∧ (w.marks op.viewFunc).isSome = true ∧
    (w.classes c).dict.get op.name = some (.function op.viewFunc) ∧ (w.instanceClass c).isSome = true ∧
      w.routes op.route = ⟨op.params, op.viewFunc, w.instanceClass c⟩
  instances : ∀ c, (w.classes c).instantiated = true → (w.classes c).router ≠ [] ∧
    ∀ k ∈ (w.classes c).mro, k ≠ c → (w.classes k).instantiated = false
  /-- A view that an earlier controller has a route for has one in every controller that inherits it. -/
  inherited : ∀ c c', c' < c → w.IsController c → ∀ op ∈ (w.classes c').router,
    w.getattr c op.name = some (.function op.viewFunc) →
      ∃ op' ∈ (w.classes c).router, op'.name = op.name ∧ op'.viewFunc = op.viewFunc

theorem inv_start : Inv World.start where
  lt _ _ _ h := by cases h
  name _ _ _ _ _ h _ := by cases h
  marks _ _ h := by cases h
  empty _ _ := rfl
  mro _ h := absurd h (Nat.not_lt_zero _)
  ancestors _ _ h := absurd h List.not_mem_nil
  routers _ _ h := absurd h List.not_mem_nil
  instances _ h := by cases h
  inherited _ _ _ _ _ h := absurd h List.not_mem_nil

theorem Named.looped (h : Named w₀) {entries : List (String × Value)} (hloop : Looped w₀ c entries w) : Named w := by
  have hdict : ∀ k, (w.classes k).dict = (w₀.classes k).dict := by
    intro k
    by_cases hk : k = c
    · rw [hk, hloop.dict]
    · rw [hloop.others k hk]
  refine ⟨fun c' n f hf => ?_, fun c₁ c₂ n₁ n₂ f h₁ h₂ => ?_, fun f r hr => ?_⟩
  · rw [hdict] at hf
    rw [hloop.next.2.1]
    exact h.lt c' n f hf
  · rw [hdict] at h₁ h₂
    exact h.name c₁ c₂ n₁ n₂ f h₁ h₂
  · rw [hloop.marks] at hr
    rw [hloop.next.2.1, hloop.next.2.2, (hloop.routes r).2]
    exact h.marks f r hr

/-- The operations of the functions of a class that have a route. -/
theorem mem_operations (h : Named w) {op : Operation} : op ∈ (w.classes c).dict.entries.filterMap w.operationOf ↔
    (w.classes c).dict.get op.name = some (.function op.viewFunc) ∧ w.marks op.viewFunc = some op.route ∧
      (w.routes op.route).params = op.params := by
  rw [List.mem_filterMap]
  constructor
  · rintro ⟨⟨n, v⟩, hentry, hop⟩
    unfold World.operationOf at hop
    split at hop
    · rename_i f hv
      obtain rfl : v = .function f := hv
      obtain ⟨r, hr, rfl⟩ := Option.map_eq_some_iff.mp hop
      rw [(h.marks f r hr).2.2]
      exact ⟨Dict.mem_entries.mp hentry, hr, rfl⟩
    · cases hop
  · rintro ⟨hget, hmark, hparams⟩
    refine ⟨(op.name, .function op.viewFunc), Dict.mem_entries.mpr hget, ?_⟩
    show (w.marks op.viewFunc).map _ = some op
    rw [hmark, Option.map_some, hparams, (h.marks _ _ hmark).2.2]

/-- What a definition leaves of the classes before, and what the new class has. -/
theorem define_frame (h : Inv w₀) (hstep : w₀.define D d = some w) :
    (∀ k, k ≠ w₀.nextClass → w.classes k = w₀.classes k) ∧ w.nextClass = w₀.nextClass + 1 ∧ Named w ∧
      (∀ r, r < w₀.nextRoute → w.routes r = w₀.routes r) ∧ w₀.nextRoute ≤ w.nextRoute ∧
        ∀ f, (w₀.marks f).isSome = true → (w.marks f).isSome = true := by
  obtain ⟨-, mro, -, ⟨hdef, -⟩ | ⟨done, w₁, hdefined⟩⟩ := define_spec h.toNamed hstep
  · exact ⟨hdef.others, hdef.nextClass, hdef.toNamed, hdef.routes, hdef.nextRoute, hdef.marked⟩
  · have hdef := hdefined.defining
    have hloop := hdefined.looped
    refine ⟨fun k hk => (hloop.others k hk).trans (hdef.others k hk), hloop.next.1.trans hdef.nextClass,
      hdef.toNamed.looped hloop, fun r hr => ?_, ?_, fun f hf => ?_⟩
    · rw [hloop.kept, hdef.routes r hr]
      intro op hop heq
      obtain ⟨hget, hmark, -⟩ := (mem_operations hdef.toNamed).mp hop
      have hle := (hdef.own _ _ _ hget hmark).1
      omega
    · rw [hloop.next.2.2]
      exact hdef.nextRoute
    · rw [hloop.marks]
      exact hdef.marked f hf

/-- The order of a new class. -/
theorem define_mro (h : Inv w₀) (hstep : w₀.define D d = some w) :
    ∃ mro, (w.classes w₀.nextClass).mro = w₀.nextClass :: mro ∧
    (w₀.nextClass :: mro).Nodup ∧ (∀ b ∈ d.bases, b < w₀.nextClass ∧ (w₀.classes b).mro.Sublist mro) ∧
      d.bases.Sublist mro ∧ ∀ k ∈ mro, k < w₀.nextClass ∧ (w₀.classes k).mro.Sublist mro := by
  obtain ⟨hbases, mro, hmerge, hdefined⟩ := define_spec h.toNamed hstep
  have hself : (w.classes w₀.nextClass).mro = w₀.nextClass :: mro := by
    rcases hdefined with ⟨hdef, -⟩ | ⟨done, w₁, hdefined⟩
    · exact hdef.mro_eq
    · exact hdefined.looped.mro.trans hdefined.defining.mro_eq
  have hbase : ∀ b ∈ d.bases, (w₀.classes b).mro.Sublist mro := fun b hb =>
    sublist_merge hmerge (List.mem_append_left _ (List.mem_map_of_mem hb))
  have hlist : d.bases.Sublist mro := sublist_merge hmerge (List.mem_append_right _ List.mem_cons_self)
  have hsub : ∀ k ∈ mro, k < w₀.nextClass ∧ (w₀.classes k).mro.Sublist mro := by
    intro k hk
    obtain ⟨list, hmem, hk⟩ := (mem_merge hmerge).mp hk
    rcases List.mem_append.mp hmem with hmem | hmem
    · obtain ⟨b, hb, rfl⟩ := List.mem_map.mp hmem
      obtain ⟨bases, hmro, hlt⟩ := h.mro b (hbases b hb)
      have hle : k ≤ b := by
        rw [hmro] at hk
        rcases List.mem_cons.mp hk with rfl | hk
        · exact Nat.le_refl _
        · exact Nat.le_of_lt (hlt k hk)
      exact ⟨Nat.lt_of_le_of_lt hle (hbases b hb), (h.ancestors b k hk).trans (hbase b hb)⟩
    · rw [List.mem_singleton.mp hmem] at hk
      exact ⟨hbases k hk, hbase k hk⟩
  have hnodup : (w₀.nextClass :: mro).Nodup :=
    List.nodup_cons.mpr ⟨fun hmem => Nat.lt_irrefl _ (hsub _ hmem).1, nodup_merge hmerge⟩
  exact ⟨mro, hself, hnodup, fun b hb => ⟨hbases b hb, hbase b hb⟩, hlist, hsub⟩

/-- A class of the order of an earlier class is as it was. -/
theorem define_older (h : Inv w₀) (hstep : w₀.define D d = some w) (hc : c < w₀.nextClass)
    (hk : k ∈ (w.classes c).mro) :
    w.classes k = w₀.classes k := by
  obtain ⟨hothers, -⟩ := define_frame h hstep
  refine hothers k ?_
  rw [hothers c (Nat.ne_of_lt hc)] at hk
  obtain ⟨bases, hmro, hlt⟩ := h.mro c hc
  rw [hmro] at hk
  rcases List.mem_cons.mp hk with rfl | hk
  · exact Nat.ne_of_lt hc
  · have := hlt k hk
    omega

theorem define_instanceClass (h : Inv w₀) (hstep : w₀.define D d = some w) (hc : c < w₀.nextClass) :
    w.instanceClass c = w₀.instanceClass c := by
  unfold World.instanceClass
  rw [(define_frame h hstep).1 c (Nat.ne_of_lt hc)]
  refine List.find?_congr fun k hk => ?_
  rw [define_older h hstep hc (by rw [(define_frame h hstep).1 c (Nat.ne_of_lt hc)]; exact hk)]

theorem findSome?_congr {α β : Type*} {p q : α → Option β} {xs : List α} (h : ∀ x ∈ xs, p x = q x) :
    xs.findSome? p = xs.findSome? q := by
  induction xs with
  | nil => rfl
  | cons x xs ih =>
    rw [List.findSome?_cons, List.findSome?_cons, h x List.mem_cons_self,
      ih fun y hy => h y (List.mem_cons_of_mem _ hy)]

theorem define_getattr (h : Inv w₀) (hstep : w₀.define D d = some w) (hc : c < w₀.nextClass) (n : String) :
    w.getattr c n = w₀.getattr c n := by
  unfold World.getattr
  rw [(define_frame h hstep).1 c (Nat.ne_of_lt hc)]
  refine findSome?_congr fun k hk => ?_
  rw [define_older h hstep hc (by rw [(define_frame h hstep).1 c (Nat.ne_of_lt hc)]; exact hk)]

/-- The operations of a new class. -/
theorem define_routers (h : Inv w₀) (hstep : w₀.define D d = some w) :
    (∀ op ∈ (w.classes w₀.nextClass).router, op.route < w.nextRoute ∧ (w.marks op.viewFunc).isSome = true ∧
      (w.classes w₀.nextClass).dict.get op.name = some (.function op.viewFunc) ∧
        (w.instanceClass w₀.nextClass).isSome = true ∧
          w.routes op.route = ⟨op.params, op.viewFunc, w.instanceClass w₀.nextClass⟩) ∧
      ((w.classes w₀.nextClass).instantiated = true → (w.classes w₀.nextClass).router ≠ [] ∧
        ∀ k ∈ (w.classes w₀.nextClass).mro, k ≠ w₀.nextClass → (w.classes k).instantiated = false) := by
  obtain ⟨-, mro, -, ⟨hdef, -⟩ | ⟨done, w₁, hdefined⟩⟩ := define_spec h.toNamed hstep
  · rw [hdef.router]
    exact ⟨nofun, fun hinst => absurd rfl (hdef.instantiated hinst).1⟩
  · have hdef := hdefined.defining
    have hloop := hdefined.looped
    have hrouter := hloop.router
    rw [hdef.router, List.nil_append] at hrouter
    rw [hrouter]
    refine ⟨fun op hop => ?_, fun hinst => ?_⟩
    · obtain ⟨hget, hmark, hparams⟩ := (mem_operations hdef.toNamed).mp hop
      obtain ⟨hsome, hbound⟩ := hloop.bound op hop
      obtain ⟨-, hlt, hview⟩ := hdef.marks _ _ hmark
      refine ⟨by rw [hloop.next.2.2]; exact hlt, by rw [hloop.marks, hmark]; rfl, by rw [hloop.dict, hget], hsome, ?_⟩
      obtain ⟨hp, hv⟩ := hloop.routes op.route
      rw [hparams] at hp
      rw [hview] at hv
      rw [← hbound, ← hp, ← hv]
    · have hold : ∀ k, k ≠ w₀.nextClass → w.classes k = w₀.classes k := fun k hk =>
        (hloop.others k hk).trans (hdef.others k hk)
      rw [hloop.mro, hdef.mro_eq]
      rcases hloop.instantiated hinst with hinst | ⟨hne, hfalse⟩
      · refine ⟨?_, fun k hk hkc => ?_⟩
        swap
        · rw [hold k hkc]
          exact (hdef.instantiated hinst).2 k ((List.mem_cons.mp hk).resolve_left hkc) hkc
        obtain ⟨a, ha⟩ := List.exists_mem_of_ne_nil _ (hdef.instantiated hinst).1
        obtain ⟨f, r, scopes, hget, hmark, -, -⟩ := hdef.registered a ha
        have hop : (⟨a.name, (w₁.routes r).params, f, r⟩ : Operation) ∈
            (w₁.classes w₀.nextClass).dict.entries.filterMap w₁.operationOf :=
          (mem_operations hdef.toNamed).mpr ⟨hget, hmark, rfl⟩
        exact List.ne_nil_of_mem hop
      · refine ⟨hne, fun k hk hkc => ?_⟩
        rw [hloop.others k hkc]
        exact hfalse k (hdef.mro_eq ▸ hk) hkc

/-- A view that a new controller inherits with a route. -/
theorem define_inherited (h : Inv w₀) (hstep : w₀.define D d = some w) (hcontroller : w.IsController w₀.nextClass)
    (hmark : (w₀.marks f).isSome = true) (hget : w.getattr w₀.nextClass n = some (.function f)) :
    ∃ op ∈ (w.classes w₀.nextClass).router, op.name = n ∧ op.viewFunc = f := by
  obtain ⟨-, mro, -, ⟨hdef, hno⟩ | ⟨done, w₁, hdefined⟩⟩ := define_spec h.toNamed hstep
  · obtain ⟨k, hk, hrole⟩ := hcontroller
    rw [hdef.mro_eq] at hk
    exact absurd hrole (hno k hk)
  · have hdef := hdefined.defining
    have hloop := hdefined.looped
    have hdict : ∀ k, (w.classes k).dict = (w₁.classes k).dict := by
      intro k
      by_cases hk : k = w₀.nextClass
      · rw [hk, hloop.dict]
      · rw [hloop.others k hk]
    have hget₁ : w₁.getattr w₀.nextClass n = some (.function f) := by
      rw [← hget]
      exact (World.getattr_congr hloop.mro fun k => by rw [hdict]).symm
    obtain ⟨r, hr⟩ := Option.isSome_iff_exists.mp (hdef.marked f hmark)
    have hmarked : w₁.marked w₀.nextClass n = true := by
      unfold World.marked
      rw [hget₁]
      exact hdef.marked f hmark
    obtain ⟨k, hk, hkn⟩ := World.getattr_eq_some hget₁
    have hown := hdefined.visible k (hdef.mro_eq ▸ hk) n (Dict.mem_keys.mpr ⟨_, hkn⟩) hmarked
    -- the name is in the dict of the class itself, which comes first
    obtain ⟨v, hv⟩ := Dict.mem_keys.mp hown
    have hself : (w₁.classes w₀.nextClass).dict.get n = some (.function f) := by
      rw [← hget₁]
      unfold World.getattr
      rw [hdef.mro_eq, List.findSome?_cons, hv]
    refine ⟨⟨n, (w₁.routes r).params, f, r⟩, ?_, rfl, rfl⟩
    rw [hloop.router, hdef.router, List.nil_append]
    exact (mem_operations hdef.toNamed).mpr ⟨hself, hr, rfl⟩

/-- **One definition keeps it.** -/
theorem inv_define (h : Inv w₀) (hstep : w₀.define D d = some w) : Inv w := by
  obtain ⟨hothers, hnext, hnamed, hroutes, hroute, hmarked⟩ := define_frame h hstep
  obtain ⟨mro, hmro, -, hbase, -, hsub⟩ := define_mro h hstep
  have hold : ∀ c, c < w₀.nextClass → w.classes c = w₀.classes c := fun c hc => hothers c (Nat.ne_of_lt hc)
  have hcase : ∀ c, c < w₀.nextClass ∨ c = w₀.nextClass ∨ w₀.nextClass < c := fun c => Nat.lt_trichotomy c _
  have hempty : ∀ c, w₀.nextClass < c → w.classes c = ⟨.plain, [], .empty, false, []⟩ := fun c hc =>
    (hothers c (Nat.ne_of_gt hc)).trans (h.empty c (Nat.le_of_lt hc))
  refine ⟨hnamed, fun c hc => hempty c (by omega), fun c hc => ?_, fun c k hk => ?_, fun c op hop => ?_,
    fun c hinst => ?_,
    fun c c' hlt hcontroller op hop hget => ?_⟩
  · rcases hcase c with hlt | rfl | hgt
    · rw [hold c hlt]
      exact h.mro c hlt
    · exact ⟨mro, hmro, fun k hk => (hsub k hk).1⟩
    · omega
  · rcases hcase c with hlt | rfl | hgt
    · rw [define_older h hstep hlt hk, hold c hlt]
      rw [hold c hlt] at hk
      exact h.ancestors c k hk
    · rw [hmro] at hk ⊢
      rcases List.mem_cons.mp hk with rfl | hk
      · rw [hmro]
      · obtain ⟨hlt, hsublist⟩ := hsub k hk
        rw [hold k hlt]
        exact hsublist.cons _
    · rw [hempty c hgt] at hk
      exact absurd hk List.not_mem_nil
  · rcases hcase c with hlt | rfl | hgt
    · rw [hold c hlt] at hop ⊢
      obtain ⟨h₁, h₂, h₃, h₄, h₅⟩ := h.routers c op hop
      rw [define_instanceClass h hstep hlt, hroutes op.route h₁]
      exact ⟨Nat.lt_of_lt_of_le h₁ hroute, hmarked _ h₂, h₃, h₄, h₅⟩
    · exact (define_routers h hstep).1 op hop
    · rw [hempty c hgt] at hop
      exact absurd hop List.not_mem_nil
  · rcases hcase c with hlt | rfl | hgt
    · rw [hold c hlt] at hinst
      obtain ⟨hne, hfalse⟩ := h.instances c hinst
      refine ⟨by rw [hold c hlt]; exact hne, fun k hk hkc => ?_⟩
      rw [define_older h hstep hlt hk]
      rw [hold c hlt] at hk
      exact hfalse k hk hkc
    · exact (define_routers h hstep).2 hinst
    · rw [hempty c hgt] at hinst
      cases hinst
  · rcases hcase c with hlt' | rfl | hgt
    · rw [hold c' (Nat.lt_trans hlt hlt')] at hop
      rw [define_getattr h hstep hlt'] at hget
      rw [hold c hlt']
      refine h.inherited c c' hlt ?_ op hop hget
      obtain ⟨k, hk, hrole⟩ := hcontroller
      rw [define_older h hstep hlt' (List.mem_of_mem_tail hk)] at hrole
      rw [hold c hlt'] at hk
      exact ⟨k, hk, hrole⟩
    · rw [hold c' hlt] at hop
      exact define_inherited h hstep hcontroller (h.routers c' op hop).2.1 hget
    · obtain ⟨k, hk, -⟩ := hcontroller
      rw [hempty c hgt] at hk
      exact absurd hk List.not_mem_nil

theorem inv_run {ds : List ClassDef} (hrun : Run (fun w d w' => World.define D w d = some w') World.start ds w) :
    Inv w :=
  hrun.invariant (fun _ _ _ h hstep => inv_define h hstep) inv_start

/-! ## The routes of a controller -/

/-- In a sequence of definitions, that of the class `c` made the route `r`. -/
def MadeBy (D : Declarations) (ds : List ClassDef) (c r : ℕ) : Prop :=
  ∃ ds₁ d ds₂ w₁ w₂, ds = ds₁ ++ d :: ds₂ ∧
    Run (fun w d w' => World.define D w d = some w') World.start ds₁ w₁ ∧ w₁.define D d = some w₂ ∧
      w₁.nextClass = c ∧ w₁.nextRoute ≤ r ∧ r < w₂.nextRoute

theorem MadeBy.append {ds : List ClassDef} (h : MadeBy D ds c r) (more : List ClassDef) : MadeBy D (ds ++ more) c r := by
  obtain ⟨ds₁, d, ds₂, w₁, w₂, rfl, hrun, hstep, hmade⟩ := h
  exact ⟨ds₁, d, ds₂ ++ more, w₁, w₂, by simp, hrun, hstep, hmade⟩

/-- The routes of a new class are new. -/
theorem define_made (h : Inv w₀) (hstep : w₀.define D d = some w) {op : Operation}
    (hop : op ∈ (w.classes w₀.nextClass).router) : w₀.nextRoute ≤ op.route ∧ op.route < w.nextRoute := by
  refine ⟨?_, ((define_routers h hstep).1 op hop).1⟩
  obtain ⟨-, mro, -, ⟨hdef, -⟩ | ⟨done, w₁, hdefined⟩⟩ := define_spec h.toNamed hstep
  · rw [hdef.router] at hop
    exact absurd hop List.not_mem_nil
  · have hdef := hdefined.defining
    rw [hdefined.looped.router, hdef.router, List.nil_append] at hop
    obtain ⟨hget, hmark, -⟩ := (mem_operations hdef.toNamed).mp hop
    exact (hdef.own _ _ _ hget hmark).1

/-- A route of a controller was made by the definition of the controller. -/
theorem made_of_run {ds : List ClassDef}
    (hrun : Run (fun w d w' => World.define D w d = some w') World.start ds w) {op : Operation}
    (hop : op ∈ (w.classes c).router) : MadeBy D ds c op.route := by
  induction ds using List.reverseRecOn generalizing w with
  | nil =>
    obtain rfl := Run.nil_iff.mp hrun
    exact absurd hop List.not_mem_nil
  | append_singleton ds d ih =>
    obtain ⟨w₁, hrun₁, hlast⟩ := Run.append_iff.mp hrun
    have hstep := Run.singleton_iff.mp hlast
    have h := inv_run hrun₁
    by_cases hc : c = w₁.nextClass
    · rw [hc] at hop
      obtain ⟨hle, hlt⟩ := define_made h hstep hop
      exact ⟨ds, d, [], w₁, w, rfl, hrun₁, hstep, hc.symm, hle, hlt⟩
    · rw [(define_frame h hstep).1 c hc] at hop
      exact (ih hrun₁ hop).append [d]

/-- **The routes of a controller are its own.**  Whatever controllers are defined, in any order, and however many of
them share the function of a mixin: each operation of a controller calls a function of that controller, and its route
is the one that its own definition made; the route is bound to the instance of the controller itself, unless a base of
it has routes, whose instance it then shares; and a view that an earlier controller has a route for has one in every
controller that inherits it. -/
theorem routes_isolated {ds : List ClassDef}
    (hrun : Run (fun w d w' => World.define D w d = some w') World.start ds w) (c : ℕ) :
    (∀ op ∈ (w.classes c).router, (w.classes c).dict.get op.name = some (.function op.viewFunc) ∧
      (w.routes op.route).viewFunc = op.viewFunc ∧ (w.routes op.route).params = op.params ∧
        ((w.routes op.route).controller = some c ↔ ∀ k ∈ (w.classes c).mro, k ≠ c → (w.classes k).router = []) ∧
          MadeBy D ds c op.route) ∧
      ∀ c', c' < c → w.IsController c → ∀ op ∈ (w.classes c').router,
        w.getattr c op.name = some (.function op.viewFunc) →
          ∃ op' ∈ (w.classes c).router, op'.name = op.name ∧ op'.viewFunc = op.viewFunc := by
  have h := inv_run hrun
  refine ⟨fun op hop => ?_, fun c' hlt hcontroller op hop hget => h.inherited c c' hlt hcontroller op hop hget⟩
  obtain ⟨-, -, hget, hsome, hroute⟩ := h.routers c op hop
  rw [hroute]
  refine ⟨hget, rfl, rfl, ?_, made_of_run hrun hop⟩
  obtain ⟨i, hi⟩ := Option.isSome_iff_exists.mp hsome
  show w.instanceClass c = some c ↔ _
  have hc : c < w.nextClass := by
    by_contra hge
    rw [h.empty c (Nat.le_of_not_lt hge)] at hop
    exact absurd hop List.not_mem_nil
  obtain ⟨bases, hmro, hlt⟩ := h.mro c hc
  constructor
  · intro hself k hk hne
    by_contra hrouter
    -- a base with routes has an instance, or one of its own bases has
    obtain ⟨op', hop'⟩ := List.exists_mem_of_ne_nil _ hrouter
    obtain ⟨j, hj⟩ := Option.isSome_iff_exists.mp (h.routers k op' hop').2.2.2.1
    have hjmem := List.mem_of_find?_eq_some hj
    have hjinst := List.find?_some (p := fun k => (w.classes k).instantiated) hj
    have hcinst := List.find?_some (p := fun k => (w.classes k).instantiated) hself
    have hkbase : k ∈ bases := by
      rw [hmro] at hk
      exact (List.mem_cons.mp hk).resolve_left hne
    have hkc := hlt k hkbase
    have hjc : j ≠ c := by
      obtain ⟨bases', hmro', hlt'⟩ := h.mro k (Nat.lt_trans hkc hc)
      rw [hmro'] at hjmem
      rcases List.mem_cons.mp hjmem with rfl | hjmem
      · exact hne
      · have := hlt' j hjmem
        omega
    have hfalse := (h.instances c hcinst).2 j ((h.ancestors c k hk).subset hjmem) hjc
    rw [hfalse] at hjinst
    cases hjinst
  · intro hbases
    have hmem := List.mem_of_find?_eq_some hi
    have hinst := List.find?_some (p := fun k => (w.classes k).instantiated) hi
    by_cases heq : i = c
    · rw [hi, heq]
    · exact absurd (hbases i hmem heq) (h.instances i hinst).1

end Totem.Api.Controllers
