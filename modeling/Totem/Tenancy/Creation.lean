import Totem.Lib.Run
import Totem.Tenancy.Database

/-!
# Totem.Tenancy.Creation — the creations of tenants, at once

Any number of `TenantService._create` run on one server, each in its own process.  Every call of the server is one
step, which may fail, and a process may end at any point.

* `Point.owns`: from its `CREATE DATABASE` on, a call owns the database of its name.
* `Inv`: the databases are those of the start and those that are owned; `inv_step`, `inv_run`.
* `create_all_or_nothing`: what is there after any run.
-/

namespace Totem.Tenancy.Creation

open Totem.Lib

/-! ## What a call writes -/

/-- A row of `User`, with the roles it has. -/
structure User where
  username : String
  email : String
  userType : String
  isStaff : Bool
  isSuperuser : Bool
  password : String
  roles : List String
  deriving DecidableEq

/-- The rows of a database that a creation reads or writes, and the rest of it. -/
structure Content (R : Type*) where
  roles : List String
  users : List User
  /-- The websites, with their names. -/
  websites : List (String × String)
  rest : R
  deriving DecidableEq

/-- `TenantCreateSchema`. -/
structure TenantCreateSchema where
  email : String
  name : String
  password : String

/-- What the server and the management commands answer.  The number tells when: they may answer otherwise another
time. -/
structure Host (R : Type*) where
  /-- The content of a database just created. -/
  new : Content R
  /-- The maintenance database cannot be queried. -/
  unreachable : ℕ → Bool
  /-- `CREATE DATABASE` is refused, with a `ProgrammingError` or not. -/
  refusesCreation : ℕ → Option Bool
  /-- It is executed, and the connection fails before the answer is there. -/
  losesCreation : ℕ → Bool
  refusesDrop : ℕ → Bool
  losesDrop : ℕ → Bool
  /-- `use_database` raises. -/
  refusesSwitch : ℕ → Bool
  /-- What `migrate` leaves, and whether it returned. -/
  migrate : ℕ → Content R → Bool × Content R
  /-- What `populate` leaves, and whether it returned. -/
  populate : ℕ → Content R → Bool × Content R
  /-- A statement of the last transaction, or its COMMIT, fails for a reason of its own. -/
  disconnects : ℕ → Bool
  makePassword : String → String

def ADMIN_ROLE_ID : String := "USERTYPE_ADMIN"

/-- `UserType.ADMIN`. -/
def ADMIN : String := "ADMIN"

def DEFAULT_WEBSITE_ID : String := "01M209K5BNS12QRPHXFWVJNVD1"

section Fill

variable {R : Type*}

/-- The row that `create_admin` builds. -/
def admin (H : Host R) (email password : String) : User where
  username := email
  email := email
  userType := ADMIN
  isStaff := true
  isSuperuser := true
  password := H.makePassword password
  roles := [ADMIN_ROLE_ID]

/-- `create_admin`: the user name is unique, and the role is there. -/
def createAdmin (H : Host R) (email password : String) (c : Content R) : Option (Content R) :=
  if email ∈ c.users.map User.username ∨ ADMIN_ROLE_ID ∉ c.roles then none
  else some { c with users := c.users ++ [admin H email password] }

/-- `rename_website`. -/
def renameWebsite (name : String) (c : Content R) : Content R :=
  { c with websites := c.websites.map fun website =>
      if website.1 = DEFAULT_WEBSITE_ID then (website.1, name) else website }

/-- The last transaction of `_create`. -/
def fill (H : Host R) (data : TenantCreateSchema) (c : Content R) : Option (Content R) :=
  (createAdmin H data.email data.password c).map (renameWebsite data.name)

end Fill

/-! ## The calls -/

/-- What a call raises, or that it returns. -/
inductive Outcome
  | created
  | databaseNameError
  | databaseExists
  | tenantCreationFailed
  /-- What the server raised, before there was a database. -/
  | raised
  /-- What `CREATE DATABASE` raised, which was executed. -/
  | creationLost
  /-- What `DROP DATABASE` raised, which was not executed. -/
  | dropRaised
  /-- What it raised once it was executed. -/
  | dropLost
  deriving DecidableEq

/-- Where a call is in `_create`. -/
inductive Point
  /-- Before `validate_database_name`. -/
  | begin
  /-- Before `database_exists`, at the start of `create_database`. -/
  | check
  /-- Before `CREATE DATABASE`. -/
  | create
  /-- In the handler of its `ProgrammingError`. -/
  | recheck
  /-- Before `use_database`. -/
  | select
  | migrate
  | populate
  /-- Before the last transaction. -/
  | fill
  /-- In the handler of the exceptions, before `drop_database`. -/
  | drop
  | over (outcome : Outcome)
  /-- The process ended within the call; `owned` tells whether it left a database. -/
  | killed (owned : Bool)
  deriving DecidableEq

/-- From its `CREATE DATABASE` on, and up to its `DROP DATABASE`, the database of its name is that of the call. -/
def Point.owns : Point → Bool
  | .select | .migrate | .populate | .fill | .drop | .killed true => true
  | .over .created | .over .creationLost | .over .dropRaised => true
  | _ => false

/-- The call is still running. -/
def Point.running : Point → Bool
  | .over _ | .killed _ => false
  | _ => true

/-- A call of `create`. -/
structure Request where
  dbName : String
  data : TenantCreateSchema

/-- The databases of the server, and where the calls are. -/
structure State (ι R : Type*) where
  databases : String → Option (Content R)
  points : ι → Point

inductive Event (ι : Type*)
  /-- The next call of the server. -/
  | next (i : ι) (time : ℕ)
  /-- The process ends. -/
  | kill (i : ι)

section Step

variable {ι R : Type*} [DecidableEq ι] (S : Settings) (H : Host R)

def State.at (s : State ι R) (i : ι) (p : Point) : State ι R :=
  { s with points := Function.update s.points i p }

def State.put (s : State ι R) (name : String) (c : Option (Content R)) : State ι R :=
  { s with databases := Function.update s.databases name c }

/-- `database_exists`, and where the answer leads. -/
def State.ask (s : State ι R) (i : ι) (name : String) (time : ℕ) (absent : Point) : State ι R :=
  if H.unreachable time then s.at i (.over .raised)
  else if (s.databases name).isSome then s.at i (.over .databaseExists)
  else s.at i absent

/-- A command on the database of the call: what it leaves is there, whether it returns or not. -/
def State.command (s : State ι R) (i : ι) (name : String) (run : Content R → Bool × Content R) (returned : Point) :
    State ι R :=
  match s.databases name with
  | none => s.at i .drop
  | some c => ((s.put name (some (run c).2)).at i (if (run c).1 then returned else .drop))

/-- One call of the server, by a call of `_create`. -/
def State.next (s : State ι R) (i : ι) (r : Request) (time : ℕ) : State ι R :=
  match s.points i with
  | .begin => s.at i (if S.Accepts r.dbName then .check else .over .databaseNameError)
  | .check => s.ask H i r.dbName time .create
  | .create =>
    match H.refusesCreation time, s.databases r.dbName with
    | some true, _ => s.at i .recheck
    | some false, _ => s.at i (.over .raised)
    | none, some _ => s.at i .recheck
    | none, none =>
      -- `create_database` is outside the `try`
      (s.put r.dbName (some H.new)).at i (if H.losesCreation time then .over .creationLost else .select)
  | .recheck => s.ask H i r.dbName time (.over .raised)
  | .select => s.at i (if H.refusesSwitch time then .drop else .migrate)
  | .migrate => s.command i r.dbName (H.migrate time) .populate
  | .populate => s.command i r.dbName (H.populate time) .fill
  | .fill =>
    match (s.databases r.dbName).bind (fill H r.data) with
    | some c => if H.disconnects time then s.at i .drop else (s.put r.dbName (some c)).at i (.over .created)
    | none => s.at i .drop
  | .drop =>
    if H.refusesDrop time then s.at i (.over .dropRaised)
    else (s.put r.dbName none).at i (.over (if H.losesDrop time then .dropLost else .tenantCreationFailed))
  | .over _ | .killed _ => s

variable (reqs : ι → Request)

/-- One event; nothing more happens to a call that is over. -/
def step (s : State ι R) : Event ι → Option (State ι R)
  | .next i time => if (s.points i).running then some (s.next S H i (reqs i) time) else none
  | .kill i => if (s.points i).running then some (s.at i (.killed (s.points i).owns)) else none

/-- Before any of the calls. -/
def start (databases : String → Option (Content R)) : State ι R := ⟨databases, fun _ => .begin⟩

end Step

/-! ## The invariant -/

section Invariant

variable {ι R : Type*} [DecidableEq ι] {S : Settings} {H : Host R} {reqs : ι → Request}
variable {initial : String → Option (Content R)} {s s' : State ι R} {i j : ι} {name : String} {p : Point}
variable {c : Option (Content R)}

/-- A database that was migrated and populated without an error. -/
def Populated (H : Host R) (c : Content R) : Prop :=
  ∃ time time' migrated, H.migrate time H.new = (true, migrated) ∧ H.populate time' migrated = (true, c)

/-- What is in the database of a call, as far as it got. -/
def Stage (H : Host R) (data : TenantCreateSchema) (c : Content R) : Point → Prop
  | .select | .migrate => c = H.new
  | .populate => ∃ time, H.migrate time H.new = (true, c)
  | .fill => Populated H c
  | .over .created => ∃ populated, Populated H populated ∧ fill H data populated = some c
  | _ => True

/-- The databases are those of the start, as they were, and one for each call that owns it. -/
structure Inv (H : Host R) (reqs : ι → Request) (initial : String → Option (Content R)) (s : State ι R) : Prop where
  kept : ∀ name c, initial name = some c → s.databases name = some c
  owner : ∀ name c, s.databases name = some c →
    initial name = some c ∨ ∃ i, (reqs i).dbName = name ∧ (s.points i).owns = true
  owned : ∀ i, (s.points i).owns = true → initial (reqs i).dbName = none ∧
    ∃ c, s.databases (reqs i).dbName = some c ∧ Stage H (reqs i).data c (s.points i)
  alone : ∀ i j, (s.points i).owns = true → (s.points j).owns = true → (reqs i).dbName = (reqs j).dbName → i = j

@[simp] theorem points_at_self : (s.at i p).points i = p := Function.update_self ..

theorem points_at_of_ne (h : j ≠ i) : (s.at i p).points j = s.points j := Function.update_of_ne h ..

@[simp] theorem databases_at : (s.at i p).databases = s.databases := rfl

omit [DecidableEq ι]

@[simp] theorem points_put : (s.put name c).points = s.points := rfl

@[simp] theorem databases_put_self : (s.put name c).databases name = c := Function.update_self ..

theorem databases_put_of_ne {name' : String} (h : name' ≠ name) : (s.put name c).databases name' = s.databases name' :=
  Function.update_of_ne h ..

theorem put_databases : s.put name (s.databases name) = s := by
  unfold State.put
  rw [Function.update_eq_self]

theorem inv_start : Inv H reqs initial (start initial : State ι R) where
  kept _ _ h := h
  owner _ _ h := .inl h
  owned _ h := by cases h
  alone _ _ h := by cases h

/-- The database of a call that owns one is no other's. -/
theorem Inv.name_ne (h : Inv H reqs initial s) (hi : (s.points i).owns = true) (hj : (s.points j).owns = true)
    (hne : j ≠ i) : (reqs j).dbName ≠ (reqs i).dbName := fun hname => hne (h.alone j i hj hi hname)

variable [DecidableEq ι]

/-- A call without a database goes on without one. -/
theorem Inv.stays (h : Inv H reqs initial s) (hi : (s.points i).owns = false) (hp : p.owns = false) :
    Inv H reqs initial (s.at i p) := by
  have hothers : ∀ j, ((s.at i p).points j).owns = true ↔ (s.points j).owns = true := by
    intro j
    by_cases hji : j = i
    · subst hji
      rw [points_at_self, hp, hi]
    · rw [points_at_of_ne hji]
  refine ⟨h.kept, fun name c hc => ?_, fun j hj => ?_, fun j k hj hk => ?_⟩
  · simpa only [hothers] using h.owner name c hc
  · have hji : j ≠ i := by
      rintro rfl
      rw [points_at_self, hp] at hj
      cases hj
    rw [points_at_of_ne hji] at hj ⊢
    exact h.owned j hj
  · exact h.alone j k ((hothers j).mp hj) ((hothers k).mp hk)

/-- A call that owns its database, or finds its name free, leaves the database as it should be by then. -/
theorem Inv.holds (h : Inv H reqs initial s) (hi : (s.points i).owns = true ∨ s.databases (reqs i).dbName = none)
    {d : Content R} (hp : p.owns = true) (hd : Stage H (reqs i).data d p) :
    Inv H reqs initial ((s.put (reqs i).dbName (some d)).at i p) := by
  -- the name is no other's
  have hothers : ∀ j, j ≠ i → (s.points j).owns = true → (reqs j).dbName ≠ (reqs i).dbName := by
    intro j hji hj hname
    rcases hi with hi | hi
    · exact h.name_ne hi hj hji hname
    · obtain ⟨-, c, hc, -⟩ := h.owned j hj
      rw [hname, hi] at hc
      cases hc
  have hinitial : initial (reqs i).dbName = none := by
    rcases hi with hi | hi
    · exact (h.owned i hi).1
    · cases hc : initial (reqs i).dbName with
      | none => rfl
      | some c => rw [h.kept _ c hc] at hi; cases hi
  have hpoints : ∀ j, (((s.put (reqs i).dbName (some d)).at i p).points j).owns = true →
      j = i ∨ j ≠ i ∧ (s.points j).owns = true := by
    intro j hj
    by_cases hji : j = i
    · exact .inl hji
    · rw [points_at_of_ne hji] at hj
      exact .inr ⟨hji, hj⟩
  refine ⟨fun name c hc => ?_, fun name c hc => ?_, fun j hj => ?_, fun j k hj hk hname => ?_⟩
  · have hne : name ≠ (reqs i).dbName := by
      rintro rfl
      rw [hinitial] at hc
      cases hc
    rw [databases_at, databases_put_of_ne hne]
    exact h.kept name c hc
  · by_cases hname : name = (reqs i).dbName
    · exact .inr ⟨i, hname.symm, by rw [points_at_self, hp]⟩
    · rw [databases_at, databases_put_of_ne hname] at hc
      refine (h.owner name c hc).imp_right ?_
      rintro ⟨j, rfl, hj⟩
      have hji : j ≠ i := fun hji => hname (congrArg (fun k => (reqs k).dbName) hji)
      exact ⟨j, rfl, by rwa [points_at_of_ne hji]⟩
  · rcases hpoints j hj with rfl | ⟨hji, hj⟩
    · refine ⟨hinitial, d, by simp, ?_⟩
      rwa [points_at_self]
    · obtain ⟨hnone, c, hc, hstage⟩ := h.owned j hj
      rw [points_at_of_ne hji, databases_at, databases_put_of_ne (hothers j hji hj)]
      exact ⟨hnone, c, hc, hstage⟩
  · rcases hpoints j hj with hji | ⟨hji, hj⟩ <;> rcases hpoints k hk with hki | ⟨hki, hk⟩
    · rw [hji, hki]
    · rw [hji] at hname
      exact absurd hname.symm (hothers k hki hk)
    · rw [hki] at hname
      exact absurd hname (hothers j hji hj)
    · exact h.alone j k hj hk hname

/-- A call that owns its database goes on, and the database is as it should be by then. -/
theorem Inv.goes (h : Inv H reqs initial s) (hi : (s.points i).owns = true) (hp : p.owns = true)
    (hstage : ∀ d, s.databases (reqs i).dbName = some d → Stage H (reqs i).data d (s.points i) →
      Stage H (reqs i).data d p) : Inv H reqs initial (s.at i p) := by
  obtain ⟨-, d, hd, hd'⟩ := h.owned i hi
  have hput := h.holds (.inl hi) hp (hstage d hd hd')
  rwa [← hd, put_databases] at hput

/-- A call drops its database. -/
theorem Inv.drops (h : Inv H reqs initial s) (hi : (s.points i).owns = true) (hp : p.owns = false) :
    Inv H reqs initial ((s.put (reqs i).dbName none).at i p) := by
  have hpoints : ∀ j, (((s.put (reqs i).dbName none).at i p).points j).owns = true →
      j ≠ i ∧ (s.points j).owns = true := by
    intro j hj
    have hji : j ≠ i := by
      rintro rfl
      rw [points_at_self, hp] at hj
      cases hj
    rw [points_at_of_ne hji] at hj
    exact ⟨hji, hj⟩
  refine ⟨fun name c hc => ?_, fun name c hc => ?_, fun j hj => ?_, fun j k hj hk => ?_⟩
  · have hne : name ≠ (reqs i).dbName := by
      rintro rfl
      rw [(h.owned i hi).1] at hc
      cases hc
    rw [databases_at, databases_put_of_ne hne]
    exact h.kept name c hc
  · have hne : name ≠ (reqs i).dbName := by
      rintro rfl
      rw [databases_at, databases_put_self] at hc
      cases hc
    rw [databases_at, databases_put_of_ne hne] at hc
    refine (h.owner name c hc).imp_right ?_
    rintro ⟨j, rfl, hj⟩
    have hji : j ≠ i := fun hji => hne (congrArg (fun k => (reqs k).dbName) hji)
    exact ⟨j, rfl, by rwa [points_at_of_ne hji]⟩
  · obtain ⟨hji, hj⟩ := hpoints j hj
    rw [points_at_of_ne hji, databases_at, databases_put_of_ne (h.name_ne hi hj hji)]
    exact h.owned j hj
  · exact h.alone j k (hpoints j hj).2 (hpoints k hk).2

/-! ## Steps and runs -/

theorem Inv.ask (h : Inv H reqs initial s) (hi : (s.points i).owns = false) (hp : p.owns = false) (time : ℕ) :
    Inv H reqs initial (s.ask H i name time p) := by
  unfold State.ask
  split_ifs
  · exact h.stays hi rfl
  · exact h.stays hi rfl
  · exact h.stays hi hp

theorem Inv.command (h : Inv H reqs initial s) (hi : (s.points i).owns = true) {run : Content R → Bool × Content R}
    (hp : p.owns = true) (hstage : ∀ d d', Stage H (reqs i).data d (s.points i) → run d = (true, d') →
      Stage H (reqs i).data d' p) : Inv H reqs initial (s.command i (reqs i).dbName run p) := by
  obtain ⟨-, d, hd, hd'⟩ := h.owned i hi
  unfold State.command
  simp only [hd]
  cases hrun : (run d).1 with
  | false =>
    rw [if_neg (by simp)]
    exact h.holds (.inl hi) rfl trivial
  | true =>
    rw [if_pos rfl]
    exact h.holds (.inl hi) hp (hstage d _ hd' (Prod.ext hrun rfl))

/-- **One call of the server keeps the invariant.** -/
theorem inv_next (h : Inv H reqs initial s) (i : ι) (time : ℕ) : Inv H reqs initial (s.next S H i (reqs i) time) := by
  unfold State.next
  split
  case h_1 hpoint =>
    refine h.stays (by rw [hpoint]; rfl) ?_
    split_ifs <;> rfl
  case h_2 hpoint => exact h.ask (by rw [hpoint]; rfl) rfl time
  case h_3 hpoint =>
    split
    · exact h.stays (by rw [hpoint]; rfl) rfl
    · exact h.stays (by rw [hpoint]; rfl) rfl
    · exact h.stays (by rw [hpoint]; rfl) rfl
    · rename_i hfree
      split_ifs
      · exact h.holds (.inr hfree) rfl trivial
      · exact h.holds (.inr hfree) rfl rfl
  case h_4 hpoint => exact h.ask (by rw [hpoint]; rfl) rfl time
  case h_5 hpoint =>
    split_ifs
    · exact h.goes (by rw [hpoint]; rfl) rfl fun _ _ _ => trivial
    · exact h.goes (by rw [hpoint]; rfl) rfl fun d _ hd => by rwa [hpoint] at hd
  case h_6 hpoint =>
    refine h.command (by rw [hpoint]; rfl) rfl fun d d' hd hrun => ?_
    rw [hpoint] at hd
    obtain rfl : d = H.new := hd
    exact ⟨time, hrun⟩
  case h_7 hpoint =>
    refine h.command (by rw [hpoint]; rfl) rfl fun d d' hd hrun => ?_
    rw [hpoint] at hd
    obtain ⟨time', hmigrated⟩ := hd
    exact ⟨time', time, d, hmigrated, hrun⟩
  case h_8 hpoint =>
    have howns : (s.points i).owns = true := by rw [hpoint]; rfl
    split
    · rename_i c hc
      split_ifs
      · exact h.goes howns rfl fun _ _ _ => trivial
      · obtain ⟨d, hd, hfill⟩ := Option.bind_eq_some_iff.mp hc
        obtain ⟨-, d', hd', hstage⟩ := h.owned i howns
        obtain rfl := Option.some.inj (hd.symm.trans hd')
        rw [hpoint] at hstage
        exact h.holds (.inl howns) rfl ⟨d, hstage, hfill⟩
    · exact h.goes howns rfl fun _ _ _ => trivial
  case h_9 hpoint =>
    split_ifs
    · exact h.goes (by rw [hpoint]; rfl) rfl fun _ _ _ => trivial
    · exact h.drops (by rw [hpoint]; rfl) rfl
    · exact h.drops (by rw [hpoint]; rfl) rfl
  case h_10 => exact h
  case h_11 => exact h

theorem inv_step {e : Event ι} (h : Inv H reqs initial s) (hstep : step S H reqs s e = some s') :
    Inv H reqs initial s' := by
  cases e with
  | next i time =>
    simp only [step] at hstep
    split_ifs at hstep
    obtain rfl := Option.some.inj hstep
    exact inv_next h i time
  | kill i =>
    simp only [step] at hstep
    split_ifs at hstep
    obtain rfl := Option.some.inj hstep
    cases howns : (s.points i).owns with
    | false => exact h.stays howns rfl
    | true => exact h.goes howns rfl fun _ _ _ => trivial

theorem inv_run {es : List (Event ι)} (hrun : Run (fun s e s' => step S H reqs s e = some s') (start initial) es s) :
    Inv H reqs initial s := hrun.invariant (fun _ _ _ h hstep => inv_step h hstep) inv_start

/-- **A tenant is created as a whole or not at all.**  Whatever the calls, their order, what fails and which process
ends: no creation touches a database that was there; a call that returned has left its database migrated, populated
and with its administrator; no two calls own databases of one name; and of a call that raised nothing is left, unless
it is what a `DROP DATABASE` raised that was not executed, or a `CREATE DATABASE` that was. -/
theorem create_all_or_nothing {es : List (Event ι)}
    (hrun : Run (fun s e s' => step S H reqs s e = some s') (start initial) es s) :
    (∀ name c, initial name = some c → s.databases name = some c) ∧
      (∀ i, s.points i = .over .created → initial (reqs i).dbName = none ∧ ∃ populated c, Populated H populated ∧
        fill H (reqs i).data populated = some c ∧ s.databases (reqs i).dbName = some c) ∧
      (∀ i j, (s.points i).owns = true → (s.points j).owns = true → (reqs i).dbName = (reqs j).dbName → i = j) ∧
      ∀ name, initial name = none →
        ((∃ c, s.databases name = some c) ↔ ∃ i, (reqs i).dbName = name ∧ (s.points i).owns = true) := by
  have h := inv_run hrun
  refine ⟨h.kept, fun i hi => ?_, h.alone, fun name hname => ⟨?_, ?_⟩⟩
  · obtain ⟨hnone, c, hc, hstage⟩ := h.owned i (by rw [hi]; rfl)
    rw [hi] at hstage
    obtain ⟨populated, hpopulated, hfill⟩ := hstage
    exact ⟨hnone, populated, c, hpopulated, hfill, hc⟩
  · rintro ⟨c, hc⟩
    refine (h.owner name c hc).resolve_left ?_
    rw [hname]
    nofun
  · rintro ⟨i, rfl, hi⟩
    obtain ⟨-, c, hc, -⟩ := h.owned i hi
    exact ⟨c, hc⟩

end Invariant

section Sample

/-- A server that fails the first migration, and nothing else. -/
def flaky : Host ℕ where
  new := ⟨[], [], [], 0⟩
  unreachable _ := false
  refusesCreation _ := none
  losesCreation _ := false
  refusesDrop _ := false
  losesDrop _ := false
  refusesSwitch _ := false
  migrate time c := (decide (time ≠ 3), { c with rest := c.rest + 1 })
  populate _ c := (true, { c with roles := [ADMIN_ROLE_ID], websites := [(DEFAULT_WEBSITE_ID, "My Website")] })
  disconnects _ := false
  makePassword password := "hashed " ++ password

/-- Three operators create the same tenant. -/
def operators : ℕ → Request := fun _ => ⟨"acme", ⟨"admin@acme.com", "ACME", "secret"⟩⟩

/-- The migration of the first call fails while the second one finds its database; the third one comes after the
drop. -/
def attempts : List (Event ℕ) :=
  [.next 0 0, .next 1 0, .next 0 0, .next 0 0, .next 0 0, .next 1 0, .next 0 3, .next 2 0, .next 0 0, .next 2 0,
    .next 2 0, .next 2 0, .next 2 0, .next 2 0, .next 2 0]

def server : String → Option (Content ℕ) := fun name => if name = "totem" then some ⟨[], [], [], 7⟩ else none

theorem create_all_or_nothing_sample : ∃ s : State ℕ ℕ,
    (s.points 0 = .over .tenantCreationFailed ∧ s.points 1 = .over .databaseExists ∧ s.points 2 = .over .created) ∧
      s.databases "totem" = some ⟨[], [], [], 7⟩ ∧ (∃ c, s.databases "acme" = some c) := by
  have hruns : (attempts.foldlM (step ⟨"totem", []⟩ flaky operators) (start server)).any (fun s =>
      decide (s.points 0 = .over .tenantCreationFailed ∧ s.points 1 = .over .databaseExists ∧
        s.points 2 = .over .created)) = true := by decide +kernel
  obtain ⟨s, hs, hpoints⟩ := (Option.any_eq_true ..).mp hruns
  have hpoints := of_decide_eq_true hpoints
  have h := create_all_or_nothing (Run.of_foldlM hs)
  refine ⟨s, hpoints, h.1 "totem" _ rfl, ?_⟩
  obtain ⟨-, -, c, -, -, hc⟩ := h.2.1 2 hpoints.2.2
  exact ⟨c, hc⟩

end Sample

end Totem.Tenancy.Creation
