import Totem.Lib.Fallible
import Mathlib.Logic.Function.Basic

/-!
# Totem.Tenancy.Database — the database behind the `default` alias

* `validateDatabaseName`, `currentDatabase`: the names, and the database of a unit of work.
* `getItem`: `connections["default"]`, resolved at each use.
* `checkSwitch`: what `use_database` does before it selects a database.

The connections are Django's: a `Backend` stands for them, with the atomic blocks open on each.
-/

namespace Totem.Tenancy

/-- The errors of this code, those of Django and of the database, and those of the program. -/
inductive Error
  | databaseName
  | databaseSwitch
  | connectionDoesNotExist
  | backend (code : ℕ)
  | raised (code : ℕ)
  deriving DecidableEq

/-! ## Names -/

def isNameStart (c : Char) : Bool := c == '_' || ('a' ≤ c && c ≤ 'z')

def isNameChar (c : Char) : Bool := isNameStart c || ('0' ≤ c && c ≤ '9')

/-- `[a-z0-9_]{0,62}$`: the `$` matches before a final newline too. -/
def matchesTail (rest : List Char) : Bool :=
  let body := if rest.getLast? = some '\n' then rest.dropLast else rest
  body.length ≤ 62 && body.all isNameChar

/-- `DATABASE_NAME_RE.match`. -/
def matchesName (name : String) : Bool :=
  match name.toList with
  | [] => false
  | c :: rest => isNameStart c && matchesTail rest

theorem mem_of_matchesTail {rest : List Char} (h : matchesTail rest = true) {c : Char} (hc : c ∈ rest) :
    isNameChar c = true ∨ c = '\n' := by
  unfold matchesTail at h
  dsimp only at h
  rw [Bool.and_eq_true, List.all_eq_true] at h
  split_ifs at h with hlast
  · obtain ⟨body, rfl⟩ := List.getLast?_eq_some_iff.mp hlast
    rw [List.dropLast_concat] at h
    rcases List.mem_append.mp hc with hc | hc
    · exact .inl (h.2 c hc)
    · exact .inr (List.mem_singleton.mp hc)
  · exact .inl (h.2 c hc)

/-- The characters of a database name. -/
theorem mem_of_matchesName {name : String} (h : matchesName name = true) {c : Char} (hc : c ∈ name.toList) :
    isNameChar c = true ∨ c = '\n' := by
  unfold matchesName at h
  cases hname : name.toList with
  | nil =>
    rw [hname] at hc
    exact absurd hc List.not_mem_nil
  | cons first rest =>
    rw [hname] at h hc
    simp only [Bool.and_eq_true] at h
    rcases List.mem_cons.mp hc with rfl | hc
    · exact .inl (by simp [isNameChar, h.1])
    · exact mem_of_matchesTail h.2 hc

/-! ## Settings -/

/-- `settings.DATABASES`: the `NAME` of the `default` entry, and the other static aliases with theirs. -/
structure Settings where
  default : String
  others : List (String × String)

def defaultAlias : String := "default"

def saasAlias : String := "saas_base"

namespace Settings

def static (S : Settings) : List (String × String) := (defaultAlias, S.default) :: S.others

def aliases (S : Settings) : List String := S.static.map Prod.fst

/-- A name for a tenant database: it matches, and it is no static alias. -/
def Accepts (S : Settings) (name : String) : Prop := matchesName name = true ∧ name ∉ S.aliases

instance (S : Settings) : DecidablePred S.Accepts := fun _ => inferInstanceAs (Decidable (_ ∧ _))

def DatabaseName (S : Settings) : Type := { name : String // S.Accepts name }

instance (S : Settings) : DecidableEq S.DatabaseName := inferInstanceAs (DecidableEq (Subtype _))

end Settings

/-! ## Connections -/

/-- The connections of Django, and what its `Atomic` does with them.  The number tells when: what the
database answers may differ from one time to the next. -/
structure Backend (C : Type*) where
  create : String → C
  inAtomicBlock : C → Bool
  /-- How many atomic blocks are open on the connection. -/
  atomicBlocks : C → ℕ
  enter : ℕ → C → C × Option ℕ
  exit : ℕ → Bool → C → C × Option ℕ
  execute : ℕ → C → C × Option ℕ

/-- What is documented of `Atomic`: a block is open on the connection from its entry, unless that fails, to
its exit, even if that fails; and the connection is in an atomic block as long as one is open. -/
structure Backend.Lawful {C : Type*} (B : Backend C) : Prop where
  create : ∀ name, B.atomicBlocks (B.create name) = 0
  enter : ∀ time c, (B.enter time c).2 = none → B.atomicBlocks (B.enter time c).1 = B.atomicBlocks c + 1
  enter_failed : ∀ time c, (B.enter time c).2 ≠ none → B.atomicBlocks (B.enter time c).1 = B.atomicBlocks c
  exit : ∀ time raised c, B.atomicBlocks (B.exit time raised c).1 = B.atomicBlocks c - 1
  execute : ∀ time c, B.atomicBlocks (B.execute time c).1 = B.atomicBlocks c
  inAtomicBlock : ∀ c, 0 < B.atomicBlocks c → B.inAtomicBlock c = true

/-- The context variable, the aliases added for a database, and the connections made so far. -/
structure State (S : Settings) (C : Type*) where
  selected : Option S.DatabaseName
  tenants : List S.DatabaseName
  connections : String → Option C
  time : ℕ

namespace State

variable {S : Settings} {C : Type*}

/-- The keys of `settings.DATABASES`, with the aliases added to them. -/
def aliases (s : State S C) : List String := S.aliases ++ s.tenants.map Subtype.val

/-- `settings.DATABASES[alias]["NAME"]`. -/
def nameOf (s : State S C) (dbAlias : String) : Option String :=
  (S.static ++ (s.tenants.map Subtype.val).map fun name => (name, name)).lookup dbAlias

/-- `selected_database`. -/
def selectedDatabase (s : State S C) : Option String := s.selected.map Subtype.val

/-- `current_database`; a name that is selected is not empty. -/
def currentDatabase (s : State S C) : String := s.selectedDatabase.getD S.default

/-- `_resolve`. -/
def resolve (s : State S C) (dbAlias : String) : String :=
  if dbAlias = defaultAlias then s.currentDatabase else dbAlias

/-- `get_initialized`. -/
def getInitialized (s : State S C) (dbAlias : String) : Option C := s.connections (s.resolve dbAlias)

/-- `_add_database`, for an alias that is not in the settings. -/
def addDatabase (s : State S C) (name : String) (h : name ∉ s.aliases) : Except Error (State S C) :=
  if hname : matchesName name = true ∧ name ≠ defaultAlias ∧ name ≠ saasAlias then
    .ok { s with tenants := s.tenants ++ [⟨name, hname.1, fun hs => h (List.mem_append_left _ hs)⟩] }
  else .error .connectionDoesNotExist

/-- The connection of an alias, as it is now. -/
def setConnection (s : State S C) (dbAlias : String) (conn : C) : State S C :=
  { s with connections := Function.update s.connections dbAlias (some conn) }

/-- The settings, with the alias in them. -/
def withAlias (s : State S C) (dbAlias : String) : Except Error (State S C) :=
  if h : dbAlias ∈ s.aliases then .ok s else s.addDatabase dbAlias h

/-- `connections["default"]`: the alias it stands for and its connection, made on its first use. -/
def getItem (B : Backend C) (s : State S C) : Except Error (State S C × String × C) := do
  let dbAlias := s.currentDatabase
  let s ← s.withAlias dbAlias
  let conn := (s.connections dbAlias).getD (B.create dbAlias)
  return (s.setConnection dbAlias conn, dbAlias, conn)

/-- The connection of an alias after an operation on it. -/
def operated (s : State S C) (dbAlias : String) (conn : C) : State S C :=
  { s.setConnection dbAlias conn with time := s.time + 1 }

/-- `validate_database_name`. -/
def validateDatabaseName (s : State S C) (name : String) : Except Error S.DatabaseName :=
  if hname : matchesName name = true then
    if h : name ∈ s.aliases ∧ name ∉ s.tenants.map Subtype.val then .error .databaseName
    else .ok ⟨name, hname, fun hs => h ⟨List.mem_append_left _ hs, fun ht => by
      obtain ⟨db, -, rfl⟩ := List.mem_map.mp ht
      exact db.2.2 hs⟩⟩
  else .error .databaseName

/-- `use_database`, up to the selection: the name is checked, then the transaction on the current
connection. -/
def checkSwitch (B : Backend C) (s : State S C) (name : String) : Except Error S.DatabaseName := do
  let db ← s.validateDatabaseName name
  if name ≠ s.currentDatabase ∧ (s.getInitialized s.currentDatabase).any B.inAtomicBlock = true then
    .error .databaseSwitch
  else .ok db

end State

/-! ## What each operation does -/

section Spec

variable {S : Settings} {C : Type*} {B : Backend C} {s s' : State S C} {name dbAlias : String} {conn : C}

/-- The atomic blocks open on the connection of an alias. -/
def State.blocksOn (B : Backend C) (s : State S C) (dbAlias : String) : ℕ :=
  (s.connections dbAlias).elim 0 B.atomicBlocks

/-- **The names that are accepted**; the aliases added for a database are not static. -/
theorem validateDatabaseName_eq : s.validateDatabaseName name =
    if h : S.Accepts name then .ok ⟨name, h⟩ else .error .databaseName := by
  have hmem : name ∈ s.aliases ∧ name ∉ s.tenants.map Subtype.val ↔ name ∈ S.aliases := by
    unfold State.aliases
    rw [List.mem_append]
    constructor
    · rintro ⟨h | h, hnot⟩
      · exact h
      · exact absurd h hnot
    · intro h
      refine ⟨.inl h, fun ht => ?_⟩
      obtain ⟨db, -, rfl⟩ := List.mem_map.mp ht
      exact db.2.2 h
  unfold State.validateDatabaseName
  by_cases hname : matchesName name = true
  · by_cases hstatic : name ∈ S.aliases
    · rw [dif_pos hname, dif_pos (hmem.mpr hstatic), dif_neg fun h => h.2 hstatic]
    · rw [dif_pos hname, dif_neg fun h => hstatic (hmem.mp h), dif_pos ⟨hname, hstatic⟩]
  · rw [dif_neg hname, dif_neg fun h => hname h.1]

@[simp] theorem selected_setConnection : (s.setConnection dbAlias conn).selected = s.selected := rfl

@[simp] theorem tenants_setConnection : (s.setConnection dbAlias conn).tenants = s.tenants := rfl

@[simp] theorem selected_operated : (s.operated dbAlias conn).selected = s.selected := rfl

@[simp] theorem tenants_operated : (s.operated dbAlias conn).tenants = s.tenants := rfl

theorem blocksOn_setConnection (a : String) : (s.setConnection dbAlias conn).blocksOn B a =
    if a = dbAlias then B.atomicBlocks conn else s.blocksOn B a := by
  unfold State.blocksOn State.setConnection
  by_cases ha : a = dbAlias
  · subst ha
    simp
  · simp [ha]

theorem blocksOn_operated (a : String) : (s.operated dbAlias conn).blocksOn B a =
    if a = dbAlias then B.atomicBlocks conn else s.blocksOn B a := blocksOn_setConnection a

theorem lookup_diagonal {names : List String} (h : name ∈ names) :
    (names.map fun name => (name, name)).lookup name = some name := by
  induction names with
  | nil => exact absurd h List.not_mem_nil
  | cons first names ih =>
    rw [List.map_cons, List.lookup_cons]
    by_cases heq : name = first
    · subst heq
      simp
    · have hbeq : (name == first) = false := by simp [heq]
      rw [hbeq]
      exact ih (List.mem_of_ne_of_mem heq h)

/-- The `NAME` of an alias added for a database. -/
theorem nameOf_tenant {db : S.DatabaseName} (h : db ∈ s.tenants) : s.nameOf db.1 = some db.1 := by
  have hstatic : S.static.lookup db.1 = none := by
    rw [List.lookup_eq_none_iff]
    intro entry hentry
    have hne : db.1 ≠ entry.1 := by
      intro heq
      exact db.2.2 (heq ▸ List.mem_map_of_mem hentry)
    simpa using hne
  unfold State.nameOf
  rw [List.lookup_append, hstatic, Option.none_or]
  exact lookup_diagonal (List.mem_map_of_mem h)

/-- `_add_database` adds an alias that matches and is not reserved. -/
theorem addDatabase_spec {h : name ∉ s.aliases} (hadd : s.addDatabase name h = .ok s') :
    ∃ db : S.DatabaseName, db.1 = name ∧ s' = { s with tenants := s.tenants ++ [db] } := by
  unfold State.addDatabase at hadd
  split_ifs at hadd with hname
  · exact ⟨_, rfl, (Except.ok.inj hadd).symm⟩

/-- **One lookup of `default`**: the connection of the current database, and nothing else changes. -/
theorem getItem_spec (hB : B.Lawful) (h : s.getItem B = .ok (s', dbAlias, conn)) :
    dbAlias = s.currentDatabase ∧ s'.selected = s.selected ∧ s.tenants ⊆ s'.tenants ∧
      dbAlias ∈ s'.aliases ∧ B.atomicBlocks conn = s.blocksOn B dbAlias ∧
      ∀ a, s'.blocksOn B a = s.blocksOn B a := by
  have hmade : ∀ t : State S C, B.atomicBlocks ((t.connections s.currentDatabase).getD (B.create s.currentDatabase)) =
      t.blocksOn B s.currentDatabase := by
    intro t
    unfold State.blocksOn
    cases t.connections s.currentDatabase with
    | none => exact hB.create _
    | some c => rfl
  have hset : ∀ t : State S C, ∀ a, (t.setConnection s.currentDatabase
      ((t.connections s.currentDatabase).getD (B.create s.currentDatabase))).blocksOn B a = t.blocksOn B a := by
    intro t a
    rw [blocksOn_setConnection]
    split_ifs with ha
    · rw [hmade, ha]
    · rfl
  unfold State.getItem at h
  simp only [Lib.bind_eq_ok] at h
  obtain ⟨t, ht, h⟩ := h
  obtain ⟨rfl, rfl, rfl⟩ : t.setConnection s.currentDatabase
      ((t.connections s.currentDatabase).getD (B.create s.currentDatabase)) = s' ∧
      s.currentDatabase = dbAlias ∧ (t.connections s.currentDatabase).getD (B.create s.currentDatabase) = conn := by
    simpa [pure, Except.pure] using h
  unfold State.withAlias at ht
  split_ifs at ht with hmem
  · obtain rfl : s = t := Except.ok.inj ht
    exact ⟨rfl, rfl, List.Subset.refl _, hmem, hmade s, hset s⟩
  · obtain ⟨db, hdb, rfl⟩ := addDatabase_spec ht
    refine ⟨rfl, rfl, fun x hx => List.mem_append_left _ hx, ?_, hmade _, hset _⟩
    refine List.mem_append_right _ (List.mem_map.mpr ⟨db, ?_, hdb⟩)
    exact List.mem_append_right _ List.mem_cons_self

/-- Once the alias of the current database is there, the lookup does not fail. -/
theorem getItem_of_mem (h : s.currentDatabase ∈ s.aliases) :
    ∃ s' conn, s.getItem B = .ok (s', s.currentDatabase, conn) := by
  have halias : s.withAlias s.currentDatabase = .ok s := dif_pos h
  unfold State.getItem
  simp only [halias]
  exact ⟨_, _, rfl⟩

theorem mem_aliases_of_subset {a : String} (h : s.tenants ⊆ s'.tenants) (ha : a ∈ s.aliases) : a ∈ s'.aliases := by
  rcases List.mem_append.mp ha with ha | ha
  · exact List.mem_append_left _ ha
  · exact List.mem_append_right _ (List.map_subset _ h ha)

/-- An alias that a tenant may have is one of a tenant. -/
theorem nameOf_of_mem (db : S.DatabaseName) (h : db.1 ∈ s.aliases) : s.nameOf db.1 = some db.1 := by
  rcases List.mem_append.mp h with h | h
  · exact absurd h db.2.2
  · obtain ⟨db', hdb', heq⟩ := List.mem_map.mp h
    rw [← heq]
    exact nameOf_tenant hdb'

theorem getInitialized_current : s.getInitialized s.currentDatabase = s.connections s.currentDatabase := by
  unfold State.getInitialized State.resolve
  split_ifs <;> rfl

end Spec

end Totem.Tenancy
