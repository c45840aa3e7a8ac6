import Totem.Lib.Table
import Mathlib.Data.Finset.Option
import Mathlib.Data.Finset.Union
import Mathlib.Algebra.BigOperators.Group.Finset.Basic

/-!
# Totem.Computed.Schema — models, rows, and what a dependency path reads

The part of Django's model metadata and of the database that `core/orm/fields/computed` works on: any
models, with foreign keys (to primary keys, or to another column), many-to-many relations, generated
columns and stored computed fields.

* `next`, `follow`: the rows a relation, or a path of them, leads to.
* `Schema.lookup`: the rows that `filter(<path>__in=pks)` finds.
* `Schema.Crosses`: how far a dependency is read.
* `Schema.Agree`: two databases in which a dependency reads the same thing.
* `Schema.Consistent`: every stored computed field equals its compute function.
-/

namespace Totem.Computed

open Totem.Lib

/-! ## Rows -/

/-- A row: its columns, the rows its foreign keys refer to and its many-to-many relations. -/
structure Row (N K V : Type*) where
  col : N → V
  key : N → Option K
  many : N → Finset K

/-- One table a model. -/
abbrev Db (M N K V : Type*) := M → Table K (Row N K V)

/-- The rows the foreign key, or the many-to-many, `n` points to. -/
def Row.related {N K V : Type*} (row : Row N K V) (isKey : Bool) (n : N) : Finset K :=
  if isKey then (row.key n).toFinset else row.many n

/-! ## Models -/

/-- What happens to a row when the row its foreign key points to is deleted. -/
inductive OnDelete (K : Type*)
  | cascade
  | setNull
  | setDefault (value : Option K)
  | set (value : Option K)
  | protect
deriving DecidableEq

/-- A generated column reads its `inputs` outside the conditions of the `Case`s of its expression, and `conditions`
within them.  `toField` is the column a foreign key refers to, none for the primary key; `queryName` is `none` for a
hidden relation, whose `related_name` ends in `+`. -/
inductive Kind (M N K V : Type*)
  | column
  | generated (inputs conditions : List N) (value : List (V ⊕ Option K) → V)
  | computed (dependsOn : List (List N)) (prefetch : Bool)
  | foreignKey (target : M) (attname : N) (toField : Option N) (onDelete : OnDelete K) (queryName : Option N)
  | manyToMany (target : M) (queryName : Option N)

structure Field (M N K V : Type*) where
  name : N
  kind : Kind M N K V

section Field

variable {M N K V : Type*}

def Field.attname (f : Field M N K V) : N :=
  match f.kind with
  | .foreignKey _ attname _ _ _ => attname
  | _ => f.name

/-- The model a relation points to. -/
def Field.target (f : Field M N K V) : Option M :=
  match f.kind with
  | .foreignKey target _ _ _ _ => some target
  | .manyToMany target _ => some target
  | _ => none

def Field.isKey (f : Field M N K V) : Bool :=
  match f.kind with
  | .foreignKey _ _ _ _ _ => true
  | _ => false

/-- The column other than the primary key that a foreign key refers to. -/
def Field.toField (f : Field M N K V) : Option N :=
  match f.kind with
  | .foreignKey _ _ toField _ _ => toField
  | _ => none

def Field.onDelete (f : Field M N K V) : Option (OnDelete K) :=
  match f.kind with
  | .foreignKey _ _ _ onDelete _ => some onDelete
  | _ => none

/-- What a foreign key is set to when its row is deleted. -/
def Field.newKey (f : Field M N K V) : Option (Option K) :=
  match f.onDelete with
  | some .setNull => some none
  | some (.setDefault value) => some value
  | some (.set value) => some value
  | _ => none

/-- The name of the relation on the other side. -/
def Field.queryName (f : Field M N K V) : Option N :=
  match f.kind with
  | .foreignKey _ _ _ _ queryName => queryName
  | .manyToMany _ queryName => queryName
  | _ => none

/-- The `depends_on` of a stored computed field. -/
def Field.dependsOn (f : Field M N K V) : Option (List (List N)) :=
  match f.kind with
  | .computed dependsOn _ => some dependsOn
  | _ => none

/-- The names that the expression of a generated column refers to outside the conditions. -/
def Field.inputs (f : Field M N K V) : List N :=
  match f.kind with
  | .generated inputs _ _ => inputs
  | _ => []

/-- What the conditions in the expression of a generated column read. -/
def Field.conditions (f : Field M N K V) : List N :=
  match f.kind with
  | .generated _ conditions _ => conditions
  | _ => []

variable [DecidableEq N]

/-- `_field_names`: the names under which a write of `f` shows up.  `_referenced_names` does not descend into
the conditions of a generated column. -/
def Field.names (f : Field M N K V) : Finset N :=
  match f.kind with
  | .generated inputs _ _ => insert f.name inputs.toFinset
  | _ => {f.name, f.attname}

theorem Field.name_mem (f : Field M N K V) : f.name ∈ f.names := by
  unfold Field.names
  split <;> simp

theorem Field.attname_mem (f : Field M N K V) : f.attname ∈ f.names := by
  unfold Field.names Field.attname
  split <;> simp_all

theorem Field.inputs_subset {f : Field M N K V} {n : N} (h : f.name = n ∨ n ∈ f.inputs) : n ∈ f.names := by
  rcases h with rfl | h
  · exact f.name_mem
  · cases hkind : f.kind with
    | generated inputs conditions value =>
      have hn : n ∈ inputs := by simpa [Field.inputs, hkind] using h
      simp [Field.names, hkind, hn]
    | _ => simp [Field.inputs, hkind] at h

/-- A column is written under its name, or that of an input. -/
theorem Field.reads_of_mem_names {f : Field M N K V} {n : N} (htarget : f.target = none) (h : n ∈ f.names) :
    f.name = n ∨ n ∈ f.inputs := by
  cases hkind : f.kind with
  | generated inputs conditions value => simpa [Field.names, Field.inputs, hkind, eq_comm (a := n)] using h
  | foreignKey target attname toField onDelete queryName => simp [Field.target, hkind] at htarget
  | manyToMany target queryName => simp [Field.target, hkind] at htarget
  | _ => exact .inl (by simpa [Field.names, Field.attname, hkind, eq_comm (a := n)] using h)

end Field

/-- The installed models.  `compute` is the value of a stored computed field on a row, from its
`annotation_method` or its `prefetch_method`; `equals` tells whether a column of a model holds what a lookup makes of
a primary key when it compares the two. -/
structure Schema (M N K V : Type*) where
  models : List M
  fields : M → List (Field M N K V)
  maxHops : ℕ
  compute : M → N → Db M N K V → K → V
  equals : M → N → V ⊕ Option K → K → Bool
  mem_models : ∀ m, m ∈ models
  names_nodup : ∀ m, ((fields m).map Field.name).Nodup

/-- What `get_field` finds: a field of the model, or a relation declared on another one. -/
inductive Lookup (M N K V : Type*)
  | own (f : Field M N K V)
  | reverse (model : M) (f : Field M N K V)

/-- One relation crossed by a path: declared where it is crossed from, or on the model it leads to. -/
inductive Hop (M N : Type*)
  | forward (isKey : Bool) (field : N) (target : M)
  | reverse (isKey : Bool) (model : M) (field : N)
deriving DecidableEq

def Hop.target {M N : Type*} : Hop M N → M
  | .forward _ _ target => target
  | .reverse _ model _ => model

def Lookup.field {M N K V : Type*} : Lookup M N K V → Field M N K V
  | .own f => f
  | .reverse _ f => f

/-- The relation found, unless it is a column. -/
def Lookup.hop {M N K V : Type*} : Lookup M N K V → Option (Hop M N)
  | .own f => f.target.map (.forward f.isKey f.name)
  | .reverse model f => some (.reverse f.isKey model f.name)

section Schema

variable {M N K V : Type*} [DecidableEq M] [DecidableEq N]

/-- A model and a field name are compared together. -/
instance lawfulFieldKey : LawfulBEq (M × N) := inferInstance

/-- A field of the model, by name or by attname. -/
def Schema.ownField (S : Schema M N K V) (m : M) (name : N) : Option (Field M N K V) :=
  (S.fields m).find? fun f => decide (f.name = name ∨ f.attname = name)

/-- `model._meta.get_field(name)`. -/
def Schema.getField (S : Schema M N K V) (m : M) (name : N) : Option (Lookup M N K V) :=
  match S.ownField m name with
  | some f => some (.own f)
  | none =>
    S.models.findSome? fun m' =>
      ((S.fields m').find? fun f => decide (f.target = some m ∧ f.queryName = some name)).map
        (.reverse m')

/-- The stored computed fields, with their dependencies. -/
def Schema.stored (S : Schema M N K V) (m : M) : List (N × List (List N)) :=
  (S.fields m).filterMap fun f => f.dependsOn.map fun deps => (f.name, deps)

def Schema.isStored (S : Schema M N K V) (m : M) (n : N) : Bool :=
  (S.stored m).any fun x => decide (x.1 = n)

variable {S : Schema M N K V} {m : M} {n : N}

omit [DecidableEq M] in
theorem Schema.ownField_mem {f : Field M N K V} (h : S.ownField m n = some f) : f ∈ S.fields m :=
  List.mem_of_find?_eq_some h

omit [DecidableEq M] in
/-- Only a foreign key has another name. -/
theorem Schema.ownField_name {f : Field M N K V} (h : S.ownField m n = some f) (hf : f.isKey = false) :
    f.name = n := by
  have hname := List.find?_some h
  simp only [decide_eq_true_eq] at hname
  rcases hname with hname | hname
  · exact hname
  · unfold Field.attname at hname
    unfold Field.isKey at hf
    split at hname <;> simp_all

/-- Where the field of a lookup is declared. -/
theorem Schema.getField_mem {l : Lookup M N K V} (h : S.getField m n = some l) :
    match l with
    | .own f => f ∈ S.fields m
    | .reverse m' f => f ∈ S.fields m' ∧ f.target = some m := by
  unfold getField at h
  split at h
  · rename_i f hf
    obtain rfl := Option.some.inj h
    exact ownField_mem hf
  · obtain ⟨m', -, hm'⟩ := List.exists_of_findSome?_eq_some h
    obtain ⟨f, hf, rfl⟩ := Option.map_eq_some_iff.mp hm'
    have htarget := List.find?_some hf
    simp only [decide_eq_true_eq] at htarget
    exact ⟨List.mem_of_find?_eq_some hf, htarget.1⟩

omit [DecidableEq M] [DecidableEq N] in
theorem Schema.field_unique {f g : Field M N K V} (hf : f ∈ S.fields m) (hg : g ∈ S.fields m)
    (h : f.name = g.name) : f = g :=
  List.inj_on_of_nodup_map (S.names_nodup m) hf hg h

omit [DecidableEq M] in
theorem Schema.isStored_iff : S.isStored m n = true ↔ ∃ deps, (n, deps) ∈ S.stored m := by
  simp [isStored]

end Schema

/-! ## What a path reads -/

section Paths

variable {M N K V : Type*} [DecidableEq K]

/-- The rows one relation leads to from the row `x` of `m`. -/
def next (db : Db M N K V) (m : M) (h : Hop M N) (x : K) : Finset K :=
  match h with
  | .forward isKey f target =>
    (((db m).get x).elim ∅ fun row => row.related isKey f) ∩ (db target).keys
  | .reverse isKey model f => (db model).find fun _ row => decide (x ∈ row.related isKey f)

/-- The rows a path leads to from the rows `s` of `m`. -/
def follow (db : Db M N K V) : M → List (Hop M N) → Finset K → Finset K
  | _, [], s => s
  | m, h :: path, s => follow db h.target path (s.biUnion (next db m h))

/-- The path leads from the row `r` of `m₀` to the row `x` of `m`. -/
inductive Reaches (db : Db M N K V) (m₀ : M) (r : K) : List (Hop M N) → M → K → Prop
  | nil : Reaches db m₀ r [] m₀ r
  | concat {path : List (Hop M N)} {m : M} {x y : K} {h : Hop M N} (hx : Reaches db m₀ r path m x)
      (hy : y ∈ next db m h x) : Reaches db m₀ r (path ++ [h]) h.target y

theorem mem_next_forward {db : Db M N K V} {m target : M} {isKey : Bool} {f : N} {x y : K} :
    y ∈ next db m (.forward isKey f target) x ↔
      (∃ row, (db m).get x = some row ∧ y ∈ row.related isKey f) ∧
        ∃ row, (db target).get y = some row := by
  simp only [next, Finset.mem_inter, Table.mem_keys_iff]
  cases (db m).get x <;> simp

theorem mem_next_reverse {db : Db M N K V} {m model : M} {isKey : Bool} {f : N} {x y : K} :
    y ∈ next db m (.reverse isKey model f) x ↔
      ∃ row, (db model).get y = some row ∧ x ∈ row.related isKey f := by
  simp [next, Table.mem_find]

/-- A path leads to rows of the table. -/
theorem exists_of_mem_next {db : Db M N K V} {m : M} {h : Hop M N} {x y : K} (hy : y ∈ next db m h x) :
    ∃ row, (db h.target).get y = some row := by
  cases h with
  | forward isKey f target => exact (mem_next_forward.mp hy).2
  | reverse isKey model f =>
    obtain ⟨row, hrow, -⟩ := mem_next_reverse.mp hy
    exact ⟨row, hrow⟩

theorem follow_concat (db : Db M N K V) (m : M) (path : List (Hop M N)) (h : Hop M N) (s : Finset K) :
    follow db m (path ++ [h]) s =
      (follow db m path s).biUnion (next db (path.getLast?.elim m Hop.target) h) := by
  induction path generalizing m s with
  | nil => rfl
  | cons h' path ih =>
    rw [List.cons_append, follow, ih, follow, List.getLast?_cons]
    cases path.getLast? <;> rfl

theorem Reaches.model_eq {db : Db M N K V} {m₀ m : M} {r x : K} {path : List (Hop M N)}
    (h : Reaches db m₀ r path m x) : m = path.getLast?.elim m₀ Hop.target := by
  cases h with
  | nil => rfl
  | concat _ _ => simp

theorem Reaches.of_concat {db : Db M N K V} {m₀ m : M} {r y : K} {path : List (Hop M N)} {h : Hop M N}
    (hy : Reaches db m₀ r (path ++ [h]) m y) :
    m = h.target ∧ ∃ x, Reaches db m₀ r path (path.getLast?.elim m₀ Hop.target) x ∧
      y ∈ next db (path.getLast?.elim m₀ Hop.target) h x := by
  generalize hp : path ++ [h] = path' at hy
  cases hy with
  | nil => simp at hp
  | @concat path' m x _ h' hx hy =>
    obtain ⟨rfl, hh⟩ := List.append_inj' hp rfl
    obtain rfl := List.singleton_inj.mp hh
    exact ⟨rfl, x, hx.model_eq ▸ hx, hx.model_eq ▸ hy⟩

/-- **The rows a lookup reaches.** -/
theorem mem_follow {db : Db M N K V} {m₀ : M} {r x : K} {path : List (Hop M N)} :
    x ∈ follow db m₀ path {r} ↔ ∃ m, Reaches db m₀ r path m x := by
  induction path using List.reverseRecOn generalizing x with
  | nil =>
    rw [follow, Finset.mem_singleton]
    constructor
    · rintro rfl
      exact ⟨m₀, .nil⟩
    · rintro ⟨m, h⟩
      generalize hp : ([] : List (Hop M N)) = path at h
      cases h with
      | nil => rfl
      | concat _ _ => simp at hp
  | append_singleton path h ih =>
    simp only [follow_concat, Finset.mem_biUnion]
    constructor
    · rintro ⟨y, hy, hx⟩
      obtain ⟨m, hm⟩ := ih.mp hy
      exact ⟨h.target, .concat hm (hm.model_eq ▸ hx)⟩
    · rintro ⟨m, hm⟩
      obtain ⟨-, y, hy, hx⟩ := hm.of_concat
      exact ⟨y, ih.mpr ⟨_, hy⟩, hx⟩

/-- A sum over the rows a relation leads to reads the relation, and what is summed. -/
theorem sum_next_congr {α : Type*} [AddCommMonoid α] {db db' : Db M N K V} {m : M} {h : Hop M N} {k : K}
    {g : Row N K V → α} (hnext : next db m h k = next db' m h k)
    (hrows : ∀ y ∈ next db m h k,
      ((db h.target).get y).map g = ((db' h.target).get y).map g) :
    ∑ y ∈ next db m h k, ((db h.target).get y).elim 0 g =
      ∑ y ∈ next db' m h k, ((db' h.target).get y).elim 0 g := by
  rw [← hnext]
  apply Finset.sum_congr rfl
  intro y hy
  have hrow := hrows y hy
  cases hy : (db h.target).get y with
  | none =>
    rw [hy, Option.map_none, eq_comm, Option.map_eq_none_iff] at hrow
    rw [hrow]
  | some row =>
    rw [hy, Option.map_some, eq_comm, Option.map_eq_some_iff] at hrow
    obtain ⟨row', hrow', heq⟩ := hrow
    rw [hrow', Option.elim_some, Option.elim_some, heq]

end Paths

/-! ## What a dependency reads -/

section Reads

variable {M N K V : Type*} [DecidableEq M] [DecidableEq N] [DecidableEq K]

/-- What the expression of a generated column reads under a name. -/
def Schema.cell (S : Schema M N K V) (m : M) (row : Row N K V) (name : N) : V ⊕ Option K :=
  match S.ownField m name with
  | some f => if f.isKey then .inr (row.key f.name) else .inl (row.col f.name)
  | none => .inl (row.col name)

/-- The value of a column. -/
def Schema.value (S : Schema M N K V) (m : M) (f : Field M N K V) (row : Row N K V) : V :=
  match f.kind with
  | .generated inputs conditions value => value ((inputs ++ conditions).map (S.cell m row))
  | _ => row.col f.name

omit [DecidableEq M] [DecidableEq K] in
theorem Schema.cell_congr {S : Schema M N K V} {m : M} {row row' : Row N K V} {n : N}
    (hkey : ∀ g, S.ownField m n = some g → g.isKey = true → row.key g.name = row'.key g.name)
    (hcol : row.col n = row'.col n) : S.cell m row n = S.cell m row' n := by
  unfold Schema.cell
  split
  · rename_i g hg
    split_ifs with hgkey
    · rw [hkey g hg hgkey]
    · rw [Schema.ownField_name hg (by simpa using hgkey), hcol]
  · rw [hcol]

omit [DecidableEq M] [DecidableEq K] in
/-- A column is a function of what its expression reads. -/
theorem Schema.value_congr {S : Schema M N K V} {m : M} {f : Field M N K V} {row row' : Row N K V}
    (hcol : row.col f.name = row'.col f.name)
    (hcell : ∀ n ∈ f.inputs ++ f.conditions, S.cell m row n = S.cell m row' n) :
    S.value m f row = S.value m f row' := by
  unfold Schema.value
  split
  · rename_i inputs conditions value hkind
    rw [Field.inputs, Field.conditions, hkind] at hcell
    exact congrArg value (List.map_congr_left hcell)
  · exact hcol

/-- What a row holds in a column. -/
def Schema.held (S : Schema M N K V) (m : M) (n : N) (row : Row N K V) : V ⊕ Option K :=
  match S.ownField m n with
  | some f => if f.isKey then .inr (row.key f.name) else .inl (S.value m f row)
  | none => .inl (row.col n)

/-- The column that a lookup over a path compares with primary keys, where it is not the primary key itself: when the
last relation is a foreign key crossed forward, Django compares the key, without a join. -/
def Schema.endColumn (S : Schema M N K V) (m : M) (path : List (Hop M N)) : Option (M × N) :=
  match path.getLast? with
  | some (.forward true n target) =>
    (((S.fields (path.dropLast.getLast?.elim m Hop.target)).find? fun f => decide (f.name = n)).bind
      Field.toField).map (Prod.mk target)
  | _ => none

/-- Whether a lookup over a path that leads to the row `y` takes it for the one of the primary key `pk`. -/
def Schema.compares (S : Schema M N K V) (db : Db M N K V) (m : M) (path : List (Hop M N)) (y pk : K) : Bool :=
  match S.endColumn m path with
  | none => decide (y = pk)
  | some (target, n) => ((db target).get y).any fun row => S.equals target n (S.held target n row) pk

/-- `filter(<path>__in=pks)`. -/
def Schema.lookup (S : Schema M N K V) (db : Db M N K V) (m : M) (path : List (Hop M N)) (pks : Finset K) : Finset K :=
  (db m).find fun r _ => decide (∃ y ∈ follow db m path {r}, ∃ pk ∈ pks, S.compares db m path y pk = true)

/-- Foreign keys refer to primary keys. -/
def Schema.PrimaryKeys (S : Schema M N K V) : Prop := ∀ m, ∀ f ∈ S.fields m, f.toField = none

/-- The dependency `dep` of `m` crosses the relations `path`, to the model `m'`; then `rest` of it is left. -/
inductive Schema.Crosses (S : Schema M N K V) (m : M) (dep : List N) : List (Hop M N) → M → List N → Prop
  | start : S.Crosses m dep [] m dep
  | hop {path : List (Hop M N)} {m' : M} {name : N} {rest : List N} {l : Lookup M N K V} {h : Hop M N}
      (hx : S.Crosses m dep path m' (name :: rest)) (hl : S.getField m' name = some l) (hhop : l.hop = some h) :
      S.Crosses m dep (path ++ [h]) h.target rest

/-- A dependency of the stored field `root` crosses the relations `path`, to the model `m`. -/
def Schema.Crossed (S : Schema M N K V) (root : M × N) (path : List (Hop M N)) (m : M) : Prop :=
  ∃ deps, (root.2, deps) ∈ S.stored root.1 ∧ ∃ dep ∈ deps, ∃ rest, S.Crosses root.1 dep path m rest

/-- A dependency of the stored field `root` crosses the relations `path`, and ends on the column `f` of `m`. -/
def Schema.EndsOn (S : Schema M N K V) (root : M × N) (path : List (Hop M N)) (m : M) (f : Field M N K V) : Prop :=
  ∃ deps, (root.2, deps) ∈ S.stored root.1 ∧ ∃ dep ∈ deps, ∃ name, S.Crosses root.1 dep path m [name] ∧
    S.getField m name = some (.own f) ∧ f.target = none

/-- Two databases in which the dependency `dep` leads from the row `x` of `m` to the same rows, with the
same value of its last field on them. -/
def Schema.Agree (S : Schema M N K V) (db db' : Db M N K V) (m : M) (x : K) : List N → Prop
  | [] => True
  | name :: dep =>
    match S.getField m name with
    | none => True
    | some l =>
      match l.hop with
      | none => ((db m).get x).map (S.value m l.field) = ((db' m).get x).map (S.value m l.field)
      | some h => next db m h x = next db' m h x ∧
          ∀ y ∈ next db m h x, S.Agree db db' h.target y dep

/-- The compute functions read nothing but what their dependencies reach. -/
def Schema.ReadsOnly (S : Schema M N K V) : Prop :=
  ∀ m n deps, (n, deps) ∈ S.stored m → ∀ (db db' : Db M N K V) (k : K),
    (db m).get k ≠ none → (db' m).get k ≠ none → (∀ dep ∈ deps, S.Agree db db' m k dep) →
    S.compute m n db k = S.compute m n db' k

/-- The rows, their keys and relations, and the columns that are not stored computed fields. -/
structure Refreshed (S : Schema M N K V) (db db' : Db M N K V) : Prop where
  gone : ∀ m k, (db m).get k = none → (db' m).get k = none
  rows : ∀ m k row, (db m).get k = some row → ∃ row', (db' m).get k = some row' ∧ row'.key = row.key ∧
    row'.many = row.many ∧ ∀ n, S.isStored m n = false → row'.col n = row.col n

/-- The compute functions read no stored computed field but what their dependencies reach. -/
def Schema.ReadsStored (S : Schema M N K V) : Prop :=
  ∀ m n deps, (n, deps) ∈ S.stored m → ∀ (db db' : Db M N K V) (k : K), Refreshed S db db' →
    (db m).get k ≠ none → (∀ dep ∈ deps, S.Agree db db' m k dep) → S.compute m n db k = S.compute m n db' k

/-- The inputs of generated columns are plain columns: no foreign keys, and no stored computed field that only a
condition reads. -/
structure Schema.PlainInputs (S : Schema M N K V) : Prop where
  columns : ∀ m, ∀ f ∈ S.fields m, ∀ n ∈ f.inputs ++ f.conditions, ∀ g, S.ownField m n = some g → g.isKey = false
  conditions : ∀ m, ∀ f ∈ S.fields m, ∀ n ∈ f.conditions, S.isStored m n = true → n ∈ f.inputs

/-- A refresh is followed to the fields that read what it writes: a generated column that a dependency ends on names
the stored fields it reads, outside its conditions; and where a dependency ends on a stored field, or on a column
generated from one, a lookup over its path tells the rows that the path leads to by their primary keys, whatever is in
the stored fields. -/
structure Schema.Follows (S : Schema M N K V) (db : Db M N K V) : Prop where
  named : ∀ root path m f, S.EndsOn root path m f → ∀ n ∈ f.conditions, S.isStored m n = true → n ∈ f.inputs
  held : ∀ root path m f, S.EndsOn root path m f →
    (∃ n, S.isStored m n = true ∧ (f.name = n ∨ n ∈ f.inputs)) → ∀ db', Refreshed S db db' → ∀ r x,
      Reaches db' root.1 r path m x → S.compares db' root.1 path x x = true

/-- Every stored computed field equals its compute function, `pending` apart. -/
def Schema.ConsistentBut (S : Schema M N K V) (pending : M × N → Finset K) (db : Db M N K V) : Prop :=
  ∀ m n deps, (n, deps) ∈ S.stored m → ∀ k row, (db m).get k = some row → k ∉ pending (m, n) →
    row.col n = S.compute m n db k

/-- Every stored computed field of every row equals its compute function. -/
def Schema.Consistent (S : Schema M N K V) (db : Db M N K V) : Prop :=
  ∀ m n deps, (n, deps) ∈ S.stored m → ∀ k row, (db m).get k = some row →
    row.col n = S.compute m n db k

variable {S : Schema M N K V} {db db' db'' : Db M N K V} {m : M} {path : List (Hop M N)} {k : K}

omit [DecidableEq M] [DecidableEq K] in
theorem Schema.PrimaryKeys.endColumn (h : S.PrimaryKeys) (m : M) (path : List (Hop M N)) :
    S.endColumn m path = none := by
  unfold Schema.endColumn
  split
  · rename_i n target _
    rw [Option.map_eq_none_iff, Option.bind_eq_none_iff]
    exact fun f hf => h _ f (List.mem_of_find?_eq_some hf)
  · rfl

omit [DecidableEq M] in
theorem Schema.compares_of_endColumn (h : S.endColumn m path = none) (db : Db M N K V) (y pk : K) :
    S.compares db m path y pk = decide (y = pk) := by
  unfold Schema.compares
  rw [h]

omit [DecidableEq M] in
theorem Schema.PrimaryKeys.compares (h : S.PrimaryKeys) (db : Db M N K V) (m : M) (path : List (Hop M N)) (y : K) :
    S.compares db m path y y = true := by
  rw [Schema.compares_of_endColumn (h.endColumn m path), decide_eq_true_eq]

omit [DecidableEq M] in
theorem Schema.mem_lookup {pks : Finset K} {r : K} : r ∈ S.lookup db m path pks ↔
    (db m).get r ≠ none ∧ ∃ y ∈ follow db m path {r}, ∃ pk ∈ pks, S.compares db m path y pk = true := by
  simp only [Schema.lookup, Table.mem_find, decide_eq_true_eq, exists_and_right, Option.ne_none_iff_exists']

omit [DecidableEq M] in
/-- A path that does not end on a key to another column is compared by primary keys. -/
theorem Schema.mem_lookup_of_endColumn (h : S.endColumn m path = none) {pks : Finset K} {r : K} :
    r ∈ S.lookup db m path pks ↔ (db m).get r ≠ none ∧ ∃ y ∈ follow db m path {r}, y ∈ pks := by
  simp only [Schema.mem_lookup, Schema.compares_of_endColumn h, decide_eq_true_eq, exists_eq_right']

omit [DecidableEq K] in
/-- The path of a dependency ends on the model that it leads to. -/
theorem Schema.Crosses.model_eq {dep rest : List N} {m' : M} (h : S.Crosses m dep path m' rest) :
    m' = path.getLast?.elim m Hop.target := by
  cases h with
  | start => rfl
  | hop _ _ _ => simp

omit [DecidableEq K] in
theorem Schema.EndsOn.mem {root : M × N} {f : Field M N K V} (h : S.EndsOn root path m f) : f ∈ S.fields m := by
  obtain ⟨-, -, -, -, name, -, hf, -⟩ := h
  exact S.getField_mem hf

omit [DecidableEq K] in
theorem Schema.EndsOn.target {root : M × N} {f : Field M N K V} (h : S.EndsOn root path m f) : f.target = none := by
  obtain ⟨-, -, -, -, -, -, -, htarget⟩ := h
  exact htarget

omit [DecidableEq M] [DecidableEq K] in
theorem Refreshed.refl (db : Db M N K V) : Refreshed S db db where
  gone := fun _ _ h => h
  rows := fun _ _ row h => ⟨row, h, rfl, rfl, fun _ _ => rfl⟩

omit [DecidableEq M] [DecidableEq K] in
theorem Refreshed.trans (h : Refreshed S db db') (h' : Refreshed S db' db'') : Refreshed S db db'' where
  gone := fun m k hk => h'.gone m k (h.gone m k hk)
  rows := by
    intro m k row hrow
    obtain ⟨row', hrow', hkey, hmany, hcol⟩ := h.rows m k row hrow
    obtain ⟨row'', hrow'', hkey', hmany', hcol'⟩ := h'.rows m k row' hrow'
    exact ⟨row'', hrow'', hkey'.trans hkey, hmany'.trans hmany,
      fun n hn => (hcol' n hn).trans (hcol n hn)⟩

omit [DecidableEq M] [DecidableEq K] in
/-- A row after the refresh, and the row it was. -/
theorem Refreshed.row_of (h : Refreshed S db db') {row' : Row N K V} (hrow' : (db' m).get k = some row') :
    ∃ row, (db m).get k = some row ∧ row'.key = row.key ∧ row'.many = row.many ∧
      ∀ n, S.isStored m n = false → row'.col n = row.col n := by
  cases hk : (db m).get k with
  | none =>
    rw [h.gone m k hk] at hrow'
    cases hrow'
  | some row =>
    obtain ⟨row'', hrow'', hsame⟩ := h.rows m k row hk
    obtain rfl := Option.some.inj (hrow''.symm.trans hrow')
    exact ⟨row, rfl, hsame⟩

omit [DecidableEq M] [DecidableEq K] in
theorem Refreshed.symm (h : Refreshed S db db') : Refreshed S db' db where
  gone := by
    intro m k hk
    by_contra hne
    obtain ⟨row, hrow⟩ := Option.ne_none_iff_exists'.mp hne
    obtain ⟨row', hrow', -⟩ := h.rows m k row hrow
    rw [hk] at hrow'
    cases hrow'
  rows := by
    intro m k row' hrow'
    obtain ⟨row, hrow, hkey, hmany, hcol⟩ := h.row_of hrow'
    exact ⟨row, hrow, hkey.symm, hmany.symm, fun n hn => (hcol n hn).symm⟩

omit [DecidableEq M] [DecidableEq K] in
theorem Refreshed.exists_row (h : Refreshed S db db') (hk : (db m).get k ≠ none) : (db' m).get k ≠ none :=
  fun hk' => hk (h.symm.gone m k hk')

theorem Schema.ReadsOnly.stored (h : S.ReadsOnly) : S.ReadsStored := fun m n deps hn db db' k hrefreshed hk hagree =>
  h m n deps hn db db' k hk (hrefreshed.exists_row hk) hagree

theorem Schema.Follows.refreshed (h : S.Follows db) (hrefreshed : Refreshed S db db') : S.Follows db' where
  named := h.named
  held root path m f hends hreads db'' hdb'' := h.held root path m f hends hreads db'' (hrefreshed.trans hdb'')

/-- **Where keys refer to primary keys and generated columns read plain columns**, every refresh is followed. -/
theorem Schema.Follows.of_plain (hplain : S.PlainInputs) (hprimary : S.PrimaryKeys) (db : Db M N K V) :
    S.Follows db where
  named _ _ m f hends := hplain.conditions m f hends.mem
  held root path _ _ _ _ db' _ _ x _ := hprimary.compares db' root.1 path x

end Reads

end Totem.Computed
