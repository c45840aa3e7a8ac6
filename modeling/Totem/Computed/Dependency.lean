import Totem.Computed.Schema
import Totem.Lib.Fallible

/-!
# Totem.Computed.Dependency — the registry of bindings

`core/orm/fields/computed/dependency.py`.  A `depends_on` path is parsed into bindings: which fields of
which watched model, and which rows of it appearing or disappearing, make the field stale, and on which
root rows.

* `build_has`: the registry has everything the dependencies watch.
* `build_depth`: a field is deeper than what it reads.
-/

namespace Totem.Computed

open Totem.Lib

/-! ## Bindings -/

/-- When these fields of the watched model change, or rows of it appear or disappear, the field of the
root model is stale on the rows that reach them through `path`; on the rows themselves when it is empty.
`fkAttname` is the key of the watched row that holds the root. -/
structure Binding (M N : Type*) where
  field : M × N
  watched : M
  path : List (Hop M N)
  triggers : Finset N
  membership : Finset N
  onExistence : Bool
  fkAttname : Option N

def Binding.isLocal {M N : Type*} (b : Binding M N) : Bool := b.path.isEmpty

/-- What a deletion of rows of a model can change through `on_delete`, that is watched. -/
structure Cascade (M N : Type*) where
  deleted : Finset M
  nulled : Finset (M × N)

structure Registry (M N : Type*) where
  bindings : List (Binding M N)
  depth : M × N → Option ℕ
  cascades : M → Option (Cascade M N)

/-- What `ImproperlyConfigured` is raised for. -/
inductive RegistryError (M N : Type*)
  | notAField (root : M × N) (dep : List N) (name : N) (model : M)
  | notARelation (root : M × N) (dep : List N) (name : N)
  | tooManyHops (root : M × N) (dep : List N)
  | readsItself (field : M × N) (path : List (Hop M N))
  | cycle (field : M × N)

section Parse

variable {M N K V : Type*} [DecidableEq M] [DecidableEq N]

/-- What crossing one relation watches, from `path` on the model `m`. -/
def hopWatches (root : M × N) (m : M) (path : List (Hop M N)) :
    Lookup M N K V → Hop M N → List (Binding M N)
  | .own f, h =>
    [⟨root, m, path, f.names, ∅, false, none⟩,
      ⟨root, h.target, path ++ [h], ∅, ∅, true, none⟩]
  | .reverse m' f, h =>
    [⟨root, m', path ++ [h], f.names, f.names, true,
      if path.isEmpty && f.isKey then some f.name else none⟩]

/-- The loop of `_parse_dependency`, `left` hops before the limit. -/
def watches (S : Schema M N K V) (root : M × N) (dep : List N) :
    ℕ → M → List (Hop M N) → List N → Except (RegistryError M N) (List (Binding M N))
  | _, _, _, [] => .ok []
  | left, m, path, name :: rest =>
    match S.getField m name with
    | none => .error (.notAField root dep name m)
    | some l =>
      match l.hop with
      | none =>
        if rest ≠ [] then .error (.notARelation root dep name)
        else .ok [⟨root, m, path, l.field.names, ∅, false, none⟩]
      | some h =>
        match left with
        | 0 => .error (.tooManyHops root dep)
        | left + 1 => do
          let ws ← watches S root dep left h.target (path ++ [h]) rest
          return hopWatches root m path l h ++ ws

/-- `dataclasses.replace` of a binding by its union with another one. -/
def Binding.union (b c : Binding M N) : Binding M N where
  field := b.field
  watched := b.watched
  path := b.path
  triggers := b.triggers ∪ c.triggers
  membership := b.membership ∪ c.membership
  onExistence := b.onExistence || c.onExistence
  fkAttname := b.fkAttname.or c.fkAttname

/-- The key of `_merge`. -/
def Binding.SameKey (b c : Binding M N) : Prop :=
  b.field = c.field ∧ b.watched = c.watched ∧ b.path = c.path

instance (b c : Binding M N) : Decidable (b.SameKey c) := inferInstanceAs (Decidable (_ ∧ _))

/-- Add a binding to the one with its key, or at the end. -/
def mergeInto (c : Binding M N) : List (Binding M N) → List (Binding M N)
  | [] => [c]
  | b :: bs => if b.SameKey c then b.union c :: bs else b :: mergeInto c bs

/-- `_merge`. -/
def merge (bs : List (Binding M N)) : List (Binding M N) := bs.foldl (fun acc b => mergeInto b acc) []

/-- `_parse_dependency`: one binding for each watched model and path. -/
def parseDependency (S : Schema M N K V) (root : M × N) (dep : List N) :
    Except (RegistryError M N) (List (Binding M N)) := do
  let ws ← watches S root dep S.maxHops root.1 [] dep
  return merge ws

/-- The bindings of one stored field. -/
def fieldBindings (S : Schema M N K V) (root : M × N) (deps : List (List N)) :
    Except (RegistryError M N) (List (Binding M N)) := do
  let parsed ← deps.mapM (parseDependency S root)
  return merge parsed.flatten

/-- Every stored field of every model. -/
def Schema.storedFields (S : Schema M N K V) : List ((M × N) × List (List N)) :=
  S.models.flatMap fun m => (S.stored m).map fun x => ((m, x.1), x.2)

def allBindings (S : Schema M N K V) : Except (RegistryError M N) (List (Binding M N)) := do
  let bs ← S.storedFields.mapM fun x => fieldBindings S x.1 x.2
  return bs.flatten

/-! ## Depths -/

/-- The stored fields a field reads. -/
def reads (S : Schema M N K V) (bs : List (Binding M N)) (f : M × N) : List (M × N) :=
  bs.flatMap fun b =>
    if b.field = f then
      ((S.stored b.watched).filter fun x => decide (x.1 ∈ b.triggers)).map fun x => (b.watched, x.1)
    else []

/-- `visit`; no chain of fields that are all different is longer than there are fields. -/
def visit (reads : M × N → List (M × N)) : ℕ → List (M × N) → M × N → Option ℕ
  | 0, _, _ => none
  | fuel + 1, visiting, f =>
    if f ∈ visiting then none
    else do
      let ds ← (reads f).mapM (visit reads fuel (f :: visiting))
      return (ds.map (· + 1)).foldr max 0

/-- `_compute_depths`. -/
def computeDepths (S : Schema M N K V) (bs : List (Binding M N)) :
    Except (RegistryError M N) (M × N → Option ℕ) :=
  match bs.find? fun b => decide (b.field ∈ reads S [b] b.field) with
  | some b => .error (.readsItself b.field b.path)
  | none =>
    let fields := bs.map Binding.field ++ bs.flatMap fun b => reads S bs b.field
    let depth := fun f => visit (reads S bs) (S.storedFields.length + 1) [] f
    match fields.find? fun f => (depth f).isNone with
    | some f => .error (.cycle f)
    | none => .ok fun f => if f ∈ fields then depth f else none

/-! ## Cascades -/

/-- `model._meta.related_objects`, foreign keys only: the relations to `m` that are not hidden. -/
def Schema.relatedObjects (S : Schema M N K V) (m : M) : List (M × Field M N K V) :=
  S.models.flatMap fun m' =>
    ((S.fields m').filter fun f =>
      decide (f.target = some m) && f.isKey && f.queryName.isSome).map fun f => (m', f)

/-- The sets `collect` fills. -/
structure Collected (M N : Type*) where
  visited : Finset M
  deleted : Finset M
  nulled : Finset (M × N)

/-- `collect`; every call but the first has visited one more model. -/
def collect (S : Schema M N K V) (existence : M → Bool) (triggers : M → Finset N) :
    ℕ → M → Collected M N → Collected M N
  | 0, _, acc => acc
  | fuel + 1, m, acc =>
    (S.relatedObjects m).foldl (fun acc x =>
      match x.2.onDelete with
      | some .cascade =>
        if x.1 ∈ acc.visited then acc
        else collect S existence triggers fuel x.1
          { acc with
            visited := insert x.1 acc.visited
            deleted := if existence x.1 then insert x.1 acc.deleted else acc.deleted }
      | some .setNull | some (.setDefault _) | some (.set _) =>
        if (x.2.names ∩ triggers x.1).Nonempty then
          { acc with nulled := insert (x.1, x.2.name) acc.nulled }
        else acc
      | some .protect | none => acc) acc

def bindingsFor (bs : List (Binding M N)) (m : M) : List (Binding M N) :=
  bs.filter fun b => decide (b.watched = m)

/-- `_compute_cascades`. -/
def computeCascades (S : Schema M N K V) (bs : List (Binding M N)) (m : M) : Option (Cascade M N) :=
  let existence := fun m => (bindingsFor bs m).any fun b => b.onExistence && !b.isLocal
  let triggers := fun m => (bindingsFor bs m).foldr (fun b s => b.triggers ∪ s) ∅
  let c := collect S existence triggers (S.models.length + 1) m ⟨∅, ∅, ∅⟩
  if c.deleted.Nonempty ∨ c.nulled.Nonempty then some ⟨c.deleted, c.nulled⟩ else none

/-- `build_computed_field_dependency_registry`. -/
def build (S : Schema M N K V) : Except (RegistryError M N) (Registry M N) := do
  let bs ← allBindings S
  let depth ← computeDepths S bs
  return { bindings := bs, depth, cascades := computeCascades S bs }

/-- `depth.get(field, 0)`. -/
def Registry.depthOf (reg : Registry M N) (f : M × N) : ℕ := (reg.depth f).getD 0

end Parse

/-! ## What the registry has -/

section Has

variable {M N K V : Type*} [DecidableEq M] [DecidableEq N]
variable {S : Schema M N K V} {bs : List (Binding M N)} {b c w : Binding M N}

omit [DecidableEq M] [DecidableEq N] in
theorem Binding.SameKey.refl (b : Binding M N) : b.SameKey b := ⟨rfl, rfl, rfl⟩

omit [DecidableEq M] [DecidableEq N] in
theorem Binding.SameKey.trans (h : b.SameKey c) (h' : c.SameKey w) : b.SameKey w :=
  ⟨h.1.trans h'.1, h.2.1.trans h'.2.1, h.2.2.trans h'.2.2⟩

/-- `b` watches at least what `w` does. -/
structure Binding.Includes (b w : Binding M N) : Prop where
  key : b.SameKey w
  triggers : w.triggers ⊆ b.triggers
  membership : w.membership ⊆ b.membership
  onExistence : w.onExistence = true → b.onExistence = true

omit [DecidableEq M] [DecidableEq N] in
theorem Binding.Includes.refl (b : Binding M N) : b.Includes b where
  key := .refl b
  triggers := fun _ h => h
  membership := fun _ h => h
  onExistence := id

omit [DecidableEq M] [DecidableEq N] in
theorem Binding.Includes.trans (h : b.Includes c) (h' : c.Includes w) : b.Includes w where
  key := h.key.trans h'.key
  triggers := h'.triggers.trans h.triggers
  membership := h'.membership.trans h.membership
  onExistence := fun he => h.onExistence (h'.onExistence he)

omit [DecidableEq M] in
theorem Binding.union_includes_left (b c : Binding M N) : (b.union c).Includes b where
  key := ⟨rfl, rfl, rfl⟩
  triggers := Finset.subset_union_left
  membership := Finset.subset_union_left
  onExistence := fun h => by simp [Binding.union, h]

omit [DecidableEq M] in
theorem Binding.union_includes_right (h : b.SameKey c) : (b.union c).Includes c where
  key := h
  triggers := Finset.subset_union_right
  membership := Finset.subset_union_right
  onExistence := fun h => by simp [Binding.union, h]

/-- Some binding watches what `w` does. -/
def Has (bs : List (Binding M N)) (w : Binding M N) : Prop := ∃ b ∈ bs, b.Includes w

theorem has_mergeInto_self : Has (mergeInto c bs) c := by
  induction bs with
  | nil => exact ⟨c, List.mem_singleton_self c, .refl c⟩
  | cons b bs ih =>
    unfold mergeInto
    split
    · rename_i hkey
      exact ⟨b.union c, List.mem_cons_self, Binding.union_includes_right hkey⟩
    · obtain ⟨b', hb', hincl⟩ := ih
      exact ⟨b', List.mem_cons_of_mem b hb', hincl⟩

theorem has_mergeInto (h : Has bs w) : Has (mergeInto c bs) w := by
  induction bs with
  | nil =>
    obtain ⟨b, hb, -⟩ := h
    cases hb
  | cons b bs ih =>
    obtain ⟨b', hb', hincl⟩ := h
    unfold mergeInto
    split
    · rcases List.mem_cons.mp hb' with rfl | hb'
      · exact ⟨b'.union c, List.mem_cons_self, (b'.union_includes_left c).trans hincl⟩
      · exact ⟨b', List.mem_cons_of_mem _ hb', hincl⟩
    · rcases List.mem_cons.mp hb' with rfl | hb'
      · exact ⟨b', List.mem_cons_self, hincl⟩
      · obtain ⟨b'', hb'', hincl''⟩ := ih ⟨b', hb', hincl⟩
        exact ⟨b'', List.mem_cons_of_mem b hb'', hincl''⟩

/-- **Merging loses nothing.** -/
theorem has_merge (h : w ∈ bs) : Has (merge bs) w := by
  induction bs using List.reverseRecOn with
  | nil => cases h
  | append_singleton bs b ih =>
    rw [merge, List.foldl_append]
    rcases List.mem_append.mp h with h | h
    · exact has_mergeInto (ih h)
    · obtain rfl := List.mem_singleton.mp h
      exact has_mergeInto_self

/-- What a binding leaves when it is merged into some. -/
theorem mem_mergeInto (h : b ∈ mergeInto c bs) :
    b ∈ bs ∨ (∃ b' ∈ bs, b'.SameKey c ∧ b = b'.union c) ∨ b = c ∧ ∀ b' ∈ bs, ¬ b'.SameKey c := by
  induction bs with
  | nil => exact .inr (.inr ⟨List.mem_singleton.mp h, fun _ hb' => absurd hb' List.not_mem_nil⟩)
  | cons b₁ bs ih =>
    unfold mergeInto at h
    split at h
    · rename_i hkey
      rcases List.mem_cons.mp h with rfl | h
      · exact .inr (.inl ⟨b₁, List.mem_cons_self, hkey, rfl⟩)
      · exact .inl (List.mem_cons_of_mem b₁ h)
    · rename_i hkey
      rcases List.mem_cons.mp h with rfl | h
      · exact .inl List.mem_cons_self
      · rcases ih h with hb | ⟨b', hb', hsame, rfl⟩ | ⟨rfl, hnone⟩
        · exact .inl (List.mem_cons_of_mem b₁ hb)
        · exact .inr (.inl ⟨b', List.mem_cons_of_mem b₁ hb', hsame, rfl⟩)
        · exact .inr (.inr ⟨rfl, List.forall_mem_cons.mpr ⟨hkey, hnone⟩⟩)

/-- What holds of some bindings, and of the union of two with one key, holds once they are merged. -/
theorem merge_induct {P : Binding M N → Prop} (hunion : ∀ b c, P b → P c → b.SameKey c → P (b.union c))
    (h : ∀ b ∈ bs, P b) : ∀ b ∈ merge bs, P b := by
  induction bs using List.reverseRecOn with
  | nil => exact fun b hb => absurd hb List.not_mem_nil
  | append_singleton bs c ih =>
    have hc : P c := h c (by simp)
    have hbs := ih fun b hb => h b (List.mem_append_left _ hb)
    intro b hb
    rw [merge, List.foldl_append] at hb
    rcases mem_mergeInto hb with hb | ⟨b', hb', hsame, rfl⟩ | ⟨rfl, -⟩
    · exact hbs b hb
    · exact hunion b' c (hbs b' hb') hc hsame
    · exact hc

/-- The key a root is read from is the one the path crosses. -/
def Binding.FkOk (b : Binding M N) : Prop :=
  ∀ a, b.fkAttname = some a → b.path = [.reverse true b.watched a]

theorem fkOk_merge (h : ∀ b ∈ bs, b.FkOk) : ∀ b ∈ merge bs, b.FkOk := by
  refine merge_induct (fun b c hb hc hkey a ha => ?_) h
  rcases Option.or_eq_some_iff.mp ha with ha | ⟨-, ha⟩
  · exact hb a ha
  · have hpath := hc a ha
    rw [← hkey.2.2, ← hkey.2.1] at hpath
    exact hpath

omit [DecidableEq M] in
theorem fkOk_hopWatches {root : M × N} {m : M} {path : List (Hop M N)} {l : Lookup M N K V}
    {h : Hop M N} (hl : l.hop = some h) : ∀ w ∈ hopWatches root m path l h, w.FkOk := by
  cases l with
  | own f =>
    intro w hw a ha
    simp only [hopWatches, List.mem_cons, List.not_mem_nil, or_false] at hw
    rcases hw with rfl | rfl <;> cases ha
  | reverse m' f =>
    obtain rfl : Hop.reverse f.isKey m' f.name = h := Option.some.inj hl
    intro w hw a ha
    obtain rfl := List.mem_singleton.mp hw
    dsimp only at ha
    split at ha
    · rename_i hfirst
      obtain rfl := Option.some.inj ha
      simp only [Bool.and_eq_true, List.isEmpty_iff] at hfirst
      simp [hfirst.1, hfirst.2]
    · cases ha

omit [DecidableEq M] in
/-- A relation crossed watches the existence of the rows it leads to. -/
theorem exists_hopWatch {root : M × N} {m : M} {path : List (Hop M N)} {l : Lookup M N K V} {h : Hop M N}
    (hhop : l.hop = some h) : ∃ w ∈ hopWatches root m path l h, w.onExistence = true ∧
      w.field = root ∧ w.watched = h.target ∧ w.path = path ++ [h] := by
  cases l with
  | own f => exact ⟨_, List.mem_cons_of_mem _ (List.mem_singleton_self _), rfl, rfl, rfl, rfl⟩
  | reverse m' f =>
    obtain rfl := Option.some.inj hhop
    exact ⟨_, List.mem_singleton_self _, rfl, rfl, rfl, rfl⟩

/-- What holds of every watch of a dependency. -/
theorem forall_watches {root : M × N} {P : Binding M N → Prop}
    (hlocal : ∀ m path names, P ⟨root, m, path, names, ∅, false, none⟩)
    (hhop : ∀ m path (l : Lookup M N K V) h, l.hop = some h → ∀ w ∈ hopWatches root m path l h, P w)
    {dep rest : List N} {left : ℕ} {m : M} {path : List (Hop M N)} {ws : List (Binding M N)}
    (hws : watches S root dep left m path rest = .ok ws) : ∀ w ∈ ws, P w := by
  induction rest generalizing left m path ws with
  | nil =>
    obtain rfl : [] = ws := by simpa [watches] using hws
    simp
  | cons name rest ih =>
    unfold watches at hws
    split at hws
    · cases hws
    · rename_i l hl
      split at hws
      · split_ifs at hws
        obtain rfl := Except.ok.inj hws
        intro w hw
        obtain rfl := List.mem_singleton.mp hw
        exact hlocal _ _ _
      · rename_i h hh
        cases left with
        | zero => cases hws
        | succ left =>
          obtain ⟨ws', hws', hws⟩ := bind_eq_ok.mp hws
          obtain rfl := Except.ok.inj hws
          intro w hw
          rcases List.mem_append.mp hw with hw | hw
          · exact hhop _ _ _ _ hh w hw
          · exact ih hws' w hw

/-- The watches of a field are its own, and a membership change triggers. -/
theorem watches_sane {root : M × N} {dep rest : List N} {left : ℕ} {m : M} {path : List (Hop M N)}
    {ws : List (Binding M N)} (hws : watches S root dep left m path rest = .ok ws) :
    ∀ w ∈ ws, w.field = root ∧ w.membership ⊆ w.triggers := by
  refine forall_watches (fun m path names => ⟨rfl, Finset.empty_subset _⟩) ?_ hws
  intro m path l h _ w hw
  cases l with
  | own f =>
    simp only [hopWatches, List.mem_cons, List.not_mem_nil, or_false] at hw
    rcases hw with rfl | rfl <;> exact ⟨rfl, Finset.empty_subset _⟩
  | reverse m' f =>
    obtain rfl := List.mem_singleton.mp hw
    exact ⟨rfl, Finset.Subset.refl _⟩

theorem fkOk_watches {root : M × N} {dep rest : List N} {left : ℕ} {m : M} {path : List (Hop M N)}
    {ws : List (Binding M N)} (hws : watches S root dep left m path rest = .ok ws) :
    ∀ w ∈ ws, w.FkOk := by
  refine forall_watches (fun m path names a ha => ?_) (fun m path l h hl => fkOk_hopWatches hl) hws
  cases ha

omit [DecidableEq M] [DecidableEq N] in
theorem storedFields_mem {m : M} {n : N} {deps : List (List N)} (h : (n, deps) ∈ S.stored m) :
    ((m, n), deps) ∈ S.storedFields :=
  List.mem_flatMap.mpr ⟨m, S.mem_models m, List.mem_map.mpr ⟨(n, deps), h, rfl⟩⟩

/-- The parts of a registry that builds. -/
theorem build_ok {reg : Registry M N} (h : build S = .ok reg) :
    allBindings S = .ok reg.bindings ∧ computeDepths S reg.bindings = .ok reg.depth ∧
      reg.cascades = computeCascades S reg.bindings := by
  obtain ⟨bs, hbs, h⟩ := bind_eq_ok.mp h
  obtain ⟨depth, hdepth, h⟩ := bind_eq_ok.mp h
  obtain rfl := Except.ok.inj h
  exact ⟨hbs, hdepth, rfl⟩

theorem mem_allBindings (h : allBindings S = .ok bs) :
    (∀ x ∈ S.storedFields, ∃ fs, fieldBindings S x.1 x.2 = .ok fs ∧ ∀ b ∈ fs, b ∈ bs) ∧
      ∀ b ∈ bs, ∃ x ∈ S.storedFields, ∃ fs, fieldBindings S x.1 x.2 = .ok fs ∧ b ∈ fs := by
  obtain ⟨bss, hbss, h⟩ := bind_eq_ok.mp h
  obtain rfl := Except.ok.inj h
  have hall := mapM_eq_ok.mp hbss
  constructor
  · intro x hx
    obtain ⟨fs, hfs, hx⟩ := forall₂_left hall x hx
    exact ⟨fs, hx, fun b hb => List.mem_flatten.mpr ⟨fs, hfs, hb⟩⟩
  · intro b hb
    obtain ⟨fs, hfs, hb⟩ := List.mem_flatten.mp hb
    obtain ⟨x, hx, hxfs⟩ := forall₂_right hall fs hfs
    exact ⟨x, hx, fs, hxfs, hb⟩

theorem fieldBindings_has {root : M × N} {deps : List (List N)} {fs : List (Binding M N)}
    (h : fieldBindings S root deps = .ok fs) :
    ∀ dep ∈ deps, ∃ ws, watches S root dep S.maxHops root.1 [] dep = .ok ws ∧ ∀ w ∈ ws, Has fs w := by
  obtain ⟨parsed, hparsed, h⟩ := bind_eq_ok.mp h
  obtain rfl := Except.ok.inj h
  intro dep hdep
  obtain ⟨ps, hps, hdep⟩ := forall₂_left (mapM_eq_ok.mp hparsed) dep hdep
  obtain ⟨ws, hws, hdep⟩ := bind_eq_ok.mp hdep
  obtain rfl := Except.ok.inj hdep
  refine ⟨ws, hws, fun w hw => ?_⟩
  obtain ⟨b, hb, hincl⟩ := has_merge hw
  obtain ⟨c, hc, hincl'⟩ := has_merge (List.mem_flatten.mpr ⟨_, hps, hb⟩)
  exact ⟨c, hc, hincl'.trans hincl⟩

/-- What holds of the merged watches of each dependency, and is kept by merging, holds of the registry. -/
theorem build_induct {P : Binding M N → Prop} (hmerge : ∀ bs, (∀ b ∈ bs, P b) → ∀ b ∈ merge bs, P b)
    (hwatches : ∀ root deps, (root, deps) ∈ S.storedFields → ∀ dep ∈ deps, ∀ ws,
      watches S root dep S.maxHops root.1 [] dep = .ok ws → ∀ b ∈ merge ws, P b)
    {reg : Registry M N} (h : build S = .ok reg) : ∀ b ∈ reg.bindings, P b := by
  intro b hb
  obtain ⟨x, hx, fs, hfs, hb⟩ := (mem_allBindings (build_ok h).1).2 b hb
  obtain ⟨parsed, hparsed, hfs⟩ := bind_eq_ok.mp hfs
  obtain rfl := Except.ok.inj hfs
  refine hmerge _ (fun c hc => ?_) b hb
  obtain ⟨ps, hps, hc⟩ := List.mem_flatten.mp hc
  obtain ⟨dep, hmem, hdep⟩ := forall₂_right (mapM_eq_ok.mp hparsed) ps hps
  obtain ⟨ws, hws, hdep⟩ := bind_eq_ok.mp hdep
  obtain rfl := Except.ok.inj hdep
  exact hwatches x.1 x.2 hx dep hmem ws hws c hc

/-- **The registry has everything a dependency watches.** -/
theorem build_has {reg : Registry M N} (h : build S = .ok reg) {m : M} {n : N} {deps : List (List N)}
    (hn : (n, deps) ∈ S.stored m) :
    ∀ dep ∈ deps, ∃ ws, watches S (m, n) dep S.maxHops m [] dep = .ok ws ∧
      ∀ w ∈ ws, Has reg.bindings w := by
  obtain ⟨fs, hfs, hmem⟩ := (mem_allBindings (build_ok h).1).1 _ (storedFields_mem hn)
  intro dep hdep
  obtain ⟨ws, hws, hhas⟩ := fieldBindings_has hfs dep hdep
  refine ⟨ws, hws, fun w hw => ?_⟩
  obtain ⟨b, hb, hincl⟩ := hhas w hw
  exact ⟨b, hmem b hb, hincl⟩

theorem build_fkOk {reg : Registry M N} (h : build S = .ok reg) : ∀ b ∈ reg.bindings, b.FkOk :=
  build_induct (fun _ => fkOk_merge) (fun _ _ _ _ _ _ hws => fkOk_merge (fkOk_watches hws)) h

/-! ### Depths -/

/-- A field visited is one more than the deepest field it reads. -/
theorem visit_ok {r : M × N → List (M × N)} {fuel : ℕ} {visiting : List (M × N)} {f : M × N} {d : ℕ}
    (h : visit r (fuel + 1) visiting f = some d) :
    f ∉ visiting ∧ ∃ ds, (r f).mapM (visit r fuel (f :: visiting)) = some ds ∧
      d = (ds.map (· + 1)).foldr max 0 := by
  unfold visit at h
  split_ifs at h with hf
  obtain ⟨ds, hds, h⟩ := Option.bind_eq_some_iff.mp h
  exact ⟨hf, ds, hds, (Option.some.inj h).symm⟩

/-- The depth found does not depend on where the visit comes from. -/
theorem visit_mono {r : M × N → List (M × N)} {fuel fuel' : ℕ} {visiting visiting' : List (M × N)}
    {f : M × N} {d : ℕ} (h : visit r fuel visiting f = some d) (hfuel : fuel ≤ fuel')
    (hsub : visiting' ⊆ visiting) : visit r fuel' visiting' f = some d := by
  induction fuel generalizing fuel' visiting visiting' f d with
  | zero => cases h
  | succ fuel ih =>
    obtain ⟨fuel', rfl⟩ : ∃ n, fuel' = n + 1 := ⟨fuel' - 1, by omega⟩
    obtain ⟨hf, ds, hds, rfl⟩ := visit_ok h
    have hds' : (r f).mapM (visit r fuel' (f :: visiting')) = some ds := by
      rw [mapM_eq_some] at hds ⊢
      exact hds.imp fun x y hxy => ih hxy (by omega) (List.cons_subset_cons f hsub)
    unfold visit
    rw [if_neg fun hmem => hf (hsub hmem), hds']
    rfl

theorem foldr_max_le_iff {ds : List ℕ} {n : ℕ} : ds.foldr max 0 ≤ n ↔ ∀ d ∈ ds, d ≤ n := by
  induction ds with
  | nil => simp
  | cons d ds ih => rw [List.foldr_cons, Nat.max_le, ih, List.forall_mem_cons]

theorem lt_foldr_max {ds : List ℕ} {d : ℕ} (h : d ∈ ds) : d < (ds.map (· + 1)).foldr max 0 :=
  foldr_max_le_iff.mp (Nat.le_refl _) (d + 1) (List.mem_map_of_mem h)

theorem visit_lt {r : M × N → List (M × N)} {fuel : ℕ} {f g : M × N} {d : ℕ}
    (h : visit r fuel [] f = some d) (hg : g ∈ r f) : ∃ d', visit r fuel [] g = some d' ∧ d' < d := by
  cases fuel with
  | zero => cases h
  | succ fuel =>
    obtain ⟨-, ds, hds, rfl⟩ := visit_ok h
    obtain ⟨d', hd', hgd⟩ := forall₂_left (mapM_eq_some.mp hds) g hg
    exact ⟨d', visit_mono hgd (by omega) (List.nil_subset _), lt_foldr_max hd'⟩

theorem mem_reads_iff {f g : M × N} : g ∈ reads S bs f ↔
    ∃ b ∈ bs, b.field = f ∧ b.watched = g.1 ∧ g.2 ∈ b.triggers ∧ S.isStored g.1 g.2 = true := by
  rw [reads, List.mem_flatMap]
  constructor
  · rintro ⟨b, hb, hg⟩
    split_ifs at hg with hf
    · obtain ⟨x, hx, rfl⟩ := List.mem_map.mp hg
      obtain ⟨hx, hn⟩ := List.mem_filter.mp hx
      exact ⟨b, hb, hf, rfl, of_decide_eq_true hn, Schema.isStored_iff.mpr ⟨x.2, hx⟩⟩
    · cases hg
  · rintro ⟨b, hb, hf, hwatched, hn, hs⟩
    obtain ⟨deps, hdeps⟩ := Schema.isStored_iff.mp hs
    refine ⟨b, hb, ?_⟩
    rw [if_pos hf, hwatched]
    exact List.mem_map.mpr ⟨(g.2, deps), List.mem_filter.mpr ⟨hdeps, decide_eq_true hn⟩, rfl⟩

theorem mem_reads {f : M × N} (hb : b ∈ bs) (hf : b.field = f) {n : N} (hn : n ∈ b.triggers)
    (hs : S.isStored b.watched n = true) : (b.watched, n) ∈ reads S bs f :=
  mem_reads_iff.mpr ⟨b, hb, hf, rfl, hn, hs⟩

/-- Where no field is on a cycle, each has a depth, and a field is deeper than what it reads. -/
theorem computeDepths_lt {depth : M × N → Option ℕ} (h : computeDepths S bs = .ok depth) {f g : M × N}
    (hg : g ∈ reads S bs f) : ∃ d d', depth f = some d ∧ depth g = some d' ∧ d' < d := by
  unfold computeDepths at h
  split at h
  · cases h
  · dsimp only at h
    split at h
    · cases h
    · rename_i hfound
      obtain ⟨b, hb, rfl, -⟩ := mem_reads_iff.mp hg
      have hfield : b.field ∈ bs.map Binding.field ++ bs.flatMap fun b => reads S bs b.field :=
        List.mem_append_left _ (List.mem_map_of_mem hb)
      have hread : g ∈ bs.map Binding.field ++ bs.flatMap fun b => reads S bs b.field :=
        List.mem_append_right _ (List.mem_flatMap.mpr ⟨b, hb, hg⟩)
      have hsome : visit (reads S bs) (S.storedFields.length + 1) [] b.field ≠ none := by
        simpa using List.find?_eq_none.mp hfound b.field hfield
      obtain ⟨d, hd⟩ := Option.ne_none_iff_exists'.mp hsome
      obtain ⟨d', hd', hlt⟩ := visit_lt hd hg
      rw [← Except.ok.inj h]
      exact ⟨d, d', (if_pos hfield).trans hd, (if_pos hread).trans hd', hlt⟩

/-- **A field is deeper than every stored field it reads.** -/
theorem build_depth {reg : Registry M N} (h : build S = .ok reg) (hb : b ∈ reg.bindings) {n : N}
    (hn : n ∈ b.triggers) (hs : S.isStored b.watched n = true) :
    reg.depthOf (b.watched, n) < reg.depthOf b.field := by
  obtain ⟨-, hdepth, -⟩ := build_ok h
  obtain ⟨d, d', hd, hd', hlt⟩ := computeDepths_lt hdepth (mem_reads hb rfl hn hs)
  rw [Registry.depthOf, Registry.depthOf, hd, hd']
  exact hlt

theorem visit_le {r : M × N → List (M × N)} {fuel : ℕ} {visiting : List (M × N)} {f : M × N} {d : ℕ}
    (h : visit r (fuel + 1) visiting f = some d) : d ≤ fuel := by
  induction fuel generalizing visiting f d with
  | zero =>
    obtain ⟨-, ds, hds, rfl⟩ := visit_ok h
    cases ds with
    | nil => exact Nat.le_refl 0
    | cons d ds =>
      obtain ⟨g, -, hg⟩ := forall₂_right (mapM_eq_some.mp hds) d List.mem_cons_self
      cases hg
  | succ fuel ih =>
    obtain ⟨-, ds, hds, rfl⟩ := visit_ok h
    refine foldr_max_le_iff.mpr (List.forall_mem_map.mpr fun d hd => ?_)
    obtain ⟨g, -, hg⟩ := forall₂_right (mapM_eq_some.mp hds) d hd
    have hle := ih hg
    omega

theorem build_depth_le {reg : Registry M N} (h : build S = .ok reg) (f : M × N) :
    reg.depthOf f ≤ S.storedFields.length := by
  obtain ⟨-, hdepth, -⟩ := build_ok h
  unfold computeDepths at hdepth
  split at hdepth
  · cases hdepth
  · dsimp only at hdepth
    split at hdepth
    · cases hdepth
    · rw [Registry.depthOf, ← Except.ok.inj hdepth]
      dsimp only
      split
      · cases hd : visit (reads S reg.bindings) (S.storedFields.length + 1) [] f with
        | none => exact Nat.zero_le _
        | some d => exact visit_le hd
      · exact Nat.zero_le _

/-! ### Cascades -/

/-- Rows of `m'` cascade from those of `m`, by a relation that is not hidden. -/
def Schema.CascadesTo (S : Schema M N K V) (m m' : M) : Prop :=
  ∃ f, (m', f) ∈ S.relatedObjects m ∧ f.onDelete = some .cascade

/-- The key `f` of `m'` is rewritten when a row of `m` goes, and the relation is not hidden. -/
def Schema.Rewrites (S : Schema M N K V) (m m' : M) (f : Field M N K V) : Prop :=
  (m', f) ∈ S.relatedObjects m ∧ f.newKey ≠ none

/-- What a part of the search adds: `acc'` after `acc`. -/
structure Collected.Grows (S : Schema M N K V) (existence : M → Bool) (triggers : M → Finset N)
    (acc acc' : Collected M N) : Prop where
  visited : acc.visited ⊆ acc'.visited
  deleted : acc.deleted ⊆ acc'.deleted
  nulled : acc.nulled ⊆ acc'.nulled
  watched : ∀ m ∈ acc'.visited, m ∉ acc.visited → existence m = true → m ∈ acc'.deleted
  closed : ∀ m ∈ acc'.visited, m ∉ acc.visited → ∀ m', S.CascadesTo m m' → m' ∈ acc'.visited
  rewritten : ∀ m ∈ acc'.visited, m ∉ acc.visited → ∀ m' f, S.Rewrites m m' f →
    (f.names ∩ triggers m').Nonempty → (m', f.name) ∈ acc'.nulled

variable {existence : M → Bool} {triggers : M → Finset N} {acc acc' acc'' : Collected M N} {fuel : ℕ}

theorem Collected.Grows.refl (acc : Collected M N) : Collected.Grows S existence triggers acc acc where
  visited := Finset.Subset.refl _
  deleted := Finset.Subset.refl _
  nulled := Finset.Subset.refl _
  watched := fun _ h h' => absurd h h'
  closed := fun _ h h' => absurd h h'
  rewritten := fun _ h h' => absurd h h'

theorem Collected.Grows.insert {P : Prop} [Decidable P] {x : M × N} :
    Collected.Grows S existence triggers acc
      (if P then { acc with nulled := Insert.insert x acc.nulled } else acc) := by
  split
  · exact ⟨Finset.Subset.refl _, Finset.Subset.refl _, Finset.subset_insert _ _, fun _ h h' => absurd h h',
      fun _ h h' => absurd h h', fun _ h h' => absurd h h'⟩
  · exact .refl acc

theorem Collected.Grows.trans (h : Collected.Grows S existence triggers acc acc')
    (h' : Collected.Grows S existence triggers acc' acc'') :
    Collected.Grows S existence triggers acc acc'' where
  visited := h.visited.trans h'.visited
  deleted := h.deleted.trans h'.deleted
  nulled := h.nulled.trans h'.nulled
  watched := by
    intro m hm hold hex
    by_cases hm' : m ∈ acc'.visited
    · exact h'.deleted (h.watched m hm' hold hex)
    · exact h'.watched m hm hm' hex
  closed := by
    intro m hm hold m' hedge
    by_cases hm' : m ∈ acc'.visited
    · exact h'.visited (h.closed m hm' hold m' hedge)
    · exact h'.closed m hm hm' m' hedge
  rewritten := by
    intro m hm hold m' f hedge htr
    by_cases hm' : m ∈ acc'.visited
    · exact h'.nulled (h.rewritten m hm' hold m' f hedge htr)
    · exact h'.rewritten m hm hm' m' f hedge htr

/-- What one relation of a model asks of the search. -/
def Collected.Has (triggers : M → Finset N) (acc : Collected M N) (x : M × Field M N K V) : Prop :=
  (x.2.onDelete = some .cascade → x.1 ∈ acc.visited) ∧
    (x.2.newKey ≠ none → (x.2.names ∩ triggers x.1).Nonempty → (x.1, x.2.name) ∈ acc.nulled)

theorem Collected.Has.grows {x : M × Field M N K V} (h : acc.Has triggers x)
    (hgrows : Collected.Grows S existence triggers acc acc') : acc'.Has triggers x :=
  ⟨fun hcascade => hgrows.visited (h.1 hcascade), fun hnew htr => hgrows.nulled (h.2 hnew htr)⟩

/-- The relations of a model, one after the other. -/
theorem foldl_grows {step : Collected M N → M × Field M N K V → Collected M N}
    (hstep : ∀ acc x, S.models.length < fuel + acc.visited.card →
      Collected.Grows S existence triggers acc (step acc x) ∧ (step acc x).Has triggers x)
    (xs : List (M × Field M N K V)) (hfuel : S.models.length < fuel + acc.visited.card) :
    Collected.Grows S existence triggers acc (xs.foldl step acc) ∧
      ∀ x ∈ xs, (xs.foldl step acc).Has triggers x := by
  induction xs generalizing acc with
  | nil => exact ⟨.refl acc, by simp⟩
  | cons x xs ih =>
    obtain ⟨hgrows, hx⟩ := hstep acc x hfuel
    have hcard := Finset.card_le_card hgrows.visited
    have hfuel' : S.models.length < fuel + (step acc x).visited.card := by omega
    obtain ⟨hgrows', hxs⟩ := ih hfuel'
    rw [List.foldl_cons]
    refine ⟨hgrows.trans hgrows', fun y hy => ?_⟩
    rcases List.mem_cons.mp hy with rfl | hy
    · exact hx.grows hgrows'
    · exact hxs y hy

/-- **The search visits all that a model cascades to**: no chain of calls visits more models than there
are. -/
theorem collect_grows {m : M} (hfuel : S.models.length < fuel + acc.visited.card) :
    Collected.Grows S existence triggers acc (collect S existence triggers fuel m acc) ∧
      ∀ x ∈ S.relatedObjects m, (collect S existence triggers fuel m acc).Has triggers x := by
  induction fuel generalizing m acc with
  | zero =>
    have hsub : acc.visited ⊆ S.models.toFinset := fun m _ => List.mem_toFinset.mpr (S.mem_models m)
    have hcard := (Finset.card_le_card hsub).trans (List.toFinset_card_le _)
    omega
  | succ fuel ih =>
    unfold collect
    refine foldl_grows ?_ (S.relatedObjects m) hfuel
    intro acc x hfuel
    split
    · rename_i hon
      have hkept : x.2.newKey = none := by rw [Field.newKey, hon]
      split
      · rename_i hvisited
        exact ⟨.refl acc, fun _ => hvisited, fun hnew => absurd hkept hnew⟩
      · -- a model not visited yet: it is marked, and what it cascades to is visited
        rename_i hnew
        have hcard := Finset.card_insert_of_notMem hnew
        obtain ⟨hgrows, hall⟩ := @ih ⟨insert x.1 acc.visited,
          if existence x.1 then insert x.1 acc.deleted else acc.deleted, acc.nulled⟩ x.1
          (by dsimp only; omega)
        refine ⟨?_, fun _ => hgrows.visited (Finset.mem_insert_self _ _), fun hnew => absurd hkept hnew⟩
        constructor
        · exact (Finset.subset_insert _ _).trans hgrows.visited
        · refine Finset.Subset.trans ?_ hgrows.deleted
          dsimp only
          split
          · exact Finset.subset_insert _ _
          · exact Finset.Subset.refl _
        · exact hgrows.nulled
        · intro m' hm' hold hex
          by_cases hmx : m' = x.1
          · refine hgrows.deleted ?_
            subst hmx
            simp [hex]
          · exact hgrows.watched m' hm' (by simp [hmx, hold]) hex
        · intro m' hm' hold
          by_cases hmx : m' = x.1
          · subst hmx
            rintro m' ⟨f, hf, hcascade⟩
            exact (hall (m', f) hf).1 hcascade
          · exact hgrows.closed m' hm' (by simp [hmx, hold])
        · intro m' hm' hold
          by_cases hmx : m' = x.1
          · subst hmx
            rintro m' f ⟨hf, hnew⟩
            exact (hall (m', f) hf).2 hnew
          · exact hgrows.rewritten m' hm' (by simp [hmx, hold])
    all_goals
      rename_i hon
      refine ⟨?_, fun hcascade => by simp [hon] at hcascade, fun hnew => ?_⟩
    all_goals first
      | exact .insert
      | exact .refl acc
      | exact fun htr => by rw [if_pos htr]; exact Finset.mem_insert_self _ _
      | exact absurd (by rw [Field.newKey, hon]) hnew

/-- A search from nothing visits all the models that are reached. -/
theorem visited_of_cascades {m m' : M} {c : Collected M N}
    (hgrows : Collected.Grows S existence triggers ⟨∅, ∅, ∅⟩ c) (hm : ∀ x ∈ S.relatedObjects m, c.Has triggers x)
    (hreach : Relation.TransGen S.CascadesTo m m') : m' ∈ c.visited := by
  induction hreach with
  | single hedge => exact (hm _ hedge.choose_spec.1).1 hedge.choose_spec.2
  | tail _ hedge ih => exact hgrows.closed _ ih (Finset.notMem_empty _) _ hedge

/-- Nothing is found but from what the models cascade to. -/
structure Collected.Found (S : Schema M N K V) (existence : M → Bool) (triggers : M → Finset N) (m : M)
    (acc : Collected M N) : Prop where
  visited : ∀ m' ∈ acc.visited, Relation.TransGen S.CascadesTo m m'
  deleted : ∀ m' ∈ acc.deleted, Relation.TransGen S.CascadesTo m m' ∧ existence m' = true
  nulled : ∀ x ∈ acc.nulled, ∃ m' f, Relation.ReflTransGen S.CascadesTo m m' ∧ S.Rewrites m' x.1 f ∧
    f.name = x.2 ∧ (f.names ∩ triggers x.1).Nonempty

theorem Collected.Found.insert {m m' : M} {x : M × Field M N K V} (h : acc.Found S existence triggers m)
    (hreach : Relation.ReflTransGen S.CascadesTo m m') (hrewrites : S.Rewrites m' x.1 x.2) :
    (if (x.2.names ∩ triggers x.1).Nonempty then
      { acc with nulled := Insert.insert (x.1, x.2.name) acc.nulled } else acc).Found S existence triggers m := by
  split
  · rename_i htr
    refine ⟨h.visited, h.deleted, fun y hy => ?_⟩
    rcases Finset.mem_insert.mp hy with rfl | hy
    · exact ⟨m', x.2, hreach, hrewrites, rfl, htr⟩
    · exact h.nulled y hy
  · exact h

theorem collect_found {m₀ m : M} (h : acc.Found S existence triggers m₀)
    (hreach : Relation.ReflTransGen S.CascadesTo m₀ m) :
    (collect S existence triggers fuel m acc).Found S existence triggers m₀ := by
  induction fuel generalizing m acc with
  | zero => exact h
  | succ fuel ih =>
    unfold collect
    refine List.foldlRecOn _ _ h fun acc hacc x hx => ?_
    split
    · rename_i hon
      have hedge := Relation.TransGen.tail' hreach ⟨x.2, hx, hon⟩
      split
      · exact hacc
      · refine ih ⟨fun m' hm' => ?_, fun m' hm' => ?_, hacc.nulled⟩ hedge.to_reflTransGen
        · rcases Finset.mem_insert.mp hm' with rfl | hm'
          · exact hedge
          · exact hacc.visited m' hm'
        · dsimp only at hm'
          split at hm'
          · rename_i hex
            rcases Finset.mem_insert.mp hm' with rfl | hm'
            · exact ⟨hedge, hex⟩
            · exact hacc.deleted m' hm'
          · exact hacc.deleted m' hm'
    · rename_i hon
      exact hacc.insert hreach ⟨hx, by simp [Field.newKey, hon]⟩
    · rename_i hon
      exact hacc.insert hreach ⟨hx, by simp [Field.newKey, hon]⟩
    · rename_i hon
      exact hacc.insert hreach ⟨hx, by simp [Field.newKey, hon]⟩
    · exact hacc
    · exact hacc

/-- The models whose rows' existence is watched. -/
def Registry.watchesExistence (reg : Registry M N) (m : M) : Bool :=
  (bindingsFor reg.bindings m).any fun b => b.onExistence && !b.isLocal

/-- The fields of a model whose writes are watched. -/
def Registry.triggersOf (reg : Registry M N) (m : M) : Finset N :=
  (bindingsFor reg.bindings m).foldr (fun b s => b.triggers ∪ s) ∅

omit [DecidableEq M] in
theorem mem_foldr_triggers {bs : List (Binding M N)} {n : N} :
    n ∈ bs.foldr (fun b s => b.triggers ∪ s) ∅ ↔ ∃ b ∈ bs, n ∈ b.triggers := by
  induction bs with
  | nil => simp
  | cons b bs ih => rw [List.foldr_cons, Finset.mem_union, ih, List.exists_mem_cons_iff]

theorem Registry.mem_triggersOf {reg : Registry M N} {m : M} {n : N} :
    n ∈ reg.triggersOf m ↔ ∃ b ∈ reg.bindings, b.watched = m ∧ n ∈ b.triggers := by
  rw [triggersOf, mem_foldr_triggers]
  simp only [bindingsFor, List.mem_filter, decide_eq_true_eq, and_assoc]

/-- What is found for a model, whether or not it is kept. -/
theorem build_cascades_eq {reg : Registry M N} (h : build S = .ok reg) (m : M) :
    let c := collect S reg.watchesExistence reg.triggersOf (S.models.length + 1) m ⟨∅, ∅, ∅⟩
    reg.cascades m = if c.deleted.Nonempty ∨ c.nulled.Nonempty then some ⟨c.deleted, c.nulled⟩ else none := by
  obtain ⟨-, -, hcascades⟩ := build_ok h
  rw [hcascades]
  rfl

/-- **The cascades have the watched models that a deletion reaches**, by relations that are not hidden. -/
theorem build_cascades {reg : Registry M N} (h : build S = .ok reg) {m m' : M} :
    (∃ cascade, reg.cascades m = some cascade ∧ m' ∈ cascade.deleted) ↔
      Relation.TransGen S.CascadesTo m m' ∧ reg.watchesExistence m' = true := by
  have hcascades := build_cascades_eq h m
  set c := collect S reg.watchesExistence reg.triggersOf (S.models.length + 1) m ⟨∅, ∅, ∅⟩
  have hfound : c.Found S reg.watchesExistence reg.triggersOf m :=
    collect_found ⟨by simp, by simp, by simp⟩ .refl
  have hgrows : Collected.Grows S reg.watchesExistence reg.triggersOf ⟨∅, ∅, ∅⟩ c ∧
      ∀ x ∈ S.relatedObjects m, c.Has reg.triggersOf x := collect_grows (by simp)
  constructor
  · rintro ⟨cascade, hcascade, hdeleted⟩
    rw [hcascades] at hcascade
    split_ifs at hcascade
    obtain rfl := Option.some.inj hcascade
    exact hfound.deleted m' hdeleted
  · rintro ⟨hreach, hex⟩
    have hdeleted : m' ∈ c.deleted :=
      hgrows.1.watched m' (visited_of_cascades hgrows.1 hgrows.2 hreach) (Finset.notMem_empty m') hex
    exact ⟨⟨c.deleted, c.nulled⟩, by rw [hcascades, if_pos (.inl ⟨m', hdeleted⟩)], hdeleted⟩

/-- **The cascades have the watched keys that a deletion rewrites**, of relations that are not hidden. -/
theorem build_nulled {reg : Registry M N} (h : build S = .ok reg) {m m' : M} {n : N} :
    (∃ cascade, reg.cascades m = some cascade ∧ (m', n) ∈ cascade.nulled) ↔
      ∃ target f, Relation.ReflTransGen S.CascadesTo m target ∧ S.Rewrites target m' f ∧ f.name = n ∧
        (f.names ∩ reg.triggersOf m').Nonempty := by
  have hcascades := build_cascades_eq h m
  set c := collect S reg.watchesExistence reg.triggersOf (S.models.length + 1) m ⟨∅, ∅, ∅⟩
  have hfound : c.Found S reg.watchesExistence reg.triggersOf m :=
    collect_found ⟨by simp, by simp, by simp⟩ .refl
  have hgrows : Collected.Grows S reg.watchesExistence reg.triggersOf ⟨∅, ∅, ∅⟩ c ∧
      ∀ x ∈ S.relatedObjects m, c.Has reg.triggersOf x := collect_grows (by simp)
  constructor
  · rintro ⟨cascade, hcascade, hnulled⟩
    rw [hcascades] at hcascade
    split_ifs at hcascade
    obtain rfl := Option.some.inj hcascade
    exact hfound.nulled (m', n) hnulled
  · rintro ⟨target, f, hreach, hrewrites, rfl, htr⟩
    have hnulled : (m', f.name) ∈ c.nulled := by
      rcases Relation.reflTransGen_iff_eq_or_transGen.mp hreach with rfl | hreach
      · exact (hgrows.2 _ hrewrites.1).2 hrewrites.2 htr
      · have hvisited := visited_of_cascades hgrows.1 hgrows.2 hreach
        exact hgrows.1.rewritten target hvisited (Finset.notMem_empty _) m' f hrewrites htr
    exact ⟨⟨c.deleted, c.nulled⟩, by rw [hcascades, if_pos (.inr ⟨_, hnulled⟩)], hnulled⟩

end Has

end Totem.Computed
