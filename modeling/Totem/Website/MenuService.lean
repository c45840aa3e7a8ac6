import Totem.Lib.Fallible
import Totem.Website.Menu
import Totem.Lib.Run

/-!
# Totem.Website.MenuService — creations, moves, deletions and renumberings

`website/services.py`, with the parts of `CreateMixin`, `UpdateMixin`, `DeleteMixin` and
`ResequenceMixin` a menu goes through.  Relations are resolved before the transaction; what the body
of a transaction raises rolls its writes back (`atomic`).

* `WellFormed.create`, `WellFormed.update`, `WellFormed.delete`, `WellFormed.resequence`: what each
  operation keeps.
* `menu_forest`: any run of operations.
-/

namespace Totem.Website

open Totem.Lib Totem.Lib.Forest

/-! ## Inputs and errors -/

/-- An item to create, the defaults of the schema filled in. -/
structure MenuCreate where
  name : String
  parent : Option String
  sequence : ℤ
  page : Option String
  link : Option String
  newWindow : Bool

/-- The fields an update sets. -/
structure MenuUpdate where
  name : Option String
  parent : Option (Option String)
  sequence : Option ℤ
  page : Option (Option String)
  link : Option (Option String)
  newWindow : Option Bool

/-- What the request of a user goes through outside the service: the schemas, the records the user
may read, and the access rules of the user. -/
structure Acting where
  acceptsCreate : MenuCreate → Bool
  acceptsUpdate : MenuUpdate → Bool
  reads : Menus → Ulid → Menu → Bool
  readsPage : String → Bool
  creates : Menus → Ulid → Menu → Bool
  updates : Menus → Ulid → Menu → Bool
  deletes : Menus → Ulid → Menu → Bool

/-- Why `MenuService.validate_data` refuses a record; both are errors on `parent`. -/
inductive MenuInvalid
  | ownParent
  | ownDescendant
deriving DecidableEq, Repr

def MenuInvalid.message : MenuInvalid → String
  | .ownParent => "A menu item cannot be its own parent."
  | .ownDescendant => "A menu item cannot be moved under one of its own children."

inductive MenuError
  /-- A field the schema or the model refuses. -/
  | invalidData
  /-- `RelationNotFound`, on the field. -/
  | relationNotFound (field value : String)
  /-- `update_invalid_data`: the records refused. -/
  | invalid (errors : Table Ulid MenuInvalid)
  | permissionDenied
  /-- A primary key, the check constraint or the length of a path. -/
  | integrityError
  /-- `ProtectedError`: an item with children. -/
  | protectedError
  /-- An error of a renumbering, on `ids`. -/
  | invalidIds (values : List String)

/-! ## The service -/

section Service

variable (a : Acting)

/-- `_resolve_relation` on `parent`. -/
def resolveParent (t : Menus) : Option String → Except MenuError (Option (Ulid × Menu))
  | none => .ok none
  | some v =>
    if h : v.toList ≠ [] ∧ '/' ∉ v.toList then
      match t.get ⟨v, h.1, h.2⟩ with
      | some m => if a.reads t ⟨v, h.1, h.2⟩ m then .ok (some (⟨v, h.1, h.2⟩, m))
        else .error (.relationNotFound "parent" v)
      | none => .error (.relationNotFound "parent" v)
    else .error (.relationNotFound "parent" v)

/-- `_resolve_relation` on `page`. -/
def resolvePage : Option String → Except MenuError (Option String)
  | none => .ok none
  | some v => if a.readsPage v then .ok (some v) else .error (.relationNotFound "page" v)

/-- `MenuService.validate_data`, `parent` being there when the update has one. -/
def validateData (parent : Option (Option (Ulid × Menu))) (k : Ulid) : Option MenuInvalid :=
  match parent with
  | none => none
  | some none => none
  | some (some (p, pm)) =>
    if p = k then some .ownParent
    else if k.val.toList ∈ splitPath pm.parentPath then some .ownDescendant
    else none

/-- The check constraint `menu_page_or_link`. -/
def pageOrLink (m : Menu) : Bool := m.parent.isNone || m.link.isSome || m.page.isSome

/-- What the database accepts of a row: the check constraint, and `varchar(256)`. -/
def rowOk (m : Menu) : Bool := pageOrLink m && decide (m.parentPath.length ≤ 256)

/-- The instance of a creation; its path is the one `MenuQuerySet.bulk_create` derives. -/
def newMenu (k : Ulid) (row : MenuCreate) (parent : Option (Ulid × Menu)) (page : Option String) :
    Menu where
  name := row.name
  parent := parent.map Prod.fst
  parentPath :=
    match parent with
    | some (_, pm) => addToPath pm.parentPath k
    | none => addToPath "" k
  sequence := row.sequence
  page := page
  link := row.link
  newWindow := row.newWindow

/-- `bulk_create`, once the paths are derived. -/
def bulkCreate (objs : List (Ulid × Menu)) (t : Menus) : Except MenuError Menus :=
  objs.foldlM (fun t x =>
    if (t.get x.1).isSome || !rowOk x.2 then .error .integrityError else .ok (t.insert x.1 x.2)) t

/-- `MenuService.create`, every item with the primary key drawn for it. -/
def create (rows : List (Ulid × MenuCreate)) (t : Menus) : Except MenuError ℕ × Menus :=
  if rows.any fun x => !a.acceptsCreate x.2 then (.error .invalidData, t)
  else
    let resolved := rows.mapM fun x => do
      let parent ← resolveParent a t x.2.parent
      let page ← resolvePage a x.2.page
      return (x.1, newMenu x.1 x.2 parent page)
    match resolved with
    | .error e => (.error e, t)
    | .ok objs =>
      atomic (fun t => do
        let t' ← bulkCreate objs t
        if objs.all fun x => a.creates t' x.1 x.2 then return (objs.length, t')
        else .error .permissionDenied) t

/-- The row of an update. -/
def MenuUpdate.write (d : MenuUpdate) (parent : Option (Option (Ulid × Menu)))
    (page : Option (Option String)) (m : Menu) : Menu where
  name := d.name.getD m.name
  parent := (parent.map fun p => p.map Prod.fst).getD m.parent
  parentPath := m.parentPath
  sequence := d.sequence.getD m.sequence
  page := page.getD m.page
  link := d.link.getD m.link
  newWindow := d.newWindow.getD m.newWindow

/-- `MenuQuerySet.update` on the rows `pks`: a move recomputes every path. -/
def queryUpdate (d : MenuUpdate) (parent : Option (Option (Ulid × Menu)))
    (page : Option (Option String)) (pks : Finset Ulid) (t : Menus) : Except MenuError Menus :=
  let t' := t.map fun k m => if k ∈ pks then d.write parent page m else m
  if (t'.filter fun k m => decide (k ∈ pks) && !pageOrLink m).keys.Nonempty then .error .integrityError
  else
    match parent with
    | none => .ok t'
    | some _ =>
      let t'' := recomputeParentStore t'
      if (t''.filter fun _ m => !rowOk m).keys.Nonempty then .error .integrityError else .ok t''

/-- The body of `_update_atomic`. -/
def updateAtomic (q : Menus → Ulid → Menu → Bool) (d : MenuUpdate)
    (parent : Option (Option (Ulid × Menu))) (page : Option (Option String)) (t : Menus) :
    Except MenuError (ℕ × Menus) := do
  let pks := t.find fun k m => a.updates t k m && q t k m
  let errors := t.filterMap fun k _ => if k ∈ pks then validateData parent k else none
  if errors.keys.Nonempty then .error (.invalid errors)
  else if pks = ∅ then return (0, t)
  else do
    let t' ← queryUpdate d parent page pks t
    return (pks.card, t')

/-- `MenuService.update` of the rows a filter `q` matches. -/
def update (q : Menus → Ulid → Menu → Bool) (d : MenuUpdate) (t : Menus) :
    Except MenuError ℕ × Menus :=
  if !a.acceptsUpdate d then (.error .invalidData, t)
  else
    match d.parent.mapM (resolveParent a t), d.page.mapM (resolvePage a) with
    | .ok parent, .ok page => atomic (updateAtomic a q d parent page) t
    | .error e, _ => (.error e, t)
    | .ok _, .error e => (.error e, t)

/-- `MenuService.delete` of the rows a filter `q` matches: the children of an item protect it. -/
def delete (q : Menus → Ulid → Menu → Bool) (t : Menus) : Except MenuError ℕ × Menus :=
  atomic (fun t =>
    let pks := t.find fun k m => a.deletes t k m && q t k m
    let children := t.find fun _ m => m.parent.any fun p => decide (p ∈ pks)
    if children.Nonempty then .error .protectedError
    else .ok (pks.card, t.filter fun k _ => decide (k ∉ pks))) t

/-- `MenuService.resequence`. -/
def resequence (pks : List String) (q : Menus → Ulid → Menu → Bool) (offset : ℤ) (t : Menus) :
    Except MenuError ℕ × Menus :=
  if pks.isEmpty then (.ok 0, t)
  else if ¬ pks.Nodup then (.error (.invalidIds (pks.filter fun v => decide (1 < pks.count v))), t)
  else
    atomic (fun t =>
      let found := t.find fun k m => (a.updates t k m && q t k m) && decide (k.val ∈ pks)
      let missing := pks.filter fun v => ¬ ∃ k ∈ found, k.val = v
      if missing ≠ [] then .error (.invalidIds missing)
      else .ok (pks.length, t.map fun k m =>
        if k ∈ found then { m with sequence := offset + pks.idxOf k.val + 1 } else m)) t

end Service

/-! ## What each operation keeps -/

section Keeps

variable {a : Acting} {t t' : Menus}

/-- Rows with the same parents and paths. -/
theorem WellFormed.congr (h : WellFormed t)
    (heq : ∀ k, (t'.get k).map (fun m => (m.parent, m.parentPath)) =
      (t.get k).map fun m => (m.parent, m.parentPath)) : WellFormed t' := by
  have hup : up t' = up t := by
    apply up_congr
    intro k
    have hk := congrArg (Option.map Prod.fst) (heq k)
    rw [Option.map_map, Option.map_map] at hk
    exact hk
  intro k m hm
  have hk := heq k
  rw [hm, Option.map_some, eq_comm, Option.map_eq_some_iff] at hk
  obtain ⟨m₀, hm₀, hkeep⟩ := hk
  obtain ⟨l, hl, hpath⟩ := h k m₀ hm₀
  exact ⟨l, hup ▸ hl, (Prod.mk.inj hkeep).2.symm.trans hpath⟩

/-- A new row, a root or below a row of the table. -/
def Hangs (t : Menus) (k : Ulid) (m : Menu) : Prop :=
  (m.parent = none ∧ m.parentPath = addToPath "" k) ∨
    ∃ p pm, t.get p = some pm ∧ m.parent = some p ∧ m.parentPath = addToPath pm.parentPath k

theorem WellFormed.insert (h : WellFormed t) {k : Ulid} {m : Menu} (hnew : t.get k = none)
    (hm : Hangs t k m) : WellFormed (t.insert k m) := by
  have hold : ∀ b, up t b ≠ none → up (t.insert k m) b = up t b := by
    intro b hb
    have hbk : b ≠ k := by
      rintro rfl
      exact hb (by simp [up, hnew])
    simp [up, Table.get_insert_of_ne hbk]
  have hself : up (t.insert k m) k = some m.parent := up_eq (Table.get_insert_self k m t)
  intro b mb hb
  by_cases hbk : b = k
  · subst hbk
    rw [Table.get_insert_self] at hb
    obtain rfl := Option.some.inj hb
    rcases hm with ⟨hp, hpath⟩ | ⟨p, pm, hpm, hp, hpath⟩
    · exact ⟨[b], .root (by rw [hself, hp]), hpath⟩
    · obtain ⟨l, hl, hlpath⟩ := h p pm hpm
      refine ⟨l ++ [b], .child (by rw [hself, hp]) (hl.extend hold), ?_⟩
      rw [hpath, hlpath, pathString_concat]
  · rw [Table.get_insert_of_ne hbk] at hb
    obtain ⟨l, hl, hpath⟩ := h b mb hb
    exact ⟨l, hl.extend hold, hpath⟩

theorem resolveParent_ok {v : Option String} {parent : Option (Ulid × Menu)}
    (h : resolveParent a t v = .ok parent) :
    ∀ p pm, parent = some (p, pm) → t.get p = some pm := by
  intro p pm hp
  subst hp
  unfold resolveParent at h
  split at h
  · cases h
  · split at h
    · split at h
      · split at h
        · cases h
          assumption
        · cases h
      · cases h
    · cases h

theorem hangs_newMenu {k : Ulid} {row : MenuCreate} {parent : Option (Ulid × Menu)}
    {page : Option String} (h : ∀ p pm, parent = some (p, pm) → t.get p = some pm) :
    Hangs t k (newMenu k row parent page) := by
  cases parent with
  | none => exact .inl ⟨rfl, rfl⟩
  | some x =>
    obtain ⟨p, pm⟩ := x
    exact .inr ⟨p, pm, h p pm rfl, rfl, rfl⟩

/-- The rows of a batch hang from the table the batch finds, whatever was inserted before them. -/
theorem WellFormed.bulkCreate {objs : List (Ulid × Menu)} (h : WellFormed t)
    (hobjs : ∀ x ∈ objs, Hangs t x.1 x.2) (hok : bulkCreate objs t = .ok t') : WellFormed t' := by
  induction objs generalizing t with
  | nil =>
    obtain rfl : t = t' := by simpa [Website.bulkCreate, pure, Except.pure] using hok
    exact h
  | cons x objs ih =>
    rw [Website.bulkCreate, List.foldlM_cons] at hok
    by_cases hx : ((t.get x.1).isSome || !rowOk x.2) = true
    · simp [hx, bind, Except.bind] at hok
    · have hx' : t.get x.1 = none ∧ rowOk x.2 = true := by simpa using hx
      have hnew := hx'.1
      simp only [hx, bind, Except.bind] at hok
      refine ih (h.insert hnew (hobjs x List.mem_cons_self)) (fun y hy => ?_) hok
      rcases hobjs y (List.mem_cons_of_mem x hy) with hroot | ⟨p, pm, hpm, hrest⟩
      · exact .inl hroot
      · refine .inr ⟨p, pm, ?_, hrest⟩
        rw [Table.get_insert_of_ne, hpm]
        rintro rfl
        rw [hnew] at hpm
        cases hpm

theorem WellFormed.atomic {α : Type*} {body : Menus → Except MenuError (α × Menus)}
    (h : WellFormed t) (hbody : ∀ r t', body t = .ok (r, t') → WellFormed t') :
    WellFormed (atomic body t).2 := by
  cases hb : body t with
  | error e => rw [atomic_error hb]; exact h
  | ok r => rw [atomic_ok hb]; exact hbody r.1 r.2 hb

theorem WellFormed.create {rows : List (Ulid × MenuCreate)} (h : WellFormed t) :
    WellFormed (create a rows t).2 := by
  unfold Website.create
  split
  · exact h
  · dsimp only
    split
    · exact h
    · rename_i objs hobjs
      have hhangs : ∀ x ∈ objs, Hangs t x.1 x.2 := by
        intro x hx
        obtain ⟨y, -, hy⟩ := forall₂_right (mapM_eq_ok.mp hobjs) x hx
        cases hp : resolveParent a t y.2.parent with
        | error e => simp [hp, bind, Except.bind] at hy
        | ok parent =>
          cases hq : resolvePage a y.2.page with
          | error e => simp [hp, hq, bind, Except.bind] at hy
          | ok page =>
            obtain rfl : (y.1, newMenu y.1 y.2 parent page) = x := by
              simpa [hp, hq, bind, Except.bind, pure, Except.pure] using hy
            exact hangs_newMenu (resolveParent_ok hp)
      refine h.atomic fun r t' hr => ?_
      cases hb : Website.bulkCreate objs t with
      | error e => simp [hb, bind, Except.bind] at hr
      | ok t₁ =>
        simp only [hb, bind, Except.bind] at hr
        split at hr
        · cases hr
          exact h.bulkCreate hhangs hb
        · cases hr

/-- The guard leaves the new parent out of what hangs below the rows moved. -/
theorem guard_of_validateData (h : WellFormed t) {p : Ulid} {pm : Menu} (hp : t.get p = some pm)
    {k : Ulid} (hk : validateData (some (some (p, pm))) k = none) {l : List Ulid}
    (hl : Ancestry (up t) p l) : k ∉ l := by
  rw [← mem_splitPath, ← h.path_eq hp hl]
  intro hmem
  simp only [validateData, hmem, if_true] at hk
  split_ifs at hk

/-- The parents after the rows `pks` are moved. -/
theorem up_move {d : MenuUpdate} {page : Option (Option String)} {p : Option (Ulid × Menu)}
    {pks : Finset Ulid} :
    up (t.map fun k m => if k ∈ pks then d.write (some p) page m else m) =
      reparent (up t) (· ∈ pks) (p.map Prod.fst) := by
  funext k
  simp only [up, Table.get_map, Forest.reparent, Option.map_map]
  by_cases hk : k ∈ pks
  · simp only [hk, if_true]
    congr 1
  · simp only [hk, if_false]
    congr 1

/-- **A move the guard accepts** leaves the table well formed. -/
theorem WellFormed.move (h : WellFormed t) {d : MenuUpdate} {page : Option (Option String)}
    {p : Option (Ulid × Menu)} {pks : Finset Ulid} (hp : ∀ q pm, p = some (q, pm) → t.get q = some pm)
    (hguard : ∀ k ∈ pks, validateData (some p) k = none) :
    WellFormed (recomputeParentStore (t.map fun k m => if k ∈ pks then d.write (some p) page m else m)) := by
  apply wellFormed_recompute
  rw [up_move]
  apply h.grounded.reparent
  intro q hq
  obtain ⟨⟨q', pm⟩, hpm, rfl⟩ := Option.map_eq_some_iff.mp hq
  obtain ⟨l, hl, -⟩ := h q' pm (hp q' pm hpm)
  refine ⟨l, hl, fun b hb hmem => ?_⟩
  exact guard_of_validateData h (hp q' pm hpm) (hpm ▸ hguard b hmem) hl hb

theorem WellFormed.queryUpdate (h : WellFormed t) {d : MenuUpdate} {page : Option (Option String)}
    {parent : Option (Option (Ulid × Menu))} {pks : Finset Ulid}
    (hp : ∀ q pm, parent = some (some (q, pm)) → t.get q = some pm)
    (hguard : ∀ k ∈ pks, validateData parent k = none)
    (hok : queryUpdate d parent page pks t = .ok t') : WellFormed t' := by
  unfold Website.queryUpdate at hok
  dsimp only at hok
  split at hok
  · cases hok
  · cases parent with
    | none =>
      obtain rfl := Except.ok.inj hok
      apply h.congr
      intro k
      rw [Table.get_map, Option.map_map]
      congr 1
      funext m
      by_cases hk : k ∈ pks <;> simp [hk, MenuUpdate.write]
    | some p =>
      dsimp only at hok
      split at hok
      · cases hok
      · obtain rfl := Except.ok.inj hok
        exact h.move (fun q pm hq => hp q pm (hq ▸ rfl)) hguard

theorem WellFormed.updateAtomic (h : WellFormed t) {q : Menus → Ulid → Menu → Bool} {d : MenuUpdate}
    {parent : Option (Option (Ulid × Menu))} {page : Option (Option String)} {n : ℕ}
    (hp : ∀ q pm, parent = some (some (q, pm)) → t.get q = some pm)
    (hok : updateAtomic a q d parent page t = .ok (n, t')) : WellFormed t' := by
  unfold Website.updateAtomic at hok
  dsimp only at hok
  split_ifs at hok with herr hnone
  · cases hok
    exact h
  · simp only [bind, Except.bind] at hok
    split at hok
    · cases hok
    · rename_i t₁ hq
      cases hok
      refine h.queryUpdate hp (fun k hk => ?_) hq
      by_contra hne
      obtain ⟨e, he⟩ := Option.ne_none_iff_exists'.mp hne
      obtain ⟨m, hm, -⟩ := Table.mem_find.mp hk
      refine herr ⟨k, Table.mem_keys_of_get (r := e) ?_⟩
      simp [hm, hk, he]

theorem resolved_parent {v : Option (Option String)} {parent : Option (Option (Ulid × Menu))}
    (h : v.mapM (resolveParent a t) = .ok parent) :
    ∀ p pm, parent = some (some (p, pm)) → t.get p = some pm := by
  intro p pm hp
  cases v with
  | none =>
    obtain rfl : none = parent := by simpa [pure, Except.pure] using h
    cases hp
  | some v =>
    cases hr : resolveParent a t v with
    | error e => simp [hr, Functor.map, Except.map] at h
    | ok o =>
      obtain rfl : some o = parent := by simpa [hr, Functor.map, Except.map] using h
      exact resolveParent_ok hr p pm (Option.some.inj hp)

theorem WellFormed.update {q : Menus → Ulid → Menu → Bool} {d : MenuUpdate} (h : WellFormed t) :
    WellFormed (update a q d t).2 := by
  unfold Website.update
  split
  · exact h
  · split
    · rename_i parent page hparent hpage
      exact h.atomic fun r t' hr => h.updateAtomic (resolved_parent hparent) hr
    · exact h
    · exact h

theorem WellFormed.delete {q : Menus → Ulid → Menu → Bool} (h : WellFormed t) :
    WellFormed (delete a q t).2 := by
  refine h.atomic fun r t' hr => ?_
  dsimp only at hr
  split at hr
  · cases hr
  · rename_i hfree
    obtain ⟨-, rfl⟩ := Prod.mk.inj (Except.ok.inj hr)
    set pks := t.find fun k m => a.deletes t k m && q t k m
    have hget : ∀ k, (t.filter fun k _ => decide (k ∉ pks)).get k =
        if k ∈ pks then none else t.get k := by
      intro k
      by_cases hk : k ∈ pks <;> cases ht : t.get k <;> simp [hk, ht]
    have hkept : ∀ k, k ∉ pks → up (t.filter fun k _ => decide (k ∉ pks)) k = up t k := by
      intro k hk
      simp only [up, hget, hk, if_false]
    have hgone : ∀ k, up (t.filter fun k _ => decide (k ∉ pks)) k ≠ none → k ∉ pks := by
      intro k hk hmem
      simp [up, hmem] at hk
    intro k m hm
    have hk := hgone k (up_ne_none.mpr ⟨m, hm⟩)
    rw [hget, if_neg hk] at hm
    obtain ⟨l, hl, hpath⟩ := h k m hm
    refine ⟨l, hl.restrict (by rw [hkept k hk]; exact hl.ne_none) (fun b hb => hkept b (hgone b hb)) ?_,
      hpath⟩
    intro b p hb hbp
    -- the parent of a row that stays is not deleted: it has a child
    have hp : p ∉ pks := by
      intro hmem
      obtain ⟨mb, hmb⟩ := up_ne_none.mp (by rw [hbp]; simp : up t b ≠ none)
      rw [up_eq hmb] at hbp
      exact hfree ⟨b, Table.mem_find.mpr ⟨mb, hmb, by simp [Option.some.inj hbp, hmem]⟩⟩
    rw [hkept p hp]
    obtain ⟨lb, hlb⟩ := h.grounded b (by rw [hbp]; simp)
    obtain ⟨l₁, h₁, -⟩ := hlb.of_mem (hlb.mem_of_parent hlb.self_mem hbp)
    exact h₁.ne_none

theorem WellFormed.resequence {pks : List String} {q : Menus → Ulid → Menu → Bool} {offset : ℤ}
    (h : WellFormed t) : WellFormed (resequence a pks q offset t).2 := by
  unfold Website.resequence
  split_ifs
  · exact h
  · refine h.atomic fun r t' hr => ?_
    dsimp only at hr
    split at hr
    · cases hr
    · obtain ⟨-, rfl⟩ := Prod.mk.inj (Except.ok.inj hr)
      apply h.congr
      intro k
      rw [Table.get_map, Option.map_map]
      congr 1
      funext m
      simp only [Function.comp_apply]
      split <;> rfl
  · exact h

end Keeps

/-! ## Runs -/

/-- One operation of a user, a batch of creations with the primary keys drawn for it. -/
inductive Op
  | create (a : Acting) (rows : List (Ulid × MenuCreate))
  | update (a : Acting) (q : Menus → Ulid → Menu → Bool) (d : MenuUpdate)
  | delete (a : Acting) (q : Menus → Ulid → Menu → Bool)
  | resequence (a : Acting) (pks : List String) (q : Menus → Ulid → Menu → Bool) (offset : ℤ)

/-- What an operation returns or raises, and the table after it. -/
def Op.exec (t : Menus) : Op → Except MenuError ℕ × Menus
  | .create a rows => Website.create a rows t
  | .update a q d => Website.update a q d t
  | .delete a q => Website.delete a q t
  | .resequence a pks q offset => Website.resequence a pks q offset t

/-- An operation of a run, with what it returns or raises. -/
def Serves (t : Menus) (e : Op × Except MenuError ℕ) (t' : Menus) : Prop := e.1.exec t = (e.2, t')

section Runs

variable {t t' : Menus}

/-- **One operation** keeps the table well formed. -/
theorem WellFormed.exec (h : WellFormed t) (op : Op) : WellFormed (op.exec t).2 := by
  cases op with
  | create a rows => exact h.create
  | update a q d => exact h.update
  | delete a q => exact h.delete
  | resequence a pks q offset => exact h.resequence

theorem create_refused {a : Acting} {rows : List (Ulid × MenuCreate)} {e : MenuError}
    (h : (create a rows t).1 = .error e) : (create a rows t).2 = t := by
  unfold create at h ⊢
  split at h
  · rename_i hbad
    rw [if_pos hbad]
  · rename_i hgood
    rw [if_neg hgood]
    dsimp only at h ⊢
    split at h
    · rfl
    · exact atomic_snd_of_error h

theorem update_refused {a : Acting} {q : Menus → Ulid → Menu → Bool} {d : MenuUpdate} {e : MenuError}
    (h : (update a q d t).1 = .error e) : (update a q d t).2 = t := by
  unfold update at h ⊢
  split at h
  · rename_i hbad
    rw [if_pos hbad]
  · rename_i hgood
    rw [if_neg hgood]
    split at h
    · exact atomic_snd_of_error h
    · rfl
    · rfl

theorem resequence_refused {a : Acting} {pks : List String} {q : Menus → Ulid → Menu → Bool} {offset : ℤ}
    {e : MenuError} (h : (resequence a pks q offset t).1 = .error e) :
    (resequence a pks q offset t).2 = t := by
  unfold resequence at h ⊢
  split_ifs at h ⊢
  · exact atomic_snd_of_error h
  · rfl

/-- **A refused operation** leaves every row as it was. -/
theorem Op.exec_refused {op : Op} {e : MenuError} (h : (op.exec t).1 = .error e) :
    (op.exec t).2 = t := by
  cases op with
  | create a rows => exact create_refused h
  | update a q d => exact update_refused h
  | delete a q => exact atomic_snd_of_error h
  | resequence a pks q offset => exact resequence_refused h

/-- **Runs**: from a well-formed table, the parent relation stays acyclic and every path is that of the
ancestors of its row, whatever the operations and whoever runs them; and an operation that is refused
there leaves every row as it was. -/
theorem menu_forest {es : List (Op × Except MenuError ℕ)} (h : WellFormed t)
    (hr : Run Serves t es t') :
    Acyclic (up t') ∧ WellFormed t' ∧
      ∀ (op : Op) (e : MenuError), (op.exec t').1 = .error e → (op.exec t').2 = t' := by
  have hwf : WellFormed t' := by
    refine hr.invariant (fun s e s' hs hstep => ?_) h
    have hs' := hs.exec e.1
    rw [hstep] at hs'
    exact hs'
  exact ⟨hwf.grounded.acyclic, hwf, fun op e => Op.exec_refused⟩

end Runs

/-! ### A run -/

/-- A user every record is open to. -/
def everything : Acting :=
  ⟨fun _ => true, fun _ => true, fun _ _ _ => true, fun _ => true, fun _ _ _ => true,
    fun _ _ _ => true, fun _ _ _ => true⟩

def home : Ulid := ⟨"HOME", by decide, by decide⟩
def about : Ulid := ⟨"ABOUT", by decide, by decide⟩
def team : Ulid := ⟨"TEAM", by decide, by decide⟩

/-- An item below `parent`, with a link. -/
def item (parent : Option String) : MenuCreate := ⟨"item", parent, 20, none, some "/", false⟩

/-- A move of the rows `pks`. -/
def moveTo (pks : List Ulid) (parent : Option String) : Op :=
  .update everything (fun _ k _ => decide (k ∈ pks)) ⟨none, some parent, none, none, none, none⟩

/-- Three items below one another, moves, a deletion that is protected and one that is not. -/
def sampleOps : List Op :=
  [.create everything [(home, item none)], .create everything [(about, item (some "HOME"))],
    .create everything [(team, item (some "ABOUT"))], moveTo [home] (some "TEAM"),
    .delete everything (fun _ k _ => decide (k = about)), moveTo [team, about] (some "HOME"),
    .delete everything (fun _ k _ => decide (k = about))]

def execAll (t : Menus) : List Op → List (Op × Except MenuError ℕ)
  | [] => []
  | op :: ops => (op, (op.exec t).1) :: execAll (op.exec t).2 ops

def afterAll (t : Menus) (ops : List Op) : Menus := ops.foldl (fun t op => (op.exec t).2) t

theorem run_execAll (t : Menus) (ops : List Op) : Run Serves t (execAll t ops) (afterAll t ops) := by
  induction ops generalizing t with
  | nil => exact .nil t
  | cons op ops ih => exact .cons rfl (ih _)

theorem wellFormed_empty : WellFormed .empty := by
  intro k m hm
  simp at hm

/-- The refused operations of the run are the move of `HOME` below `TEAM` and the deletion of an item
that has children. -/
theorem menu_forest_sample :
    (execAll .empty sampleOps).map (fun x => x.2.toOption) =
        [some 1, some 1, some 1, none, none, some 2, some 1] ∧
      ((afterAll .empty sampleOps).get team).map Menu.parentPath = some "HOME/TEAM/" ∧
      Acyclic (up (afterAll .empty sampleOps)) ∧ WellFormed (afterAll .empty sampleOps) ∧
      ∀ (op : Op) (e : MenuError), (op.exec (afterAll .empty sampleOps)).1 = .error e →
        (op.exec (afterAll .empty sampleOps)).2 = afterAll .empty sampleOps :=
  ⟨by decide, by decide, menu_forest wellFormed_empty (run_execAll _ _)⟩

end Totem.Website
