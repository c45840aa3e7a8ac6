import Totem.Website.MenuService

/-!
# Totem.Website.MenuSave — the admin's writer of menu items

`Menu.save()` writes the path of the item itself and recomputes those of the rows that still start with the old one.
`MenuService.update` checks the move and recomputes them all.

* `recomputeBelow_path`: what the second statement leaves, whether the new parent is below the item or not.
* `save_agrees_iff`: the moves on which the two writers agree.
-/

namespace Totem.Website

open Totem.Lib Totem.Lib.Forest

/-! ## The writer -/

/-- What `save()` raises. -/
inductive SaveError
  /-- No such row, on loading the item or its parent. -/
  | doesNotExist
  | integrityError
deriving DecidableEq

/-- `self.parent`. -/
def loadParent (t : Menus) : Option Ulid → Option (Option (Ulid × Menu))
  | none => some none
  | some p => (t.get p).map fun pm => some (p, pm)

/-- The row that `super().save()` writes. -/
def savedRow (parent : Option (Ulid × Menu)) (k : Ulid) (m : Menu) : Menu :=
  { m with
    parent := parent.map Prod.fst
    parentPath :=
      match parent with
      | some (_, pm) => addToPath pm.parentPath k
      | none => addToPath "" k }

/-- The rows with `parent_path__startswith=old`. -/
def startingWith (old : String) (t : Menus) : Finset Ulid :=
  t.find fun _ m => old.toList.isPrefixOf m.parentPath.toList

/-- What `recompute_parent_store` writes to them. -/
def restoreBelow (old : String) (t : Menus) : Menus :=
  t.map fun k m => if k ∈ startingWith old t then restorePath t k m else m

/-- `recompute_parent_store` on the rows with `parent_path__startswith=old`. -/
def recomputeBelow (old : String) (t : Menus) : Except SaveError Menus :=
  if ((restoreBelow old t).filter fun k m => decide (k ∈ startingWith old t) && !rowOk m).keys.Nonempty then
    .error .integrityError
  else .ok (restoreBelow old t)

/-- `Menu.save()` of an item just loaded whose parent was set.  The admin saves in a transaction; elsewhere each
statement commits. -/
def save (inTransaction : Bool) (k : Ulid) (parent : Option Ulid) (t : Menus) : Except SaveError Unit × Menus :=
  match t.get k, loadParent t parent with
  | some m, some p =>
    if !rowOk (savedRow p k m) then (.error .integrityError, t)
    else if m.parentPath = "" then (.ok (), t.insert k (savedRow p k m))
    else
      match recomputeBelow m.parentPath (t.insert k (savedRow p k m)) with
      | .ok t' => (.ok (), t')
      | .error e => (.error e, if inTransaction then t else t.insert k (savedRow p k m))
  | _, _ => (.error .doesNotExist, t)

/-- `MenuService.update` of the item with that parent, by a user every record is open to. -/
def serviceMove (k : Ulid) (parent : Option Ulid) (t : Menus) : Except MenuError ℕ × Menus :=
  update everything (fun _ j _ => decide (j = k)) ⟨none, some (parent.map Ulid.val), none, none, none, none⟩ t

/-- A stored forest: well formed, with rows the database takes. -/
structure Stored (t : Menus) : Prop where
  wellFormed : WellFormed t
  rowOk : ∀ k m, t.get k = some m → rowOk m = true

/-! ## When the writers agree -/

/-- `saved` against `moved`, what the service does: it refuses and changes nothing, or it leaves the same parents and
paths; it refuses what the service refuses, and leaves no cycle. -/
structure Agrees (t : Menus) (saved : Except SaveError Unit × Menus) (moved : Except MenuError ℕ × Menus) : Prop where
  refused : ∀ e, saved.1 = .error e → saved.2 = t
  same : saved.1 = .ok () → ∀ k, (saved.2.get k).map (fun m => (m.parent, m.parentPath)) =
    (moved.2.get k).map fun m => (m.parent, m.parentPath)
  follows : ∀ e, moved.1 = .error e → ∃ e', saved.1 = .error e'
  acyclic : Acyclic (up saved.2)

/-- The database takes the row that `save()` writes: it has a page or a link unless it is a root, and its path fits. -/
def Writable (t : Menus) (k : Ulid) (parent : Option Ulid) : Prop :=
  ∃ m p, t.get k = some m ∧ loadParent t parent = some p ∧ rowOk (savedRow p k m) = true

/-- The new parent is the item itself, or hangs below it. -/
def UnderItself (t : Menus) (k : Ulid) (parent : Option Ulid) : Prop :=
  ∃ p l, parent = some p ∧ Ancestry (up t) p l ∧ k ∈ l

/-- A row below the item gets a path that does not fit its column. -/
def Overflows (t : Menus) (k : Ulid) (parent : Option Ulid) : Prop :=
  ∃ m p, t.get k = some m ∧ loadParent t parent = some p ∧ ∃ d l r, Ancestry (up t) k l ∧
    Ancestry (up t) d (l ++ r) ∧ 256 < (savedRow p k m).parentPath.length + (pathString r).length

/-! ## Paths -/

theorem pathString_append (l r : List Ulid) : pathString (l ++ r) = pathString l ++ pathString r := by
  apply String.toList_inj.mp
  rw [String.toList_append, toList_pathString, toList_pathString, toList_pathString, List.map_append,
    List.flatten_append]

theorem pathString_ne_empty {up : Ulid → Option (Option Ulid)} {k : Ulid} {l : List Ulid} (h : Ancestry up k l) :
    pathString l ≠ "" := by
  intro hempty
  have hmem : k.val.toList ∈ splitPath (pathString l) := mem_splitPath.mpr h.self_mem
  rw [hempty] at hmem
  exact k.ne_empty (List.mem_singleton.mp hmem)

theorem rowOk_restore {m m' : Menu} (hm : rowOk m = true)
    (hsame : m'.parent = m.parent ∧ m'.link = m.link ∧ m'.page = m.page) :
    rowOk m' = true ↔ m'.parentPath.length ≤ 256 := by
  unfold rowOk pageOrLink at hm ⊢
  rw [hsame.1, hsame.2.1, hsame.2.2]
  rw [Bool.and_eq_true] at hm ⊢
  rw [decide_eq_true_eq]
  exact and_iff_right hm.1

theorem restorePath_fields (t : Menus) (k : Ulid) (m : Menu) : (restorePath t k m).parent = m.parent ∧
    (restorePath t k m).link = m.link ∧ (restorePath t k m).page = m.page := by
  unfold restorePath
  split <;> exact ⟨rfl, rfl, rfl⟩

/-- A row the recursion reaches gets the path of its ancestry, any other keeps its own. -/
theorem restorePath_of_ancestry {t : Menus} {k : Ulid} {m : Menu} {l : List Ulid} (h : Ancestry (up t) k l) :
    (restorePath t k m).parentPath = pathString l := by
  rw [restorePath, parentStoreCompute_get.mpr ⟨l, h, rfl⟩]

theorem restorePath_of_not {t : Menus} {k : Ulid} {m : Menu} (h : ∀ l, ¬ Ancestry (up t) k l) :
    restorePath t k m = m := by
  have hnone : (parentStoreCompute t).get k = none := by
    rw [Option.eq_none_iff_forall_ne_some]
    intro path hpath
    obtain ⟨l, hl, -⟩ := parentStoreCompute_get.mp hpath
    exact h l hl
  rw [restorePath, hnone]

/-! ## The two statements -/

section Statements

variable {t : Menus} {k : Ulid} {m row : Menu}

theorem up_insert_self : up (t.insert k row) k = some row.parent := up_eq (Table.get_insert_self k row t)

theorem up_insert_of_ne {a : Ulid} (h : a ≠ k) : up (t.insert k row) a = up t a := by
  simp only [up, Table.get_insert_of_ne h]

theorem up_restoreBelow (old : String) : up (restoreBelow old t) = up t := by
  apply up_congr
  intro a
  rw [restoreBelow, Table.get_map, Option.map_map]
  congr 1
  funext m
  show (if a ∈ startingWith old t then restorePath t a m else m).parent = m.parent
  split_ifs
  · exact (restorePath_fields t a m).1
  · rfl

/-- The rows below the item start with its old path. -/
theorem mem_startingWith {lk r : List Ulid} {d : Ulid} {md : Menu} (hd : t.get d = some md)
    (hpath : md.parentPath = pathString (lk ++ r)) : d ∈ startingWith (pathString lk) t := by
  refine Table.mem_find.mpr ⟨md, hd, ?_⟩
  rw [hpath, pathString_append, String.toList_append, List.isPrefixOf_iff_prefix]
  exact List.prefix_append ..

/-- **What the second statement leaves**: the path of its ancestry on every row that has one. -/
theorem recomputeBelow_path (h : WellFormed t) (hm : t.get k = some m)
    (hrow : ∀ l, Ancestry (up (t.insert k row)) k l → row.parentPath = pathString l) {d : Ulid} {md : Menu}
    (hd : (restoreBelow m.parentPath (t.insert k row)).get d = some md) {l : List Ulid}
    (hl : Ancestry (up (t.insert k row)) d l) : md.parentPath = pathString l := by
  rw [restoreBelow, Table.get_map, Option.map_eq_some_iff] at hd
  obtain ⟨m₁, hm₁, rfl⟩ := hd
  split_ifs with hstarts
  · exact restorePath_of_ancestry hl
  · by_cases hdk : d = k
    · subst hdk
      rw [Table.get_insert_self] at hm₁
      obtain rfl := Option.some.inj hm₁
      exact hrow l hl
    · have hold : t.get d = some m₁ := by rwa [Table.get_insert_of_ne hdk] at hm₁
      have hk : k ∉ l := by
        intro hmem
        obtain ⟨lk, hlk, hpath⟩ := h k m hm
        obtain ⟨l₁, h₁, -⟩ := hl.of_mem hmem
        obtain ⟨r, -, hr⟩ := hl.graft hmem (fun a ha => (up_insert_of_ne ha).symm) h₁ hlk
        refine hstarts ?_
        rw [hpath]
        exact mem_startingWith hm₁ (h.path_eq hold hr)
      refine h.path_eq hold (hl.congr fun a ha => (up_insert_of_ne ?_).symm)
      rintro rfl
      exact hk ha

/-- The second statement fails only on a path that is too long. -/
theorem recomputeBelow_error {old : String} (hrows : ∀ d md, t.get d = some md → rowOk md = true) :
    (∃ e, recomputeBelow old t = .error e) ↔
      ∃ d md, d ∈ startingWith old t ∧ (restoreBelow old t).get d = some md ∧ 256 < md.parentPath.length := by
  have hrestored : ∀ d md, (restoreBelow old t).get d = some md →
      (rowOk md = true ↔ md.parentPath.length ≤ 256) := by
    intro d md hd
    rw [restoreBelow, Table.get_map, Option.map_eq_some_iff] at hd
    obtain ⟨m₁, hm₁, rfl⟩ := hd
    split_ifs
    · exact rowOk_restore (hrows d m₁ hm₁) (restorePath_fields t d m₁)
    · exact rowOk_restore (hrows d m₁ hm₁) ⟨rfl, rfl, rfl⟩
  unfold recomputeBelow
  constructor
  · rintro ⟨e, he⟩
    split_ifs at he with hne
    obtain ⟨d, hd⟩ := hne
    obtain ⟨md, hmd⟩ := Table.mem_keys_iff.mp hd
    rw [Table.get_filter, Option.filter_eq_some_iff, Bool.and_eq_true, decide_eq_true_eq, Bool.not_eq_true'] at hmd
    refine ⟨d, md, hmd.2.1, hmd.1, ?_⟩
    by_contra hle
    rw [(hrestored d md hmd.1).mpr (not_lt.mp hle)] at hmd
    cases hmd.2.2
  · rintro ⟨d, md, hstarts, hmd, hlong⟩
    refine ⟨.integrityError, if_pos ⟨d, Table.mem_keys_of_get (r := md) ?_⟩⟩
    rw [Table.get_filter, Option.filter_eq_some_iff, Bool.and_eq_true, decide_eq_true_eq, Bool.not_eq_true']
    refine ⟨hmd, hstarts, ?_⟩
    by_contra hok
    have hle := (hrestored d md hmd).mp (by simpa using hok)
    omega

end Statements

/-! ## A move -/

section Move

variable {t : Menus} {k : Ulid} {parent : Option Ulid} {m : Menu} {p : Option (Ulid × Menu)}

theorem loadParent_get (hp : loadParent t parent = some p) : parent = p.map Prod.fst ∧
    ∀ q pm, p = some (q, pm) → t.get q = some pm := by
  cases parent with
  | none =>
    obtain rfl := Option.some.inj hp
    refine ⟨rfl, ?_⟩
    intro q pm h
    cases h
  | some q =>
    obtain ⟨pm, hpm, rfl⟩ := Option.map_eq_some_iff.mp hp
    refine ⟨rfl, ?_⟩
    intro q' pm' h
    obtain ⟨rfl, rfl⟩ := Prod.mk.inj (Option.some.inj h)
    exact hpm

/-- The parents once the row of the item is written. -/
theorem up_saved (hm : t.get k = some m) :
    up (t.insert k (savedRow p k m)) = reparent (up t) (· ∈ ({k} : Finset Ulid)) (p.map Prod.fst) := by
  funext a
  by_cases ha : a = k
  · subst ha
    rw [up_insert_self, reparent, if_pos (Finset.mem_singleton_self a), up_eq hm]
    rfl
  · rw [up_insert_of_ne ha, reparent, if_neg (by simpa using ha)]

/-- What the guard of the service establishes. -/
theorem validateData_eq_none (h : WellFormed t) (hp : loadParent t parent = some p) :
    validateData (some p) k = none ↔ ¬ UnderItself t k parent := by
  obtain ⟨rfl, hget⟩ := loadParent_get hp
  cases p with
  | none =>
    refine iff_of_true rfl ?_
    rintro ⟨q, l, hq, -⟩
    cases hq
  | some x =>
    obtain ⟨q, pm⟩ := x
    obtain ⟨lq, hlq, hpath⟩ := h q pm (hget q pm rfl)
    have hunder : UnderItself t k ((some (q, pm)).map Prod.fst) ↔ k ∈ lq := by
      constructor
      · rintro ⟨q', l, hq, hl, hmem⟩
        obtain rfl := Option.some.inj hq
        rwa [hl.unique hlq] at hmem
      · exact fun hmem => ⟨q, lq, rfl, hlq, hmem⟩
    rw [hunder, ← mem_splitPath, ← hpath]
    unfold validateData
    simp only
    by_cases hqk : q = k
    · rw [if_pos hqk]
      refine iff_of_false (by simp) fun hmem => hmem ?_
      rw [hpath, mem_splitPath]
      exact hqk ▸ hlq.self_mem
    · rw [if_neg hqk]
      split_ifs with hmem <;> simp [hmem]

section Elsewhere

variable (h : Stored t) (hm : t.get k = some m) (hp : loadParent t parent = some p) (hfree : ¬ UnderItself t k parent)

include h hp hfree in
theorem parent_free :
    ∀ q, p.map Prod.fst = some q → ∃ lq, Ancestry (up t) q lq ∧ ∀ a ∈ lq, a ∉ ({k} : Finset Ulid) := by
  obtain ⟨rfl, hget⟩ := loadParent_get hp
  intro q hq
  obtain ⟨⟨q', pm⟩, rfl, rfl⟩ := Option.map_eq_some_iff.mp hq
  obtain ⟨l, hl, -⟩ := h.wellFormed q' pm (hget q' pm rfl)
  refine ⟨l, hl, fun a ha hmem => hfree ⟨q', l, rfl, hl, ?_⟩⟩
  rwa [← Finset.mem_singleton.mp hmem]

include h hm hp hfree in
theorem grounded_saved : Grounded (up (t.insert k (savedRow p k m))) := by
  rw [up_saved hm]
  exact h.wellFormed.grounded.reparent (parent_free h hp hfree)

include h hm hp hfree in
/-- The path that `save()` gives to the item is that of its new ancestry. -/
theorem savedRow_path {l : List Ulid} (hl : Ancestry (up (t.insert k (savedRow p k m))) k l) :
    (savedRow p k m).parentPath = pathString l := by
  have hself : up (t.insert k (savedRow p k m)) k = some (p.map Prod.fst) := up_insert_self
  obtain ⟨hparent, hget⟩ := loadParent_get hp
  cases p with
  | none => rw [hl.unique (.root hself)]; rfl
  | some x =>
    obtain ⟨q, pm⟩ := x
    obtain ⟨lq, hlq, hk⟩ := parent_free h hp hfree q rfl
    have hq : Ancestry (up (t.insert k (savedRow (some (q, pm)) k m))) q lq := by
      refine hlq.congr fun a ha => up_insert_of_ne ?_
      rintro rfl
      exact hk a ha (Finset.mem_singleton_self a)
    rw [hl.unique (.child hself hq), pathString_concat, ← h.wellFormed.path_eq (hget q pm rfl) hlq]
    rfl

include h hm hp hfree in
/-- The new paths fit, unless one of a row below the item does not. -/
theorem length_path_le (hfits : ¬ Overflows t k parent) {d : Ulid} {l : List Ulid}
    (hl : Ancestry (up (t.insert k (savedRow p k m))) d l) : (pathString l).length ≤ 256 := by
  by_cases hk : k ∈ l
  · obtain ⟨lk, hlk, -⟩ := h.wellFormed k m hm
    obtain ⟨l₁, h₁, -⟩ := hl.of_mem hk
    obtain ⟨r, rfl, hr⟩ := hl.graft hk (fun a ha => (up_insert_of_ne ha).symm) h₁ hlk
    by_contra hlong
    refine hfits ⟨m, p, hm, hp, d, lk, r, hlk, hr, ?_⟩
    rw [savedRow_path h hm hp hfree h₁, ← String.length_append, ← pathString_append]
    exact not_le.mp hlong
  · have hold : Ancestry (up t) d l := hl.congr fun a ha => (up_insert_of_ne (by rintro rfl; exact hk ha)).symm
    obtain ⟨md, hmd⟩ := up_ne_none.mp hold.ne_none
    have hok := h.rowOk d md hmd
    rw [rowOk, Bool.and_eq_true, decide_eq_true_eq] at hok
    rw [← h.wellFormed.path_eq hmd hold]
    exact hok.2

include h hm hp hfree in
/-- **A move elsewhere** leaves a well-formed forest. -/
theorem wellFormed_saved : WellFormed (restoreBelow m.parentPath (t.insert k (savedRow p k m))) := by
  intro d md hd
  obtain ⟨l, hl⟩ := grounded_saved h hm hp hfree d (by rw [← up_restoreBelow m.parentPath, up_eq hd]; simp)
  refine ⟨l, by rwa [up_restoreBelow], ?_⟩
  exact recomputeBelow_path h.wellFormed hm (fun _ => savedRow_path h hm hp hfree) hd hl

end Elsewhere

/-! ## What the writers do -/

section Writers

variable (h : Stored t) (hm : t.get k = some m) (hp : loadParent t parent = some p)
  (hok : rowOk (savedRow p k m) = true)

include h hok in
theorem rowOk_saved {d : Ulid} {md : Menu} (hd : (t.insert k (savedRow p k m)).get d = some md) : rowOk md = true := by
  by_cases hdk : d = k
  · subst hdk
    rw [Table.get_insert_self] at hd
    obtain rfl := Option.some.inj hd
    exact hok
  · exact h.rowOk d md (by rwa [Table.get_insert_of_ne hdk] at hd)

theorem recomputeBelow_cases (old : String) (t : Menus) :
    recomputeBelow old t = .ok (restoreBelow old t) ∨ recomputeBelow old t = .error .integrityError := by
  unfold recomputeBelow
  split_ifs
  · exact .inr rfl
  · exact .inl rfl

include h hm hp hok in
theorem save_eq (inTransaction : Bool) : save inTransaction k parent t =
    match recomputeBelow m.parentPath (t.insert k (savedRow p k m)) with
    | .ok t' => (.ok (), t')
    | .error e => (.error e, if inTransaction then t else t.insert k (savedRow p k m)) := by
  obtain ⟨l, hl, hpath⟩ := h.wellFormed k m hm
  have hne : m.parentPath ≠ "" := hpath ▸ pathString_ne_empty hl
  unfold save
  rw [hm, hp]
  simp only [hok, hne, Bool.not_true, Bool.false_eq_true, if_false]

include h hm hp hok in
/-- The paths all fit: the second statement succeeds. -/
theorem save_ok (hfits : ∀ d md, (restoreBelow m.parentPath (t.insert k (savedRow p k m))).get d = some md →
    md.parentPath.length ≤ 256) (inTransaction : Bool) :
    save inTransaction k parent t = (.ok (), restoreBelow m.parentPath (t.insert k (savedRow p k m))) := by
  rw [save_eq h hm hp hok]
  rcases recomputeBelow_cases m.parentPath (t.insert k (savedRow p k m)) with heq | heq
  · rw [heq]
  · obtain ⟨d, md, -, hmd, hlong⟩ := (recomputeBelow_error fun _ _ => rowOk_saved h hok).mp ⟨_, heq⟩
    exact absurd (hfits d md hmd) (not_le.mpr hlong)

include h hm hp hok in
/-- **The item is moved elsewhere and the paths fit**: `save()` leaves a well-formed forest. -/
theorem save_elsewhere (hfree : ¬ UnderItself t k parent) (hfits : ¬ Overflows t k parent) (inTransaction : Bool) :
    save inTransaction k parent t = (.ok (), restoreBelow m.parentPath (t.insert k (savedRow p k m))) := by
  refine save_ok h hm hp hok (fun d md hd => ?_) inTransaction
  obtain ⟨l, hl⟩ := grounded_saved h hm hp hfree d (by rw [← up_restoreBelow m.parentPath, up_eq hd]; simp)
  rw [recomputeBelow_path h.wellFormed hm (fun _ => savedRow_path h hm hp hfree) hd hl]
  exact length_path_le h hm hp hfree hfits hl

include h hm hp hok in
/-- **A path below the item does not fit**: the first statement has been executed. -/
theorem save_overflows (hfree : ¬ UnderItself t k parent) (hlong : Overflows t k parent) (inTransaction : Bool) :
    save inTransaction k parent t =
        (.error .integrityError, if inTransaction then t else t.insert k (savedRow p k m)) ∧
      t.insert k (savedRow p k m) ≠ t := by
  obtain ⟨m', p', hm', hp', d, lk, r, hlk, hd, hlength⟩ := hlong
  obtain rfl := Option.some.inj (hm'.symm.trans hm)
  obtain rfl := Option.some.inj (hp'.symm.trans hp)
  have hr : r ≠ [] := by
    rintro rfl
    rw [rowOk, Bool.and_eq_true, decide_eq_true_eq] at hok
    have hle := hok.2
    have hzero : (pathString []).length = 0 := rfl
    omega
  have hdk : d ≠ k := by
    rintro rfl
    have heq : lk ++ r = lk ++ [] := by rw [hd.unique hlk, List.append_nil]
    exact hr (List.append_cancel_left heq)
  have hkd : k ∈ lk ++ r := List.mem_append_left _ hlk.self_mem
  have hpath : m'.parentPath = pathString lk := h.wellFormed.path_eq hm hlk
  obtain ⟨md, hmd⟩ := up_ne_none.mp hd.ne_none
  have hmdpath : md.parentPath = pathString (lk ++ r) := h.wellFormed.path_eq hmd hd
  have hmd' : (t.insert k (savedRow p' k m')).get d = some md := by rwa [Table.get_insert_of_ne hdk]
  obtain ⟨l₁, h₁⟩ := grounded_saved h hm hp hfree k (by rw [up_insert_self]; simp)
  have hlong : 256 < (pathString (l₁ ++ r)).length := by
    rw [pathString_append, String.length_append, ← savedRow_path h hm hp hfree h₁]
    exact hlength
  constructor
  · have herror : recomputeBelow m'.parentPath (t.insert k (savedRow p' k m')) = .error .integrityError := by
      obtain ⟨r', hr', hd'⟩ := hd.graft hkd (fun a ha => up_insert_of_ne ha) hlk h₁
      obtain rfl := List.append_cancel_left hr'
      have hstarts : d ∈ startingWith m'.parentPath (t.insert k (savedRow p' k m')) := by
        rw [hpath]
        exact mem_startingWith hmd' hmdpath
      have hrestored : (restoreBelow m'.parentPath (t.insert k (savedRow p' k m'))).get d =
          some (restorePath (t.insert k (savedRow p' k m')) d md) := by
        rw [restoreBelow, Table.get_map, hmd', Option.map_some, if_pos hstarts]
      obtain ⟨e, he⟩ := (recomputeBelow_error fun _ _ => rowOk_saved h hok).mpr
        ⟨d, _, hstarts, hrestored, by rwa [restorePath_of_ancestry hd']⟩
      refine (recomputeBelow_cases m'.parentPath (t.insert k (savedRow p' k m'))).resolve_left fun hnot => ?_
      rw [hnot] at he
      cases he
    rw [save_eq h hm hp hok, herror]
  · intro heq
    have hself : t.get k = some (savedRow p' k m') := by rw [← heq, Table.get_insert_self]
    have hsame : m'.parentPath = (savedRow p' k m').parentPath :=
      congrArg Menu.parentPath (Option.some.inj (hm.symm.trans hself))
    have hfits := h.rowOk d md hmd
    rw [rowOk, Bool.and_eq_true, decide_eq_true_eq, hmdpath, pathString_append, String.length_append, ← hpath,
      hsame] at hfits
    omega

include h hm hp hok in
/-- **The item is moved under itself**: `save()` takes it, and the item hangs from no root any more. -/
theorem save_underItself (hunder : UnderItself t k parent) (inTransaction : Bool) :
    ∃ t', save inTransaction k parent t = (.ok (), t') := by
  obtain ⟨q, lq, rfl, hlq, hmem⟩ := hunder
  have hself : up (t.insert k (savedRow p k m)) k = some (some q) := by
    rw [up_insert_self]
    exact congrArg some (loadParent_get hp).1.symm
  have hlost := not_ancestry_of_below hlq hmem (fun a ha => up_insert_of_ne ha) hself
  refine ⟨_, save_ok h hm hp hok (fun d md hd => ?_) inTransaction⟩
  by_cases hl : ∃ l, Ancestry (up (t.insert k (savedRow p k m))) d l
  · obtain ⟨l, hl⟩ := hl
    have hk : k ∉ l := by
      intro hk
      obtain ⟨l₁, h₁, -⟩ := hl.of_mem hk
      exact hlost l₁ h₁
    have hold : Ancestry (up t) d l := hl.congr fun a ha => (up_insert_of_ne (by rintro rfl; exact hk ha)).symm
    obtain ⟨m₁, hm₁⟩ := up_ne_none.mp hold.ne_none
    have hfits := h.rowOk d m₁ hm₁
    rw [rowOk, Bool.and_eq_true, decide_eq_true_eq, h.wellFormed.path_eq hm₁ hold] at hfits
    rw [recomputeBelow_path h.wellFormed hm (fun l hl => absurd hl (hlost l)) hd hl]
    exact hfits.2
  · rw [restoreBelow, Table.get_map, Option.map_eq_some_iff] at hd
    obtain ⟨m₁, hm₁, rfl⟩ := hd
    have hfits := rowOk_saved h hok hm₁
    rw [rowOk, Bool.and_eq_true, decide_eq_true_eq] at hfits
    rw [restorePath_of_not fun l h => hl ⟨l, h⟩, ite_self]
    exact hfits.2

/-! ### The service -/

/-- The values of the move. -/
def moveData (parent : Option Ulid) : MenuUpdate := ⟨none, some (parent.map Ulid.val), none, none, none, none⟩

include hp in
theorem resolveParent_eq : resolveParent everything t (parent.map Ulid.val) = .ok p := by
  cases parent with
  | none =>
    obtain rfl := Option.some.inj hp
    rfl
  | some q =>
    obtain ⟨pm, hpm, rfl⟩ := Option.map_eq_some_iff.mp hp
    show resolveParent everything t (some q.val) = _
    unfold resolveParent
    simp only [dif_pos (And.intro q.ne_empty q.no_slash)]
    have hget : t.get ⟨q.val, q.ne_empty, q.no_slash⟩ = some pm := hpm
    rw [hget]
    rfl

include hp in
theorem serviceMove_eq : serviceMove k parent t =
    atomic (updateAtomic everything (fun _ j _ => decide (j = k)) (moveData parent) (some p) none) t := by
  have hparent : (some (parent.map Ulid.val)).mapM (resolveParent everything t) = .ok (some p) := by
    rw [Option.mapM_some, resolveParent_eq hp]
    rfl
  unfold serviceMove update
  rw [hparent]
  rfl

include hm in
theorem find_item : (t.find fun j md => everything.updates t j md && decide (j = k)) = {k} := by
  ext j
  rw [Table.mem_find, Finset.mem_singleton]
  constructor
  · rintro ⟨md, -, hj⟩
    simpa [everything] using hj
  · rintro rfl
    exact ⟨m, hm, by simp [everything]⟩

include hm hp in
/-- **The service refuses a move under the item itself.** -/
theorem serviceMove_refused (hwf : WellFormed t) (hunder : UnderItself t k parent) :
    ∃ e, (serviceMove k parent t).1 = .error e := by
  obtain ⟨invalid, hinvalid⟩ := Option.ne_none_iff_exists'.mp
    fun hnone => (validateData_eq_none hwf hp).mp hnone hunder
  have herror : ∃ e, updateAtomic everything (fun _ j _ => decide (j = k)) (moveData parent) (some p) none t
      = .error e := by
    unfold updateAtomic
    simp only
    rw [find_item hm, if_pos]
    · exact ⟨_, rfl⟩
    · refine ⟨k, Table.mem_keys_of_get (r := invalid) ?_⟩
      rw [Table.get_filterMap, hm, Option.bind_some, if_pos (Finset.mem_singleton_self k), hinvalid]
  obtain ⟨e, he⟩ := herror
  exact ⟨e, by rw [serviceMove_eq hp, atomic_error he]⟩

include h hm hp hok in
/-- **The service makes any other move**, and leaves the paths of the new ancestries. -/
theorem serviceMove_elsewhere (hfree : ¬ UnderItself t k parent) (hfits : ¬ Overflows t k parent) :
    ∃ t', serviceMove k parent t = (.ok 1, t') ∧ WellFormed t' ∧
      up t' = up (t.insert k (savedRow p k m)) := by
  have hguard : validateData (some p) k = none := (validateData_eq_none h.wellFormed hp).mpr hfree
  have hget := (loadParent_get hp).2
  set moved := t.map fun j md => if j ∈ ({k} : Finset Ulid) then (moveData parent).write (some p) none md else md with
    hmoved
  have hup : up moved = up (t.insert k (savedRow p k m)) := by
    rw [hmoved, up_move, up_saved hm]
  have hwf : WellFormed (recomputeParentStore moved) := h.wellFormed.move hget fun j hj => by
    rwa [Finset.mem_singleton.mp hj]
  have hfields : ∀ j md, moved.get j = some md → pageOrLink md = true := by
    intro j md hj
    rw [hmoved, Table.get_map, Option.map_eq_some_iff] at hj
    obtain ⟨m₁, hm₁, rfl⟩ := hj
    by_cases hjk : j = k
    · subst hjk
      obtain rfl := Option.some.inj (hm₁.symm.trans hm)
      rw [if_pos (Finset.mem_singleton_self j)]
      rw [rowOk, Bool.and_eq_true] at hok
      exact hok.1
    · rw [if_neg (by simpa using hjk)]
      have hold := h.rowOk j m₁ hm₁
      rw [rowOk, Bool.and_eq_true] at hold
      exact hold.1
  refine ⟨recomputeParentStore moved, ?_, hwf, by rw [up_recomputeParentStore, hup]⟩
  have hquery : queryUpdate (moveData parent) (some p) none {k} t = .ok (recomputeParentStore moved) := by
    unfold queryUpdate
    simp only
    rw [← hmoved, if_neg, if_neg]
    · rintro ⟨j, hj⟩
      obtain ⟨md, hmd⟩ := Table.mem_keys_iff.mp hj
      rw [Table.get_filter, Option.filter_eq_some_iff, Bool.not_eq_true'] at hmd
      obtain ⟨m₁, hm₁, hrestored⟩ := Option.map_eq_some_iff.mp hmd.1
      obtain ⟨l, hl, hpath⟩ := hwf j md hmd.1
      rw [up_recomputeParentStore, hup] at hl
      have hsame := restorePath_fields moved j m₁
      rw [hrestored] at hsame
      have hokay : rowOk md = true := by
        rw [rowOk, pageOrLink, hsame.1, hsame.2.1, hsame.2.2, Bool.and_eq_true, decide_eq_true_eq, hpath]
        exact ⟨hfields j m₁ hm₁, length_path_le h hm hp hfree hfits hl⟩
      rw [hokay] at hmd
      cases hmd.2
    · rintro ⟨j, hj⟩
      obtain ⟨md, hmd⟩ := Table.mem_keys_iff.mp hj
      rw [Table.get_filter, Option.filter_eq_some_iff, Bool.and_eq_true, Bool.not_eq_true'] at hmd
      rw [hfields j md hmd.1] at hmd
      cases hmd.2.2
  rw [serviceMove_eq hp]
  apply atomic_ok
  unfold updateAtomic
  simp only
  rw [find_item hm, if_neg, if_neg (Finset.singleton_ne_empty k), hquery]
  · rfl
  · rintro ⟨j, hj⟩
    obtain ⟨e, he⟩ := Table.mem_keys_iff.mp hj
    obtain ⟨md, -, he⟩ := Option.bind_eq_some_iff.mp he
    dsimp only at he
    split_ifs at he with hjk
    rw [Finset.mem_singleton.mp hjk, hguard] at he
    cases he

end Writers

/-! ## The moves on which they agree -/

/-- Two well-formed tables with the same parents have the same paths. -/
theorem same_paths {t u : Menus} (ht : WellFormed t) (hu : WellFormed u) (hup : up t = up u) (k : Ulid) :
    (t.get k).map (fun m => (m.parent, m.parentPath)) = (u.get k).map fun m => (m.parent, m.parentPath) := by
  have hk := congrFun hup k
  unfold up at hk
  cases hm : t.get k with
  | none =>
    rw [hm, Option.map_none, eq_comm, Option.map_eq_none_iff] at hk
    rw [hk]
  | some m =>
    rw [hm, Option.map_some, eq_comm, Option.map_eq_some_iff] at hk
    obtain ⟨m', hm', hparent⟩ := hk
    obtain ⟨l, hl, hpath⟩ := ht k m hm
    rw [hm', Option.map_some, Option.map_some, hparent, hpath, hu.path_eq hm' (hup ▸ hl)]

/-- Nothing has been written. -/
theorem agrees_of_refused (h : Stored t) {saved : Except SaveError Unit × Menus} {e : SaveError}
    (herror : saved.1 = .error e) (hkept : saved.2 = t) (moved : Except MenuError ℕ × Menus) : Agrees t saved moved where
  refused _ _ := hkept
  same hdone := by
    rw [herror] at hdone
    cases hdone
  follows _ _ := ⟨e, herror⟩
  acyclic := by
    rw [hkept]
    exact h.wellFormed.grounded.acyclic

theorem save_of_not_writable (hnot : ¬ Writable t k parent) (inTransaction : Bool) :
    ∃ e, save inTransaction k parent t = (.error e, t) := by
  unfold save
  split
  · next m p hm hp =>
    have hrefused : rowOk (savedRow p k m) = false := by
      rw [← Bool.not_eq_true]
      exact fun hok => hnot ⟨m, p, hm, hp, hok⟩
    rw [hrefused]
    exact ⟨.integrityError, rfl⟩
  · exact ⟨.doesNotExist, rfl⟩

/-- **`Menu.save()` and `MenuService.update` agree on a move exactly when** the database refuses the row, or the new
parent is not below the item and, outside of a transaction, every new path fits its column. -/
theorem save_agrees_iff (h : Stored t) (inTransaction : Bool) (k : Ulid) (parent : Option Ulid) :
    Agrees t (save inTransaction k parent t) (serviceMove k parent t) ↔
      (Writable t k parent → ¬ UnderItself t k parent ∧ (inTransaction = true ∨ ¬ Overflows t k parent)) := by
  by_cases hwritable : Writable t k parent
  · obtain ⟨m, p, hm, hp, hok⟩ := hwritable
    rw [forall_prop_of_true ⟨m, p, hm, hp, hok⟩]
    by_cases hunder : UnderItself t k parent
    · refine iff_of_false (fun hagrees => ?_) fun hcond => hcond.1 hunder
      obtain ⟨t', ht'⟩ := save_underItself h hm hp hok hunder inTransaction
      obtain ⟨e, he⟩ := serviceMove_refused hm hp h.wellFormed hunder
      obtain ⟨e', he'⟩ := hagrees.follows e he
      rw [ht'] at he'
      cases he'
    · by_cases hlong : Overflows t k parent
      · obtain ⟨hsave, hchanged⟩ := save_overflows h hm hp hok hunder hlong inTransaction
        cases inTransaction with
        | true => exact iff_of_true (agrees_of_refused h (by rw [hsave]) (by rw [hsave]; rfl) _) ⟨hunder, .inl rfl⟩
        | false =>
          refine iff_of_false (fun hagrees => hchanged ?_) fun hcond => (hcond.2.resolve_left (by simp)) hlong
          have hkept := hagrees.refused .integrityError (by rw [hsave])
          rwa [hsave] at hkept
      · refine iff_of_true ?_ ⟨hunder, .inr hlong⟩
        have hsave := save_elsewhere h hm hp hok hunder hlong inTransaction
        have hwf := wellFormed_saved h hm hp hunder
        obtain ⟨t', hmoved, hwf', hup⟩ := serviceMove_elsewhere h hm hp hok hunder hlong
        rw [hsave, hmoved]
        refine ⟨fun e he => ?_, fun _ => same_paths hwf hwf' ?_, fun e he => ?_, hwf.grounded.acyclic⟩
        · cases he
        · rw [up_restoreBelow, hup]
        · cases he
  · refine iff_of_true ?_ fun hnot => absurd hnot hwritable
    obtain ⟨e, he⟩ := save_of_not_writable hwritable inTransaction
    exact agrees_of_refused h (by rw [he]) (by rw [he]) _

end Move

/-! ## `ABOUT` under `HOME` -/

section Sample

def homeItem : Menu := ⟨"home", none, "HOME/", 20, none, some "/", false⟩
def aboutItem : Menu := ⟨"about", some home, "HOME/ABOUT/", 20, none, some "/about", false⟩

def siteMenus : Menus := (Table.empty.insert home homeItem).insert about aboutItem

theorem stored_siteMenus : Stored siteMenus where
  wellFormed := by
    refine (wellFormed_empty.insert rfl (.inl ⟨rfl, ?_⟩)).insert (by decide) (.inr ⟨home, homeItem, ?_, rfl, ?_⟩)
    · decide
    · exact Table.get_insert_self _ _ _
    · decide
  rowOk k m hm := by
    by_cases hk : k = about
    · subst hk
      obtain rfl := Option.some.inj ((Table.get_insert_self _ _ _).symm.trans hm)
      decide
    · rw [siteMenus, Table.get_insert_of_ne hk] at hm
      by_cases hk' : k = home
      · subst hk'
        obtain rfl := Option.some.inj ((Table.get_insert_self _ _ _).symm.trans hm)
        decide
      · rw [Table.get_insert_of_ne hk'] at hm
        cases hm

/-- **The admin may put `HOME` under its own child**: `save()` goes through, and leaves a cycle. -/
theorem save_closes_cycle :
    ¬ ∀ (t : Menus) (inTransaction : Bool) (k : Ulid) (parent : Option Ulid), Stored t →
      Agrees t (save inTransaction k parent t) (serviceMove k parent t) := by
  intro h
  have hagrees := h siteMenus true home (some about) stored_siteMenus
  exact hagrees.acyclic home (.tail (b := about) (.single rfl) rfl)

theorem save_agrees_iff_sample :
    Agrees siteMenus (save true about none siteMenus) (serviceMove about none siteMenus) ↔
      (Writable siteMenus about none →
        ¬ UnderItself siteMenus about none ∧ (true = true ∨ ¬ Overflows siteMenus about none)) :=
  save_agrees_iff stored_siteMenus true about none

end Sample

end Totem.Website
