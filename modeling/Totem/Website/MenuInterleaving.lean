import Totem.Website.MenuService
import Totem.Lib.ReadCommitted

/-!
# Totem.Website.MenuInterleaving — two moves at once

Two clients run one `MenuService.update` with a `parent` each, under READ COMMITTED.  The parent is
resolved before the transaction, so that the guard of `validate_data` reads a path the other client may
have changed by the time the parents are written.

* `statement`: the statements of an update.
* `guarded`: the guard still holds when the parents are written.
* `Phase`: what a client knows at each point; `Phase.own_*` for its own events, `Phase.frame` for a
  commit of the other one.
* `forest_kept`: in a run of guarded steps every committed state is well formed.
-/

namespace Totem.Website

open Totem.Lib Totem.Lib.Forest Totem.Lib.ReadCommitted

/-! ## The statements of an update -/

/-- An update that moves what a filter matches. -/
structure Request where
  acting : Acting
  q : Menus → Ulid → Menu → Bool
  data : MenuUpdate
  parent : Option String

/-- The rows of the queryset. -/
def Request.matches (r : Request) (t : Menus) (k : Ulid) (m : Menu) : Bool :=
  r.acting.updates t k m && r.q t k m

inductive Point
  /-- Before the relations are resolved. -/
  | resolve
  /-- `with transaction.atomic()`. -/
  | read (parent : Option (Ulid × Menu)) (page : Option (Option String))
  /-- The UPDATE of the parents. -/
  | move (parent : Option (Ulid × Menu)) (page : Option (Option String))
  /-- The recursive UPDATE. -/
  | recompute
  /-- The database refused a row. -/
  | raised
  | commit
  | done
  | refused
deriving DecidableEq

/-- Where the resolution of the relations leads, on what it reads. -/
def afterResolve (r : Request) (t : Menus) : Point :=
  if !r.acting.acceptsUpdate r.data then .refused
  else
    match resolveParent r.acting t r.parent, r.data.page.mapM (resolvePage r.acting) with
    | .ok parent, .ok page => .read parent page
    | _, _ => .refused

/-- Where the validation of the rows read leads. -/
def afterRead (r : Request) (parent : Option (Ulid × Menu)) (page : Option (Option String))
    (t : Menus) : Point :=
  let pks := t.find (r.matches t)
  let errors := t.filterMap fun k _ => if k ∈ pks then validateData (some parent) k else none
  if errors.keys.Nonempty then .refused
  else if pks = ∅ then .commit
  else .move parent page

/-- The statement of an update at each point. -/
def statement (r : Request) : Point → Option (Stmt Ulid Menu Point)
  | .resolve => some (.select (afterResolve r))
  | .read parent page => some (.select (afterRead r parent page))
  | .move parent page => some (.modify r.matches (fun _ _ m => some (r.data.write (some parent) page m))
      fun _ rows =>
        if (rows.filter fun _ m => !pageOrLink (r.data.write (some parent) page m)).keys.Nonempty then
          .raised
        else .recompute)
  | .recompute => some (.modify (fun t k _ => ((parentStoreCompute t).get k).isSome)
      (fun t k m => some (restorePath t k m)) fun t rows =>
        if (rows.filter fun k m => !rowOk (restorePath t k m)).keys.Nonempty then .raised
        else .commit)
  | .commit => some (.commit .done)
  | .raised => none
  | .done => none
  | .refused => none

/-- Where a client is left when its transaction is rolled back. -/
def rolledBack : Point → Point
  | .done => .done
  | _ => .refused

/-- The two clients. -/
def program (reqs : Bool → Request) : Program Bool Ulid Menu Point where
  stmt i := statement (reqs i)
  aborted _ := rolledBack

def start (t : Menus) : Config Bool Ulid Menu Point := ⟨t, fun _ => ⟨.resolve, none, .empty⟩⟩

/-- When a client writes the parents, the guard still accepts every row it writes, against the row of
the new parent as it is by then. -/
def guarded (reqs : Bool → Request) (c : Config Bool Ulid Menu Point) : Event Bool → Bool
  | .finish i =>
    match (c.client i).pc, (c.client i).snapshot with
    | .move (some (p, _)) _, some snap =>
      ((c.view i).get p).all fun pm =>
        decide (∀ k ∈ (hits (reqs i).matches snap (c.view i)).keys,
          validateData (some (some (p, pm))) k = none)
    | _, _ => true
  | _ => true

theorem guarded_finish {reqs : Bool → Request} {c : Config Bool Ulid Menu Point} {i : Bool} {p : Ulid}
    {pm pm' : Menu} {page : Option (Option String)} {snap : Menus}
    (h : guarded reqs c (.finish i) = true) (hpc : (c.client i).pc = .move (some (p, pm)) page)
    (hsnap : (c.client i).snapshot = some snap) (hp : (c.view i).get p = some pm') :
    ∀ k ∈ (hits (reqs i).matches snap (c.view i)).keys,
      validateData (some (some (p, pm'))) k = none := by
  simpa [guarded, hpc, hsnap, hp] using h

/-! ## Phases -/

section Phase

variable {reqs : Bool → Request} {c c' : Config Bool Ulid Menu Point} {i j : Bool} {t : Menus}

/-- Rows of the table, rewritten. -/
def Rewrites (w : Table Ulid (Option Menu)) (t : Menus) : Prop :=
  ∀ k o, w.get k = some o → o ≠ none ∧ t.get k ≠ none

/-- The request has been answered. -/
def Over (c : Config Bool Ulid Menu Point) (i : Bool) : Prop :=
  ((c.client i).pc = .done ∨ (c.client i).pc = .refused) ∧ (c.client i).writes = .empty

/-- The other request has been answered. -/
def Alone (c : Config Bool Ulid Menu Point) (i : Bool) : Prop := ∀ j, j ≠ i → Over c j

/-- The new parent is there. -/
def Found (t : Menus) (parent : Option (Ulid × Menu)) : Prop :=
  ∀ p pm, parent = some (p, pm) → t.get p ≠ none

/-- What a client has read and written so far.  Until one of them is over, neither has committed a move:
what a client matched is still there to write, and once it has written, the other one cannot rewrite
the paths. -/
inductive Phase (reqs : Bool → Request) (c : Config Bool Ulid Menu Point) (i : Bool) : Prop
  | resolving (hpc : (c.client i).pc = .resolve) (hw : (c.client i).writes = .empty)
  | reading (parent : Option (Ulid × Menu)) (page : Option (Option String))
      (hpc : (c.client i).pc = .read parent page) (hw : (c.client i).writes = .empty)
      (hp : Found c.committed parent)
  | moving (parent : Option (Ulid × Menu)) (page : Option (Option String))
      (hpc : (c.client i).pc = .move parent page) (hw : (c.client i).writes = .empty)
      (hp : Found c.committed parent)
      (hfresh : Alone c i ∨ (c.committed.find ((reqs i).matches c.committed)).Nonempty ∧
        ∀ t, (c.client i).snapshot = some t → t = c.committed)
  | recomputing (hpc : (c.client i).pc = .recompute) (hw : Rewrites (c.client i).writes c.committed)
      (hg : Grounded (up (c.view i))) (hsnap : ∀ t, (c.client i).snapshot = some t → t = c.view i)
      (hfresh : Alone c i ∨ (c.client i).writes.keys.Nonempty)
  | raised (hpc : (c.client i).pc = .raised) (hw : Rewrites (c.client i).writes c.committed)
  | closing (hpc : (c.client i).pc = .commit) (hw : Rewrites (c.client i).writes c.committed)
      (hwf : WellFormed (c.view i))
      (hall : (c.client i).writes = .empty ∨
        ∀ k, c.committed.get k ≠ none → k ∈ (c.client i).writes.keys)
  | finished (h : Over c i)

theorem Rewrites.empty : Rewrites .empty t := by
  intro k o ho
  simp at ho

theorem view_of_empty (hw : (c.client i).writes = .empty) : c.view i = c.committed := by
  simp [Config.view, hw]

/-- A transaction that rewrites rows adds and removes none. -/
theorem Rewrites.view_ne_none (hw : Rewrites (c.client i).writes c.committed) (k : Ulid) :
    (c.view i).get k ≠ none ↔ c.committed.get k ≠ none := by
  cases hk : (c.client i).writes.get k with
  | none => simp [Config.view, hk]
  | some o =>
    obtain ⟨ho, hne⟩ := hw k o hk
    simp [Config.view, hk, ho, hne]

theorem Rewrites.of_keys {w : Table Ulid (Option Menu)} {t' : Menus} (hw : Rewrites w t)
    (h : ∀ k, t'.get k ≠ none ↔ t.get k ≠ none) : Rewrites w t' := fun k o ho =>
  ⟨(hw k o ho).1, (h k).mpr (hw k o ho).2⟩

/-! ### What the other client does -/

theorem Alone.step {e : Event Bool} (ha : Alone c i) (h : Happens (program reqs) c e c') :
    Alone c' i := by
  intro j hj
  obtain ⟨hpc, hw⟩ := ha j hj
  by_cases hje : j = e.client
  · have hnone : (program reqs).stmt e.client (c.client e.client).pc = none := by
      rw [← hje]
      rcases hpc with hpc | hpc <;> simp [program, statement, hpc]
    rw [event_of_none h hnone, ← hje] at h
    obtain rfl := step_abort h
    refine ⟨?_, by simp⟩
    rcases hpc with hpc | hpc <;> simp [program, rolledBack, hpc]
  · rw [Over, step_client_of_ne h hje]
    exact ⟨hpc, hw⟩

/-- A phase carries over when its client and what is committed stay. -/
theorem Phase.congr (h : Phase reqs c i) (hcl : c'.client i = c.client i)
    (hc : c'.committed = c.committed) (halone : Alone c i → Alone c' i) : Phase reqs c' i := by
  have hview : c'.view i = c.view i := by simp [Config.view, hcl, hc]
  cases h with
  | resolving hpc hw => exact .resolving (hcl ▸ hpc) (hcl ▸ hw)
  | reading parent page hpc hw hp => exact .reading parent page (hcl ▸ hpc) (hcl ▸ hw) (hc ▸ hp)
  | moving parent page hpc hw hp hfresh =>
    refine .moving parent page (hcl ▸ hpc) (hcl ▸ hw) (hc ▸ hp) ?_
    rw [hc, hcl]
    exact hfresh.imp_left halone
  | recomputing hpc hw hg hsnap hfresh =>
    refine .recomputing (hcl ▸ hpc) (by rw [hcl, hc]; exact hw) (by rw [hview]; exact hg)
      (by rw [hcl, hview]; exact hsnap) ?_
    rw [hcl]
    exact hfresh.imp_left halone
  | raised hpc hw => exact .raised (hcl ▸ hpc) (by rw [hcl, hc]; exact hw)
  | closing hpc hw hwf hall =>
    exact .closing (hcl ▸ hpc) (by rw [hcl, hc]; exact hw) (by rw [hview]; exact hwf)
      (by rw [hcl, hc]; exact hall)
  | finished h => exact .finished (by rw [Over, hcl]; exact h)

theorem statement_commit {r : Request} {pc next : Point} (h : statement r pc = some (.commit next)) :
    pc = .commit ∧ next = .done := by
  cases pc <;> simp_all [statement]

/-- A client that commits is closing. -/
theorem Phase.closing_of_commit (h : Phase reqs c j)
    (hst : Happens (program reqs) c (.commit j) c') :
    Rewrites (c.client j).writes c.committed ∧ WellFormed (c.view j) ∧
      ((c.client j).writes = .empty ∨
        ∀ k, c.committed.get k ≠ none → k ∈ (c.client j).writes.keys) ∧ Over c' j := by
  obtain ⟨next, hs, rfl⟩ := step_commit hst
  obtain ⟨hpc, rfl⟩ := statement_commit hs
  cases h with
  | closing _ hw hwf hall => exact ⟨hw, hwf, hall, .inl (by simp), by simp⟩
  | resolving hpc' => cases hpc.symm.trans hpc'
  | reading parent page hpc' => cases hpc.symm.trans hpc'
  | moving parent page hpc' => cases hpc.symm.trans hpc'
  | recomputing hpc' => cases hpc.symm.trans hpc'
  | raised hpc' => cases hpc.symm.trans hpc'
  | finished h =>
    obtain ⟨hpc', -⟩ := h
    rcases hpc' with hpc' | hpc' <;> cases hpc.symm.trans hpc'

/-- **A commit of the other client** leaves a client what it knows. -/
theorem Phase.frame (hx : Exclusive c) (hij : i ≠ j) (h : Phase reqs c i) (hj : Phase reqs c j)
    (hst : Happens (program reqs) c (.commit j) c') : Phase reqs c' i := by
  obtain ⟨hwj, hwfj, hallj, hover⟩ := hj.closing_of_commit hst
  have hcl : c'.client i = c.client i := step_client_of_ne hst hij
  have halone : Alone c' i := by
    intro l hl
    have hlj : l = j := by
      cases l <;> cases i <;> cases j <;> simp_all
    exact hlj ▸ hover
  have hcom : c'.committed = c.view j := by
    obtain ⟨next, -, rfl⟩ := step_commit hst
    rfl
  rcases hallj with hempty | hallj
  · exact h.congr hcl (hcom.trans (view_of_empty hempty)) fun _ => halone
  · -- the other client holds every row, so that this one holds none
    have hkeys : ∀ k, c'.committed.get k ≠ none ↔ c.committed.get k ≠ none := by
      rw [hcom]
      exact hwj.view_ne_none
    have hnone : Rewrites (c.client i).writes c.committed → (c.client i).writes = .empty := by
      intro hw
      ext1 k
      rw [Table.get_empty, Table.get_eq_none]
      intro hk
      obtain ⟨o, ho⟩ := Table.mem_keys_iff.mp hk
      exact hij (hx i j k hk (hallj k (hw k o ho).2))
    cases h with
    | resolving hpc hw => exact .resolving (hcl ▸ hpc) (hcl ▸ hw)
    | reading parent page hpc hw hp =>
      exact .reading parent page (hcl ▸ hpc) (hcl ▸ hw) fun p pm h => (hkeys p).mpr (hp p pm h)
    | moving parent page hpc hw hp hfresh =>
      exact .moving parent page (hcl ▸ hpc) (hcl ▸ hw) (fun p pm h => (hkeys p).mpr (hp p pm h))
        (.inl halone)
    | recomputing hpc hw hg hsnap hfresh =>
      rcases hfresh with hfresh | ⟨k, hk⟩
      · obtain ⟨hpcj, -⟩ := hfresh j hij.symm
        obtain ⟨next, hs, -⟩ := step_commit hst
        have hpc' := (statement_commit hs).1
        rcases hpcj with hpcj | hpcj <;> cases hpc'.symm.trans hpcj
      · rw [hnone hw, Table.keys_empty] at hk
        exact absurd hk (Finset.notMem_empty k)
    | raised hpc hw => exact .raised (hcl ▸ hpc) (hcl ▸ hw.of_keys hkeys)
    | closing hpc hw hwf hall =>
      have hw' : (c'.client i).writes = .empty := hcl ▸ hnone hw
      refine .closing (hcl ▸ hpc) (hcl ▸ hw.of_keys hkeys) ?_ (.inl hw')
      rw [view_of_empty hw', hcom]
      exact hwfj
    | finished h => exact .finished (by rw [Over, hcl]; exact h)

/-! ### What a client does itself -/

theorem Phase.aborted (h : Happens (program reqs) c (.abort i) c') : Phase reqs c' i := by
  obtain rfl := step_abort h
  refine .finished ⟨?_, by simp⟩
  simp only [set_client_self, program]
  cases (c.client i).pc <;> simp [rolledBack]

theorem afterResolve_cases (r : Request) (t : Menus) :
    afterResolve r t = .refused ∨
      ∃ parent page, afterResolve r t = .read parent page ∧ Found t parent := by
  unfold afterResolve
  split
  · exact .inl rfl
  · split
    · rename_i parent page hparent _
      refine .inr ⟨parent, page, rfl, fun p pm hp => ?_⟩
      rw [resolveParent_ok hparent p pm hp]
      simp
    · exact .inl rfl

theorem afterRead_cases (r : Request) (parent : Option (Ulid × Menu)) (page : Option (Option String))
    (t : Menus) :
    afterRead r parent page t = .refused ∨ afterRead r parent page t = .commit ∨
      afterRead r parent page t = .move parent page ∧ (t.find (r.matches t)).Nonempty := by
  unfold afterRead
  dsimp only
  split_ifs with herr hnone
  · exact .inl rfl
  · exact .inr (.inl rfl)
  · exact .inr (.inr ⟨rfl, Finset.nonempty_iff_ne_empty.mpr hnone⟩)

theorem Phase.own_select (hopen : SnapshotsOpen (program reqs) c) (h : Phase reqs c i)
    (hwf : WellFormed c.committed) (hst : Happens (program reqs) c (.select i) c') :
    Phase reqs c' i := by
  obtain ⟨next, hs, rfl⟩ := step_select hst
  have hclosed := hopen.closed_of_select hs
  cases h with
  | resolving hpc hw =>
    obtain rfl : afterResolve (reqs i) = next := by simpa [program, hpc, statement] using hs
    rw [view_of_empty hw]
    rcases afterResolve_cases (reqs i) c.committed with hnext | ⟨parent, page, hnext, hp⟩
    · exact .finished ⟨.inr (by simp [hnext]), by simpa using hw⟩
    · exact .reading parent page (by simp [hnext]) (by simpa using hw) hp
  | reading parent page hpc hw hp =>
    obtain rfl : afterRead (reqs i) parent page = next := by simpa [program, hpc, statement] using hs
    rw [view_of_empty hw]
    rcases afterRead_cases (reqs i) parent page c.committed with hnext | hnext | ⟨hnext, hpks⟩
    · exact .finished ⟨.inr (by simp [hnext]), by simpa using hw⟩
    · refine .closing (by simp [hnext]) (by simpa [hw] using Rewrites.empty) ?_
        (.inl (by simpa using hw))
      rw [view_set_self, hw, Table.apply_empty]
      exact hwf
    · refine .moving parent page (by simp [hnext]) (by simpa using hw) hp (.inr ⟨hpks, ?_⟩)
      intro t ht
      simp [hclosed] at ht
  | moving parent page hpc => simp [program, hpc, statement] at hs
  | recomputing hpc => simp [program, hpc, statement] at hs
  | raised hpc => simp [program, hpc, statement] at hs
  | closing hpc => simp [program, hpc, statement] at hs
  | finished h =>
    obtain ⟨hpc, -⟩ := h
    rcases hpc with hpc | hpc <;> simp [program, hpc, statement] at hs

theorem Phase.own_start (h : Phase reqs c i) (hst : Happens (program reqs) c (.start i) c') :
    Phase reqs c' i := by
  have halone : Alone c i → Alone c' i := fun ha => ha.step hst
  obtain ⟨target, write, next, hs, -, rfl⟩ := step_start hst
  have hview : (c.set i { c.client i with snapshot := some (c.view i) }).view i = c.view i :=
    view_set_self c i _
  cases h with
  | moving parent page hpc hw hp hfresh =>
    refine .moving parent page (by simpa using hpc) (by simpa using hw) hp ?_
    rw [set_committed, set_client_self]
    refine hfresh.imp halone fun hne => ⟨hne.1, ?_⟩
    intro t ht
    rw [← Option.some.inj ht, view_of_empty hw]
  | recomputing hpc hw hg hsnap hfresh =>
    refine .recomputing (by simpa using hpc) (by simpa using hw) (by rw [hview]; exact hg) ?_ ?_
    · rw [hview, set_client_self]
      intro t ht
      exact (Option.some.inj ht).symm
    · rw [set_client_self]
      exact hfresh.imp_left halone
  | resolving hpc => simp [program, hpc, statement] at hs
  | reading parent page hpc => simp [program, hpc, statement] at hs
  | raised hpc => simp [program, hpc, statement] at hs
  | closing hpc => simp [program, hpc, statement] at hs
  | finished h =>
    obtain ⟨hpc, -⟩ := h
    rcases hpc with hpc | hpc <;> simp [program, hpc, statement] at hs

/-- An UPDATE rewrites rows of its view. -/
theorem Rewrites.finish {w : Table Ulid (Option Menu)} {rows : Menus} {f : Ulid → Menu → Menu}
    (hw : Rewrites w t) (hrows : ∀ k m, rows.get k = some m → (w.apply t).get k = some m) :
    Rewrites ((rows.map fun k m => some (f k m)).overlay w) t := by
  intro k o ho
  cases hk : rows.get k with
  | none => exact hw k o (by simpa [hk] using ho)
  | some m =>
    obtain rfl : some (f k m) = o := by simpa [hk] using ho
    refine ⟨by simp, ?_⟩
    have hview := hrows k m hk
    cases hwk : w.get k with
    | none =>
      rw [Table.get_apply, hwk, Option.getD_none] at hview
      rw [hview]
      simp
    | some o => exact (hw k o hwk).2

/-- **The parents are written** under the guard: what hangs from a root still does. -/
theorem Grounded.of_guarded {d : MenuUpdate} {page : Option (Option String)}
    {parent : Option (Ulid × Menu)} {pks : Finset Ulid} (hwf : WellFormed t) (hp : Found t parent)
    (hguard : ∀ p pm pm', parent = some (p, pm) → t.get p = some pm' →
      ∀ k ∈ pks, validateData (some (some (p, pm'))) k = none) :
    Grounded (up (t.map fun k m => if k ∈ pks then d.write (some parent) page m else m)) := by
  rw [up_move]
  apply hwf.grounded.reparent
  intro q hq
  obtain ⟨⟨p, pm⟩, hpm, rfl⟩ := Option.map_eq_some_iff.mp hq
  obtain ⟨pm', hpm'⟩ := Option.ne_none_iff_exists'.mp (hp p pm hpm)
  obtain ⟨l, hl, -⟩ := hwf p pm' hpm'
  refine ⟨l, hl, fun b hb hmem => ?_⟩
  exact guard_of_validateData hwf hpm' (hguard p pm pm' hpm hpm' b hmem) hl hb

/-- The UPDATE of the parents, with its rows. -/
theorem Phase.moved {parent : Option (Ulid × Menu)} {page : Option (Option String)}
    (hwf : WellFormed c.committed) (hpc : (c.client i).pc = .move parent page)
    (hw : (c.client i).writes = .empty) (hp : Found c.committed parent)
    (hfresh : Alone c i ∨ (c.committed.find ((reqs i).matches c.committed)).Nonempty ∧
      ∀ t, (c.client i).snapshot = some t → t = c.committed)
    (hguard : guarded reqs c (.finish i) = true) (hst : Happens (program reqs) c (.finish i) c') :
    Phase reqs c' i := by
  have halone : Alone c i → Alone c' i := fun ha => ha.step hst
  obtain ⟨target, write, next, snap, hs, hsn, -, rfl⟩ := step_finish hst
  obtain ⟨rfl, rfl, rfl⟩ : (reqs i).matches = target ∧
      (fun _ _ m => some ((reqs i).data.write (some parent) page m)) = write ∧
      (fun _ rows => if (rows.filter fun _ m =>
        !pageOrLink ((reqs i).data.write (some parent) page m)).keys.Nonempty then Point.raised
        else .recompute) = next := by
    simpa [program, hpc, statement] using hs
  have hview := view_of_empty hw
  rw [hview] at halone ⊢
  set rows := hits (reqs i).matches snap c.committed with hrows
  have hrows' : ∀ k m, rows.get k = some m → ((c.client i).writes.apply c.committed).get k = some m := by
    intro k m hk
    rw [hw, Table.apply_empty]
    exact (mem_hits.mp hk).1
  have hrewrites : Rewrites ((rows.map fun _ m => some
      ((reqs i).data.write (some parent) page m)).overlay (c.client i).writes) c.committed :=
    Rewrites.finish (hw ▸ Rewrites.empty) hrows'
  by_cases hbad : (rows.filter fun _ m =>
      !pageOrLink ((reqs i).data.write (some parent) page m)).keys.Nonempty
  · exact .raised (by simp only [set_client_self, if_pos hbad]) (by simpa using hrewrites)
  · refine .recomputing (by simp only [set_client_self, if_neg hbad]) (by simpa using hrewrites) ?_
      (by simp) ?_
    · rw [view_set_self, Table.apply_overlay_map hrows', hw, Table.apply_empty]
      refine Grounded.of_guarded hwf hp fun p pm pm' hparent hpm' => ?_
      subst hparent
      have hg := guarded_finish hguard hpc hsn (by rw [hview]; exact hpm')
      rw [hview] at hg
      exact hg
    · refine hfresh.imp halone fun hne => ?_
      -- nothing was committed in between: what was matched is written
      obtain ⟨⟨k, hk⟩, hsame⟩ := hne
      obtain rfl := hsame snap hsn
      obtain ⟨m, hm, hmatch⟩ := Table.mem_find.mp hk
      have hhit : k ∈ rows.keys := Table.mem_keys_of_get (mem_hits.mpr ⟨hm, ⟨m, hm, hmatch⟩, hmatch⟩)
      rw [set_client_self]
      exact ⟨k, Finset.mem_union_left _ hhit⟩

/-- The recursive UPDATE, on the view its snapshot was taken of. -/
theorem Phase.recomputed (hpc : (c.client i).pc = .recompute)
    (hw : Rewrites (c.client i).writes c.committed) (hg : Grounded (up (c.view i)))
    (hsnap : ∀ t, (c.client i).snapshot = some t → t = c.view i)
    (hst : Happens (program reqs) c (.finish i) c') : Phase reqs c' i := by
  obtain ⟨target, write, next, snap, hs, hsn, -, rfl⟩ := step_finish hst
  obtain rfl := hsnap snap hsn
  obtain ⟨rfl, rfl, rfl⟩ : (fun t k _ => ((parentStoreCompute t).get k).isSome) = target ∧
      (fun t k m => some (restorePath t k m)) = write ∧
      (fun t rows => if (rows.filter fun k m => !rowOk (restorePath t k m)).keys.Nonempty then
        Point.raised else .commit) = next := by
    simpa [program, hpc, statement] using hs
  set rows := hits (fun t k _ => ((parentStoreCompute t).get k).isSome) (c.view i) (c.view i)
  have hrows : ∀ k m, rows.get k = some m → (c.view i).get k = some m := fun k m hk =>
    (mem_hits.mp hk).1
  -- every row hangs from a root, and is reached
  have hall : ∀ k m, (c.view i).get k = some m → k ∈ rows.keys := by
    intro k m hm
    obtain ⟨l, hl⟩ := hg k (up_ne_none.mpr ⟨m, hm⟩)
    have hreach : ((parentStoreCompute (c.view i)).get k).isSome = true := by
      rw [parentStoreCompute_get.mpr ⟨l, hl, rfl⟩]
      rfl
    exact Table.mem_keys_of_get (mem_hits.mpr ⟨hm, ⟨m, hm, hreach⟩, hreach⟩)
  have hrewrites : Rewrites ((rows.map fun k m => some (restorePath (c.view i) k m)).overlay
      (c.client i).writes) c.committed := Rewrites.finish hw hrows
  by_cases hbad : (rows.filter fun k m => !rowOk (restorePath (c.view i) k m)).keys.Nonempty
  · exact .raised (by simp only [set_client_self, if_pos hbad]) (by simpa using hrewrites)
  · refine .closing (by simp only [set_client_self, if_neg hbad]) (by simpa using hrewrites) ?_
      (.inr ?_)
    · have hrestored : Table.apply ((rows.map fun k m => some (restorePath (c.view i) k m)).overlay
          (c.client i).writes) c.committed = recomputeParentStore (c.view i) := by
        rw [Table.apply_overlay_map hrows, recomputeParentStore]
        ext1 k
        change ((c.view i).get k).map _ = ((c.view i).get k).map _
        cases hk : (c.view i).get k with
        | none => rfl
        | some m => simp [hall k m hk]
      rw [view_set_self, hrestored]
      exact wellFormed_recompute hg
    · intro k hk
      obtain ⟨m, hm⟩ := Option.ne_none_iff_exists'.mp ((hw.view_ne_none k).mpr hk)
      rw [set_client_self]
      exact Finset.mem_union_left _ (hall k m hm)

theorem Phase.own_finish (h : Phase reqs c i) (hwf : WellFormed c.committed)
    (hguard : guarded reqs c (.finish i) = true) (hst : Happens (program reqs) c (.finish i) c') :
    Phase reqs c' i := by
  cases h with
  | moving parent page hpc hw hp hfresh => exact .moved hwf hpc hw hp hfresh hguard hst
  | recomputing hpc hw hg hsnap => exact .recomputed hpc hw hg hsnap hst
  | resolving hpc => obtain ⟨_, _, _, _, hs, -⟩ := step_finish hst; simp [program, hpc, statement] at hs
  | reading parent page hpc =>
    obtain ⟨_, _, _, _, hs, -⟩ := step_finish hst
    simp [program, hpc, statement] at hs
  | raised hpc => obtain ⟨_, _, _, _, hs, -⟩ := step_finish hst; simp [program, hpc, statement] at hs
  | closing hpc => obtain ⟨_, _, _, _, hs, -⟩ := step_finish hst; simp [program, hpc, statement] at hs
  | finished h =>
    obtain ⟨_, _, _, _, hs, -⟩ := step_finish hst
    obtain ⟨hpc, -⟩ := h
    rcases hpc with hpc | hpc <;> simp [program, hpc, statement] at hs

theorem statement_insert {r : Request} {pc next : Point} {rows : Menus} :
    statement r pc ≠ some (.insert rows next) := by
  cases pc <;> simp [statement]

/-- **One event**, of either client. -/
theorem Phase.step (hx : Exclusive c) (hopen : SnapshotsOpen (program reqs) c)
    (hwf : WellFormed c.committed) (h : ∀ i, Phase reqs c i) {e : Event Bool} (hguard : guarded reqs c e = true)
    (hst : Happens (program reqs) c e c') (i : Bool) : Phase reqs c' i := by
  by_cases hi : i = e.client
  · subst hi
    cases e with
    | select i => exact (h i).own_select hopen hwf hst
    | start i => exact (h i).own_start hst
    | finish i => exact (h i).own_finish hwf hguard hst
    | insert i =>
      obtain ⟨rows, next, hs, -⟩ := step_insert hst
      exact absurd hs statement_insert
    | commit i => exact .finished ((h i).closing_of_commit hst).2.2.2
    | abort i => exact .aborted hst
  · by_cases hcommit : ∃ j, e = .commit j
    · obtain ⟨j, rfl⟩ := hcommit
      exact (h i).frame hx hi (h j) hst
    · exact (h i).congr (step_client_of_ne hst hi) (step_committed hst fun j he => hcommit ⟨j, he⟩)
        fun ha => ha.step hst

end Phase

/-! ## The forest -/

section Forest

variable {reqs : Bool → Request} {c c' : Config Bool Ulid Menu Point}

/-- The invariant of guarded runs. -/
structure Inv (reqs : Bool → Request) (c : Config Bool Ulid Menu Point) : Prop where
  exclusive : Exclusive c
  snapshots : SnapshotsOpen (program reqs) c
  wellFormed : WellFormed c.committed
  phase : ∀ i, Phase reqs c i

theorem Inv.start {t : Menus} (ht : WellFormed t) : Inv reqs (start t) where
  exclusive := exclusive_of_writes_empty fun _ => rfl
  snapshots := fun _ h => absurd rfl h
  wellFormed := ht
  phase := fun _ => .resolving rfl rfl

theorem Inv.step {e : Event Bool} (hi : Inv reqs c) (hst : Happens (program reqs) c e c')
    (hguard : guarded reqs c e = true) : Inv reqs c' where
  exclusive := hi.exclusive.step hst
  snapshots := hi.snapshots.step hst
  wellFormed := by
    by_cases hcommit : ∃ j, e = .commit j
    · obtain ⟨j, rfl⟩ := hcommit
      have hwf := ((hi.phase j).closing_of_commit hst).2.1
      obtain ⟨next, -, rfl⟩ := step_commit hst
      exact hwf
    · rw [step_committed hst fun j he => hcommit ⟨j, he⟩]
      exact hi.wellFormed
  phase := Phase.step hi.exclusive hi.snapshots hi.wellFormed hi.phase hguard hst

/-- **Two moves at once.**  In every run of guarded steps, the committed menus are, in every state
reached, without cycle and with the right paths. -/
theorem forest_kept {t : Menus} {es : List (Event Bool)} (ht : WellFormed t)
    (hr : Run (fun c e c' => Happens (program reqs) c e c' ∧ guarded reqs c e = true) (start t) es c) :
    Acyclic (up c.committed) ∧ WellFormed c.committed := by
  have hinv := hr.invariant (fun _ _ _ hi h => hi.step h.1 h.2) (Inv.start ht)
  exact ⟨hinv.wellFormed.grounded.acyclic, hinv.wellFormed⟩

end Forest

/-! ## Two moves that cross, and two that do not -/

section Sample

/-- A top item. -/
def top (k : Ulid) : Menu := ⟨"item", none, addToPath "" k, 20, none, some "/", false⟩

def sampleMenus : Menus := ((Table.empty.insert team (top team)).insert about (top about)).insert home (top home)

/-- The move of `k` under `p`. -/
def moveRequest (k p : Ulid) : Request where
  acting := everything
  q := fun _ k' _ => decide (k' = k)
  data := ⟨none, some (some p.val), none, none, none, none⟩
  parent := some p.val

theorem wellFormed_sampleMenus : WellFormed sampleMenus := by
  have htop : ∀ t k, Hangs t k (top k) := fun t k => .inl ⟨rfl, rfl⟩
  exact ((wellFormed_empty.insert rfl (htop _ _)).insert rfl (htop _ _)).insert rfl (htop _ _)

/-- Both parents are resolved before the first move commits. -/
def crossing : List (Event Bool) :=
  [.select true, .select false, .select true, .start true, .finish true, .start true, .finish true,
    .commit true, .select false, .start false, .finish false, .start false, .finish false, .commit false]

/-- **The second move closes a cycle**: `HOME` is under `ABOUT`, and `ABOUT` under `HOME`. -/
theorem forest_broken :
    ¬ ∀ (reqs : Bool → Request) (t : Menus) (es : List (Event Bool))
      (c : Config Bool Ulid Menu Point), WellFormed t → Run (Happens (program reqs)) (start t) es c →
      (∀ i, (c.client i).pc = .done ∨ (c.client i).pc = .refused) →
      Acyclic (up c.committed) ∧ WellFormed c.committed := by
  intro h
  obtain ⟨hacyclic, -⟩ := h (fun i => if i then moveRequest home about else moveRequest about home)
    sampleMenus crossing _ wellFormed_sampleMenus (Run.of_foldlM rfl) (by intro i; cases i <;> exact .inl rfl)
  exact hacyclic home (.tail (b := about) (.single rfl) rfl)

/-- `HOME` under `ABOUT`, and `TEAM` under `HOME`. -/
def nested (i : Bool) : Request := if i then moveRequest home about else moveRequest team home

/-- The same events, the second move being of `TEAM`. -/
theorem crossing_guarded : ∃ c, Run (fun c e c' => Happens (program nested) c e c' ∧
    guarded nested c e = true) (start sampleMenus) crossing c ∧
    (c.committed.get team).map Menu.parentPath = some "ABOUT/HOME/TEAM/" := by
  refine ⟨_, .cons ⟨rfl, rfl⟩ (.cons ⟨rfl, rfl⟩ (.cons ⟨rfl, rfl⟩ (.cons ⟨rfl, rfl⟩ (.cons ⟨rfl, rfl⟩
    (.cons ⟨rfl, rfl⟩ (.cons ⟨rfl, rfl⟩ (.cons ⟨rfl, rfl⟩ (.cons ⟨rfl, rfl⟩ (.cons ⟨rfl, rfl⟩
    (.cons ⟨rfl, rfl⟩ (.cons ⟨rfl, rfl⟩ (.cons ⟨rfl, rfl⟩ (.cons ⟨rfl, rfl⟩
    (.nil _)))))))))))))), ?_⟩
  decide

theorem forest_kept_sample : ∃ c, Run (fun c e c' => Happens (program nested) c e c' ∧
    guarded nested c e = true) (start sampleMenus) crossing c ∧
    (c.committed.get team).map Menu.parentPath = some "ABOUT/HOME/TEAM/" ∧
    Acyclic (up c.committed) ∧ WellFormed c.committed := by
  obtain ⟨c, hr, hpath⟩ := crossing_guarded
  exact ⟨c, hr, hpath, forest_kept wellFormed_sampleMenus hr⟩

end Sample

end Totem.Website
