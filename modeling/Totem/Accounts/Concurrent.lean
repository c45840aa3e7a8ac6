import Totem.Accounts.Movement

/-!
# Totem.Accounts.Concurrent — two movement writes at once

Two clients run one service write each under READ COMMITTED.  The refresh of a write reads its sums in
two statements and stores them with a third, so that what the other writer commits in between is lost.

* `Isolated`: what a run must keep to for the totals to stay right, one step at a time.
* `Phase`: what a writer knows at each point; `Phase.own` for its own events, `Phase.frame` for the
  events of the other one.
* `totals_synced`: in a run of isolated steps the totals are right in every state committed.
-/

namespace Totem.Accounts

open Totem.Lib Totem.Lib.ReadCommitted

/-! ## Runs -/

/-- Where a write is left when its transaction is rolled back. -/
def rolledBack : Point → Point
  | .done => .done
  | _ => .failed

/-- The two writers. -/
def program (reqs : Bool → Request) : Program Bool Key Row Point where
  stmt i := statement (reqs i)
  aborted _ := rolledBack

def start (t : Db) : Config Bool Key Row Point := ⟨t, fun _ => ⟨.begin, none, .empty⟩⟩

/-- The accounts whose sum of a side was read and is not stored yet. -/
def Point.reading (first : Side) : Point → Side → Finset String
  | .sum' ids _, s => if s = first then ids else ∅
  | .store ids _ _, _ => ids
  | _, _ => ∅

/-- A commit changes no sum the other writer is about to store; and when a refresh starts, what its
transaction wrote has changed the sums of declared accounts only. -/
def Isolated (reqs : Bool → Request) (c : Config Bool Key Row Point) : Event Bool → Prop
  | .commit i => ∀ j, j ≠ i → ∀ s, ∀ id ∈ (c.client j).pc.reading (reqs j).first s,
      s.sum (c.view i) id = s.sum c.committed id
  | .select i => ∀ ids, (c.client i).pc = .fetch ids → ∀ id, id ∉ ids → ∀ s : Side,
      s.sum (c.view i) id = s.sum c.committed id
  | _ => True

/-! ## Phases -/

section Phase

variable {reqs : Bool → Request} {c c' : Config Bool Key Row Point} {i j : Bool}

/-- The accounts are left as they are. -/
def AccountsKept (w : Table Key (Option Row)) : Prop := ∀ id, w.get (.account id) = none

/-- What `i` wrote changes the sums of no stored account but `ids`. -/
def Covers (c : Config Bool Key Row Point) (i : Bool) (ids : Finset String) : Prop :=
  ∀ id, id ∉ ids → c.committed.get (.account id) ≠ none → ∀ s : Side,
    s.sum (c.view i) id = s.sum c.committed id

/-- The values `v` are the sums `i` would read now. -/
def Reads (c : Config Bool Key Row Point) (i : Bool) (ids : Finset String) (s : Side)
    (v : String → ℤ) : Prop :=
  ∀ id ∈ ids, c.committed.get (.account id) ≠ none → v id = s.sum (c.view i) id

/-- What a writer has done and read so far. -/
inductive Phase (reqs : Bool → Request) (c : Config Bool Key Row Point) (i : Bool) : Prop
  | early (hpc : (c.client i).pc = .begin ∨ ∃ pks, (c.client i).pc = .write pks)
      (hw : (c.client i).writes = .empty)
  | declaring (hpc : ∃ s, (c.client i).pc = .declare s ∨ (c.client i).pc = .remove s ∨
        (c.client i).pc = .fetch s)
      (hw : AccountsKept (c.client i).writes)
  | summing (ids : Finset String) (hpc : (c.client i).pc = .sum ids)
      (hw : AccountsKept (c.client i).writes) (hcov : Covers c i ids)
  | halfway (ids : Finset String) (v : String → ℤ) (hpc : (c.client i).pc = .sum' ids v)
      (hw : AccountsKept (c.client i).writes) (hcov : Covers c i ids)
      (hv : Reads c i ids (reqs i).first v)
  | storing (ids : Finset String) (v w : String → ℤ) (hpc : (c.client i).pc = .store ids v w)
      (hw : AccountsKept (c.client i).writes) (hcov : Covers c i ids)
      (hv : Reads c i ids (reqs i).first v) (hv' : Reads c i ids (reqs i).first.other w)
      (hsnap : ∀ t, (c.client i).snapshot = some t → ∀ id, c.committed.get (.account id) ≠ none →
        t.get (.account id) ≠ none)
  | closing (ids : Finset String) (v w : String → ℤ) (hpc : (c.client i).pc = .commit)
      (hcov : Covers c i ids) (hv : Reads c i ids (reqs i).first v)
      (hv' : Reads c i ids (reqs i).first.other w)
      (hin : ∀ id ∈ ids, ∀ row, c.committed.get (.account id) = some row →
        (c.client i).writes.get (.account id) =
          some (some (setTotals (reqs i).first v w (.account id) row)))
      (hout : ∀ id o, (c.client i).writes.get (.account id) = some o →
        id ∈ ids ∧ c.committed.get (.account id) ≠ none)
  | finished (hpc : (c.client i).pc = .done ∨ (c.client i).pc = .failed)
      (hw : (c.client i).writes = .empty)

theorem AccountsKept.empty : AccountsKept .empty := fun _ => rfl

/-- A sum in the view of a writer is the committed one and what the writer changed. -/
theorem sum_view (s : Side) (id : String) :
    s.sum (c.view i) id = s.sum c.committed id +
      Table.change (term s.takes id) (c.client i).writes c.committed :=
  Table.total_apply _ _ _

theorem view_account (hw : AccountsKept (c.client i).writes) (id : String) :
    (c.view i).get (.account id) = c.committed.get (.account id) := by
  simp [Config.view, hw id]

theorem view_of_empty (hw : (c.client i).writes = .empty) : c.view i = c.committed := by
  simp [Config.view, hw]

/-- A phase that only reads what is committed and what its writer did carries over. -/
theorem Phase.congr (h : Phase reqs c i) (hcl : c'.client i = c.client i)
    (hc : c'.committed = c.committed) : Phase reqs c' i := by
  have hview : c'.view i = c.view i := by simp [Config.view, hcl, hc]
  have hcov : ∀ {ids}, Covers c i ids → Covers c' i ids := by
    intro ids h
    rw [Covers, hview, hc]
    exact h
  have hreads : ∀ {ids s v}, Reads c i ids s v → Reads c' i ids s v := by
    intro ids s v h
    rw [Reads, hview, hc]
    exact h
  cases h with
  | early hpc hw => exact .early (hcl ▸ hpc) (hcl ▸ hw)
  | declaring hpc hw => exact .declaring (hcl ▸ hpc) (hcl ▸ hw)
  | summing ids hpc hw h => exact .summing ids (hcl ▸ hpc) (hcl ▸ hw) (hcov h)
  | halfway ids v hpc hw h hv => exact .halfway ids v (hcl ▸ hpc) (hcl ▸ hw) (hcov h) (hreads hv)
  | storing ids v w hpc hw h hv hv' hsnap =>
    exact .storing ids v w (hcl ▸ hpc) (hcl ▸ hw) (hcov h) (hreads hv) (hreads hv')
      (by rw [hcl, hc]; exact hsnap)
  | closing ids v w hpc h hv hv' hin hout =>
    exact .closing ids v w (hcl ▸ hpc) (hcov h) (hreads hv) (hreads hv') (by rw [hcl, hc]; exact hin)
      (by rw [hcl, hc]; exact hout)
  | finished hpc hw => exact .finished (hcl ▸ hpc) (hcl ▸ hw)

/-! ### What the other writer commits -/

theorem statement_commit {r : Request} {pc next : Point}
    (h : statement r pc = some (.commit next)) : pc = .commit ∧ next = .done := by
  cases pc <;> cases hop : r.op <;> simp_all [statement]

/-- What a writer that commits has done and read. -/
theorem Phase.exists_of_commit (h : Phase reqs c i) (hpc : (c.client i).pc = .commit) :
    ∃ ids v w, Covers c i ids ∧ Reads c i ids (reqs i).first v ∧ Reads c i ids (reqs i).first.other w ∧
      (∀ id ∈ ids, ∀ row, c.committed.get (.account id) = some row → (c.client i).writes.get (.account id) =
        some (some (setTotals (reqs i).first v w (.account id) row))) ∧
      ∀ id o, (c.client i).writes.get (.account id) = some o →
        id ∈ ids ∧ c.committed.get (.account id) ≠ none := by
  cases h with
  | closing ids v w hpc' hcov hv hv' hin hout => exact ⟨ids, v, w, hcov, hv, hv', hin, hout⟩
  | early hpc' => obtain hpc' | ⟨_, hpc'⟩ := hpc' <;> cases hpc.symm.trans hpc'
  | declaring hpc' => obtain ⟨_, hpc' | hpc' | hpc'⟩ := hpc' <;> cases hpc.symm.trans hpc'
  | summing ids hpc' => cases hpc.symm.trans hpc'
  | halfway ids v hpc' => cases hpc.symm.trans hpc'
  | storing ids v w hpc' => cases hpc.symm.trans hpc'
  | finished hpc' => obtain hpc' | hpc' := hpc' <;> cases hpc.symm.trans hpc'

/-- **A commit of the other writer** leaves a writer what it knows. -/
theorem Phase.frame (hx : Exclusive c) (hij : i ≠ j) (h : Phase reqs c i) (hj : Phase reqs c j)
    (hiso : Isolated reqs c (.commit j)) (hst : Happens (program reqs) c (.commit j) c') :
    Phase reqs c' i := by
  have hcl : c'.client i = c.client i := step_client_of_ne hst hij
  have hlocked : ∀ k ∈ (c.client i).writes.keys, c'.committed.get k = c.committed.get k :=
    fun k hk => hx.commit_of_locked hij hst hk
  obtain ⟨next, hs, hc'⟩ := step_commit hst
  have hcom : c'.committed = c.view j := by rw [hc']
  -- the committed accounts are the same, and `j` declared the sums it changed
  obtain ⟨idsj, vj, wj, hcovj, -, -, hinj, houtj⟩ := hj.exists_of_commit (statement_commit hs).1
  have hexists : ∀ id, c'.committed.get (.account id) ≠ none → c.committed.get (.account id) ≠ none := by
    intro id h' hnone
    cases hw : (c.client j).writes.get (.account id) with
    | none => simp [hcom, Config.view, hw, hnone] at h'
    | some o => exact (houtj id o hw).2 hnone
  have hcov : ∀ {ids}, Covers c i ids → Covers c' i ids := by
    intro ids hcov id hid hne s
    have hold := hcov id hid (hexists id hne) s
    rw [sum_view] at hold
    rw [sum_view, hcl, Table.change_congr hlocked]
    omega
  -- what `i` is about to store, or has stored, is not changed
  have hreads : ∀ {ids s v}, Reads c i ids s v → (∀ id ∈ ids, c.committed.get (.account id) ≠ none →
      s.sum (c.view j) id = s.sum c.committed id) → Reads c' i ids s v := by
    intro ids s v hv hkeep id hid hne
    have hold := hv id hid (hexists id hne)
    rw [hold, sum_view, sum_view, hcl, Table.change_congr hlocked, hcom,
      hkeep id hid (hexists id hne)]
  cases h with
  | early hpc hw => exact .early (hcl ▸ hpc) (hcl ▸ hw)
  | declaring hpc hw => exact .declaring (hcl ▸ hpc) (hcl ▸ hw)
  | summing ids hpc hw h => exact .summing ids (hcl ▸ hpc) (hcl ▸ hw) (hcov h)
  | halfway ids v hpc hw h hv =>
    refine .halfway ids v (hcl ▸ hpc) (hcl ▸ hw) (hcov h) (hreads hv fun id hid _ => ?_)
    exact hiso i hij _ id (by simpa [hpc, Point.reading] using hid)
  | storing ids v w hpc hw h hv hv' hsnap =>
    have hkeep : ∀ s : Side, ∀ id ∈ ids, c.committed.get (.account id) ≠ none →
        s.sum (c.view j) id = s.sum c.committed id := fun s id hid _ =>
      hiso i hij s id (by simpa [hpc, Point.reading] using hid)
    refine .storing ids v w (hcl ▸ hpc) (hcl ▸ hw) (hcov h) (hreads hv (hkeep _)) (hreads hv' (hkeep _)) ?_
    rw [hcl]
    exact fun t ht id hne => hsnap t ht id (hexists id hne)
  | closing ids v w hpc h hv hv' hin hout =>
    -- an account both declared is locked by both
    have hkeep : ∀ s : Side, ∀ id ∈ ids, c.committed.get (.account id) ≠ none →
        s.sum (c.view j) id = s.sum c.committed id := by
      intro s id hid hne
      by_cases hidj : id ∈ idsj
      · obtain ⟨row, hrow⟩ := Option.ne_none_iff_exists'.mp hne
        exact absurd (hx i j _ (Table.mem_keys_of_get (hin id hid row hrow))
          (Table.mem_keys_of_get (hinj id hidj row hrow))) hij
      · exact hcovj id hidj hne s
    refine .closing ids v w (hcl ▸ hpc) (hcov h) (hreads hv (hkeep _)) (hreads hv' (hkeep _)) ?_ ?_
    · intro id hid row hrow
      obtain ⟨row', hrow'⟩ := Option.ne_none_iff_exists'.mp
        (hexists id (by rw [hrow]; simp))
      have hmem := Table.mem_keys_of_get (hin id hid row' hrow')
      rw [hcl]
      exact hin id hid row ((hlocked _ hmem).symm.trans hrow)
    · rw [hcl]
      intro id o ho
      obtain ⟨hid, hne⟩ := hout id o ho
      refine ⟨hid, ?_⟩
      rw [hlocked _ (Table.mem_keys_of_get ho)]
      exact hne
  | finished hpc hw => exact .finished (hcl ▸ hpc) (hcl ▸ hw)

/-! ### What a writer does itself -/

theorem rowsOf_get {rows : List (String × AccountMovement)} {k : Key} {r : Row}
    (h : (rowsOf rows).get k = some r) : ∃ x ∈ rows, k = .movement x.1 ∧ r = .movement x.2 := by
  induction rows with
  | nil => cases h
  | cons x rows ih =>
    rw [rowsOf, List.foldr_cons] at h
    by_cases hk : k = .movement x.1
    · subst hk
      rw [Table.get_insert_self] at h
      exact ⟨x, List.mem_cons_self, rfl, (Option.some.inj h).symm⟩
    · rw [Table.get_insert_of_ne hk] at h
      obtain ⟨y, hy, hyk⟩ := ih h
      exact ⟨y, List.mem_cons_of_mem x hy, hyk⟩

theorem accountsKept_insert (hw : AccountsKept (c.client i).writes)
    (rows : List (String × AccountMovement)) :
    AccountsKept (((rowsOf rows).map fun _ r => some r).overlay (c.client i).writes) := by
  intro id
  have hnone : (rowsOf rows).get (.account id) = none := by
    cases hr : (rowsOf rows).get (.account id) with
    | none => rfl
    | some r =>
      obtain ⟨x, -, hk, -⟩ := rowsOf_get hr
      cases hk
  simp [hnone, hw id]

theorem accountsKept_hits (hw : AccountsKept (c.client i).writes) (q : String → AccountMovement → Bool)
    (snap : Db) (write : Key → Row → Option Row) :
    AccountsKept (((hits (fun _ => filterRows q) snap (c.view i)).map write).overlay
      (c.client i).writes) := by
  intro id
  have hnone : (hits (fun _ => filterRows q) snap (c.view i)).get (.account id) = none := by
    cases hh : (hits (fun _ => filterRows q) snap (c.view i)).get (.account id) with
    | none => rfl
    | some r => simpa [filterRows] using (mem_hits.mp hh).2.2
  simp [hnone, hw id]

/-- The UPDATE of rows that keep account and amount changes no sum. -/
theorem term_writeRow {d : MovementUpdate} (hd : d.amount = none) (p : ℤ → Bool) (id : String) (k : Key)
    (r : Row) : term p id k (d.writeRow r) = term p id k r := by
  cases k <;> cases r <;> simp [term, MovementUpdate.writeRow, MovementUpdate.write, hd]

/-- A writer with nothing to refresh. -/
theorem Phase.closing_empty (hpc : (c.client i).pc = .commit) (hw : AccountsKept (c.client i).writes)
    (hsum : ∀ id, ∀ s : Side, s.sum (c.view i) id = s.sum c.committed id) : Phase reqs c i :=
  .closing ∅ (fun _ => 0) (fun _ => 0) hpc (fun id _ _ s => hsum id s)
    (fun id hid => absurd hid (Finset.notMem_empty id)) (fun id hid => absurd hid (Finset.notMem_empty id))
    (fun id hid => absurd hid (Finset.notMem_empty id)) (fun id o ho => by rw [hw id] at ho; cases ho)

theorem Phase.aborted (h : Happens (program reqs) c (.abort i) c') : Phase reqs c' i := by
  obtain rfl := step_abort h
  refine .finished ?_ (by simp)
  simp only [set_client_self, program]
  cases (c.client i).pc <;> simp [rolledBack]

theorem Phase.own_select (hopen : SnapshotsOpen (program reqs) c) (h : Phase reqs c i)
    (hiso : Isolated reqs c (.select i)) (hst : Happens (program reqs) c (.select i) c') : Phase reqs c' i := by
  obtain ⟨next, hs, rfl⟩ := step_select hst
  have hclosed := hopen.closed_of_select hs
  have hview : (c.set i { c.client i with pc := next (c.view i) }).view i = c.view i :=
    view_set_self c i _
  cases h with
  | early hpc hw =>
    rcases hpc with hpc | ⟨pks, hpc⟩
    · cases hop : (reqs i).op with
      | create rows => simp [program, hpc, statement, hop] at hs
      | update q data =>
        obtain rfl : _ = next := by simpa [program, hpc, statement, hop] using hs
        by_cases hnone : movementPks q (c.view i) = ∅
        · refine .closing_empty (by simp [hnone]) (by simp [hw, AccountsKept.empty]) fun id s => ?_
          rw [hview, set_committed, view_of_empty hw]
        · exact .early (.inr ⟨_, by simp [hnone]; rfl⟩) (by simpa using hw)
      | delete q =>
        obtain rfl : _ = next := by simpa [program, hpc, statement, hop] using hs
        have hkept : AccountsKept (c.client i).writes := hw ▸ AccountsKept.empty
        by_cases hnone : movementPks q (c.view i) = ∅
        · exact .declaring ⟨_, .inr (.inl (by simp [hnone]; rfl))⟩ (by simpa using hkept)
        · exact .declaring ⟨_, .inl (by simp [hnone]; rfl)⟩ (by simpa using hkept)
    · cases hop : (reqs i).op <;> simp [program, hpc, statement, hop] at hs
  | declaring hpc hw =>
    obtain ⟨ids, hpc | hpc | hpc⟩ := hpc
    · cases hop : (reqs i).op with
      | create rows => simp [program, hpc, statement, hop] at hs
      | update q data =>
        obtain rfl : _ = next := by simpa [program, hpc, statement, hop] using hs
        exact .declaring ⟨_, .inr (.inr (by simp; rfl))⟩ (by simpa using hw)
      | delete q =>
        obtain rfl : _ = next := by simpa [program, hpc, statement, hop] using hs
        exact .declaring ⟨_, .inr (.inl (by simp; rfl))⟩ (by simpa using hw)
    · cases hop : (reqs i).op <;> simp [program, hpc, statement, hop] at hs
    · obtain rfl : _ = next := by simpa [program, hpc, statement] using hs
      refine .summing _ (by simp; rfl) (by simpa using hw) fun id hid hne s => ?_
      rw [hview, set_committed]
      refine hiso ids hpc id (fun hmem => hid ?_) s
      rw [Finset.mem_filter, view_account hw, Option.isSome_iff_ne_none]
      exact ⟨hmem, hne⟩
  | summing ids hpc hw hcov =>
    obtain rfl : _ = next := by simpa [program, hpc, statement] using hs
    refine .halfway ids ((reqs i).first.sum (c.view i)) (by simp) (by simpa using hw)
      ?_ ?_
    · rw [Covers, hview]; exact hcov
    · intro id _ _
      rw [hview]
  | halfway ids v hpc hw hcov hv =>
    obtain rfl : _ = next := by simpa [program, hpc, statement] using hs
    refine .storing ids v ((reqs i).first.other.sum (c.view i)) (by simp)
      (by simpa using hw) ?_ ?_ ?_ (by simp [hclosed])
    · rw [Covers, hview]; exact hcov
    · rw [Reads, hview]; exact hv
    · intro id _ _
      rw [hview]
  | storing ids v w hpc => simp [program, hpc, statement] at hs
  | closing ids v w hpc => simp [program, hpc, statement] at hs
  | finished hpc => rcases hpc with hpc | hpc <;> simp [program, hpc, statement] at hs

theorem statement_insert {r : Request} {pc next : Point} {rows : Db}
    (h : statement r pc = some (.insert rows next)) :
    pc = .begin ∧ ∃ ms ids, rows = rowsOf ms ∧ next = .fetch ids := by
  cases pc <;> cases hop : r.op <;> simp only [statement, hop, reduceCtorEq, Option.some.injEq,
    Stmt.insert.injEq] at h
  exact ⟨rfl, _, _, h.1.symm, h.2.symm⟩

theorem Phase.own_insert (h : Phase reqs c i) (hst : Happens (program reqs) c (.insert i) c') :
    Phase reqs c' i := by
  obtain ⟨rows, next, hs, -, rfl⟩ := step_insert hst
  obtain ⟨hpc, ms, ids, rfl, rfl⟩ := statement_insert hs
  cases h with
  | early _ hw =>
    refine .declaring ⟨ids, .inr (.inr (by simp))⟩ ?_
    rw [set_client_self]
    exact accountsKept_insert (hw ▸ AccountsKept.empty) ms
  | declaring hpc' => obtain ⟨_, hpc' | hpc' | hpc'⟩ := hpc' <;> cases hpc.symm.trans hpc'
  | summing ids hpc' => cases hpc.symm.trans hpc'
  | halfway ids v hpc' => cases hpc.symm.trans hpc'
  | storing ids v w hpc' => cases hpc.symm.trans hpc'
  | closing ids v w hpc' => cases hpc.symm.trans hpc'
  | finished hpc' => obtain hpc' | hpc' := hpc' <;> cases hpc.symm.trans hpc'

theorem Phase.own_start (h : Phase reqs c i) (hst : Happens (program reqs) c (.start i) c') :
    Phase reqs c' i := by
  obtain ⟨target, write, next, hs, -, rfl⟩ := step_start hst
  have hview : (c.set i { c.client i with snapshot := some (c.view i) }).view i = c.view i :=
    view_set_self c i _
  cases h with
  | early hpc hw => exact .early (by simpa using hpc) (by simpa using hw)
  | declaring hpc hw => exact .declaring (by simpa using hpc) (by simpa using hw)
  | summing ids hpc hw hcov =>
    exact .summing ids (by simpa using hpc) (by simpa using hw) (by rw [Covers, hview]; exact hcov)
  | halfway ids v hpc hw hcov hv =>
    exact .halfway ids v (by simpa using hpc) (by simpa using hw) (by rw [Covers, hview]; exact hcov)
      (by rw [Reads, hview]; exact hv)
  | storing ids v w hpc hw hcov hv hv' hsnap =>
    refine .storing ids v w (by simpa using hpc) (by simpa using hw) (by rw [Covers, hview]; exact hcov)
      (by rw [Reads, hview]; exact hv) (by rw [Reads, hview]; exact hv') ?_
    intro t ht id hne
    obtain rfl : c.view i = t := by simpa using ht
    rw [view_account hw]
    exact hne
  | closing ids v w hpc => simp [program, hpc, statement] at hs
  | finished hpc hw => rcases hpc with hpc | hpc <;> simp [program, hpc, statement] at hs

theorem setTotals_account (s : Side) (v w : String → ℤ) (id : String) (a : Account) :
    ∃ a', setTotals s v w (.account id) (.account a) = .account a' ∧ a'.total s = v id ∧
      a'.total s.other = w id := by
  cases s
  · exact ⟨⟨v id, w id⟩, rfl, rfl, rfl⟩
  · exact ⟨⟨w id, v id⟩, rfl, rfl, rfl⟩

/-- The rows of accounts are no movements. -/
theorem elim_term_account (p : ℤ → Bool) (id id' : String) (o : Option Row) :
    o.elim 0 (term p id (.account id')) = 0 := by
  cases o <;> rfl

/-- The UPDATE of the accounts stores what was read, on every account there is. -/
theorem Phase.stored {ids : Finset String} {v w : String → ℤ} (hpc : (c.client i).pc = .store ids v w)
    (hw : AccountsKept (c.client i).writes) (hcov : Covers c i ids)
    (hv : Reads c i ids (reqs i).first v) (hv' : Reads c i ids (reqs i).first.other w)
    (hsnap : ∀ t, (c.client i).snapshot = some t → ∀ id, c.committed.get (.account id) ≠ none →
      t.get (.account id) ≠ none)
    (hst : Happens (program reqs) c (.finish i) c') : Phase reqs c' i := by
  obtain ⟨target, write, next, snap, hs, hsn, -, rfl⟩ := step_finish hst
  obtain ⟨rfl, rfl, rfl⟩ : (fun _ => isAccountOf ids) = target ∧
      (fun _ k row => some (setTotals (reqs i).first v w k row)) = write ∧
      (fun _ _ => Point.commit) = next := by
    simpa [program, hpc, statement] using hs
  set rows := hits (fun _ => isAccountOf ids) snap (c.view i) with hrows
  have hmovement : ∀ id, rows.get (.movement id) = none := by
    intro id
    cases hh : rows.get (.movement id) with
    | none => rfl
    | some r => simpa [isAccountOf] using (mem_hits.mp hh).2.2
  have hview : ∀ (s : Side) id, s.sum ((c.set i ⟨Point.commit, none,
      (rows.map fun k row => some (setTotals (reqs i).first v w k row)).overlay
        (c.client i).writes⟩).view i) id = s.sum (c.view i) id := by
    intro s id
    rw [view_set_self]
    apply Table.total_congr
    intro k
    cases k with
    | account id' => rw [elim_term_account, elim_term_account]
    | movement id' => simp [hmovement id', Config.view]
  refine .closing ids v w (by simp) ?_ ?_ ?_ ?_ ?_
  · intro id hid hne s
    rw [hview]
    exact hcov id hid hne s
  · intro id hid hne
    rw [hview]
    exact hv id hid hne
  · intro id hid hne
    rw [hview]
    exact hv' id hid hne
  · intro id hid row hrow
    rw [set_committed] at hrow
    obtain ⟨row₀, hrow₀⟩ := Option.ne_none_iff_exists'.mp (hsnap snap hsn id (by rw [hrow]; simp))
    have hhit : rows.get (.account id) = some row := by
      refine mem_hits.mpr ⟨by rw [view_account hw, hrow], ⟨row₀, hrow₀, ?_⟩, ?_⟩
      · simpa [isAccountOf] using hid
      · simpa [isAccountOf] using hid
    simp [hhit]
  · intro id o ho
    rw [set_client_self] at ho
    cases hh : rows.get (.account id) with
    | none => simp [hh, hw id] at ho
    | some row =>
      obtain ⟨hv, -, hid⟩ := mem_hits.mp hh
      rw [view_account hw] at hv
      refine ⟨by simpa [isAccountOf] using hid, ?_⟩
      rw [set_committed, hv]
      simp

theorem Phase.own_finish (h : Phase reqs c i) (hst : Happens (program reqs) c (.finish i) c') :
    Phase reqs c' i := by
  cases h with
  | storing ids v w hpc hw hcov hv hv' hsnap => exact .stored hpc hw hcov hv hv' hsnap hst
  | early hpc hw =>
    obtain ⟨target, write, next, snap, hs, -, -, rfl⟩ := step_finish hst
    rcases hpc with hpc | ⟨pks, hpc⟩
    · cases hop : (reqs i).op <;> simp [program, hpc, statement, hop] at hs
    · cases hop : (reqs i).op with
      | create rows => simp [program, hpc, statement, hop] at hs
      | delete q => simp [program, hpc, statement, hop] at hs
      | update q data =>
        obtain ⟨rfl, rfl, rfl⟩ : (fun _ => filterRows q) = target ∧
            (fun _ _ row => some (data.writeRow row)) = write ∧
            (fun _ _ => if data.amount.isSome then Point.declare pks else .commit) = next := by
          simpa [program, hpc, statement, hop] using hs
        have hkept := accountsKept_hits (hw ▸ AccountsKept.empty) q snap
          fun _ row => some (data.writeRow row)
        cases hd : data.amount with
        | some x => exact .declaring ⟨pks, .inl (by simp)⟩ (by simpa using hkept)
        | none =>
          -- without an amount the rows weigh what they did
          refine .closing_empty (by simp) (by simpa using hkept) fun id s => ?_
          rw [view_set_self, set_committed]
          apply Table.total_congr
          intro k
          cases hh : (hits (fun _ => filterRows q) snap (c.view i)).get k with
          | none => simp [hh, hw]
          | some row =>
            have hrow := (mem_hits.mp hh).1
            rw [view_of_empty hw] at hrow
            simp [hh, hrow, term_writeRow hd]
  | declaring hpc hw =>
    obtain ⟨target, write, next, snap, hs, -, -, rfl⟩ := step_finish hst
    obtain ⟨ids, hpc | hpc | hpc⟩ := hpc
    · cases hop : (reqs i).op <;> simp [program, hpc, statement, hop] at hs
    · cases hop : (reqs i).op with
      | create rows => simp [program, hpc, statement, hop] at hs
      | update q data => simp [program, hpc, statement, hop] at hs
      | delete q =>
        obtain ⟨rfl, rfl, rfl⟩ : (fun _ => filterRows q) = target ∧ (fun _ _ _ => none) = write ∧
            (fun _ _ => Point.fetch ids) = next := by
          simpa [program, hpc, statement, hop] using hs
        exact .declaring ⟨ids, .inr (.inr (by simp))⟩
          (by simpa using accountsKept_hits hw q snap fun _ _ => none)
    · simp [program, hpc, statement] at hs
  | summing ids hpc => obtain ⟨_, _, _, _, hs, -⟩ := step_finish hst; simp [program, hpc, statement] at hs
  | halfway ids v hpc => obtain ⟨_, _, _, _, hs, -⟩ := step_finish hst; simp [program, hpc, statement] at hs
  | closing ids v w hpc => obtain ⟨_, _, _, _, hs, -⟩ := step_finish hst; simp [program, hpc, statement] at hs
  | finished hpc =>
    obtain ⟨_, _, _, _, hs, -⟩ := step_finish hst
    rcases hpc with hpc | hpc <;> simp [program, hpc, statement] at hs

theorem Phase.committed (hst : Happens (program reqs) c (.commit i) c') : Phase reqs c' i := by
  obtain ⟨next, hs, rfl⟩ := step_commit hst
  exact .finished (.inl (by simp [(statement_commit hs).2])) (by simp)

/-- **One event**, of either writer. -/
theorem Phase.step (hx : Exclusive c) (hopen : SnapshotsOpen (program reqs) c)
    (h : ∀ i, Phase reqs c i) {e : Event Bool} (hiso : Isolated reqs c e)
    (hst : Happens (program reqs) c e c') (i : Bool) : Phase reqs c' i := by
  by_cases hi : i = e.client
  · subst hi
    cases e with
    | select i => exact (h i).own_select hopen hiso hst
    | start i => exact (h i).own_start hst
    | finish i => exact (h i).own_finish hst
    | insert i => exact (h i).own_insert hst
    | commit i => exact .committed hst
    | abort i => exact .aborted hst
  · by_cases hcommit : ∃ j, e = .commit j
    · obtain ⟨j, rfl⟩ := hcommit
      exact (h i).frame hx hi (h j) hiso hst
    · exact (h i).congr (step_client_of_ne hst hi) (step_committed hst fun j he => hcommit ⟨j, he⟩)

end Phase

/-! ## The totals -/

section Totals

variable {reqs : Bool → Request} {c c' : Config Bool Key Row Point} {i : Bool}

/-- **What a writer commits is in step**: a refreshed account holds the sums of its view, any other one
keeps both its totals and its sums. -/
theorem Phase.synced (h : Phase reqs c i) (hsync : Synced c.committed)
    (hst : Happens (program reqs) c (.commit i) c') : Synced c'.committed := by
  obtain ⟨next, hs, rfl⟩ := step_commit hst
  rw [synced_iff] at hsync ⊢
  obtain ⟨ids, v, w, hcov, hv, hv', hin, hout⟩ := h.exists_of_commit (statement_commit hs).1
  intro id a ha s
  have ha' : (c.view i).get (.account id) = some (.account a) := ha
  by_cases hid : id ∈ ids ∧ c.committed.get (.account id) ≠ none
  · obtain ⟨hid, hne⟩ := hid
    obtain ⟨row, hrow⟩ := Option.ne_none_iff_exists'.mp hne
    have hwrite := hin id hid row hrow
    have hset : setTotals (reqs i).first v w (.account id) row = .account a := by
      simpa [Config.view, hwrite] using ha'
    cases row with
    | movement m => simp [setTotals] at hset
    | account a₀ =>
      obtain ⟨a', ha₀, hfirst, hsecond⟩ := setTotals_account (reqs i).first v w id a₀
      obtain rfl : a' = a := Row.account.inj (ha₀.symm.trans hset)
      have hv := hv id hid hne
      have hv' := hv' id hid hne
      by_cases hs : s = (reqs i).first
      · subst hs
        exact hfirst.trans hv
      · have hs' : s = (reqs i).first.other := by
          cases s <;> cases hf : (reqs i).first <;> simp_all [Side.other]
        subst hs'
        exact hsecond.trans hv'
  · have hnone : (c.client i).writes.get (.account id) = none := by
      cases hw : (c.client i).writes.get (.account id) with
      | none => rfl
      | some o => exact absurd (hout id o hw) hid
    have hcom : c.committed.get (.account id) = some (.account a) := by
      simpa [Config.view, hnone] using ha'
    have hne : c.committed.get (.account id) ≠ none := by rw [hcom]; simp
    have hkeep := hcov id (fun hmem => hid ⟨hmem, hne⟩) hne s
    exact (hsync id a hcom s).trans hkeep.symm

/-- The invariant of isolated runs. -/
structure Inv (reqs : Bool → Request) (c : Config Bool Key Row Point) : Prop where
  exclusive : Exclusive c
  snapshots : SnapshotsOpen (program reqs) c
  phase : ∀ i, Phase reqs c i
  synced : Synced c.committed

theorem Inv.start {t : Db} (ht : Synced t) : Inv reqs (start t) where
  exclusive := exclusive_of_writes_empty fun _ => rfl
  snapshots := fun _ h => absurd rfl h
  phase := fun _ => .early (.inl rfl) rfl
  synced := ht

theorem Inv.step {e : Event Bool} (hi : Inv reqs c) (hst : Happens (program reqs) c e c')
    (hiso : Isolated reqs c e) : Inv reqs c' where
  exclusive := hi.exclusive.step hst
  snapshots := hi.snapshots.step hst
  phase := Phase.step hi.exclusive hi.snapshots hi.phase hiso hst
  synced := by
    by_cases hcommit : ∃ j, e = .commit j
    · obtain ⟨j, rfl⟩ := hcommit
      exact (hi.phase j).synced hi.synced hst
    · rw [step_committed hst fun j he => hcommit ⟨j, he⟩]
      exact hi.synced

/-- **Account totals under two concurrent writes.**  In every run of isolated steps, in every state it
reaches, the totals of every account are the sums over its committed movements. -/
theorem totals_synced {t : Db} {es : List (Event Bool)} (ht : Synced t)
    (hr : Run (fun c e c' => Happens (program reqs) c e c' ∧ Isolated reqs c e) (start t) es c) :
    Synced c.committed :=
  (hr.invariant (fun _ _ _ hi h => hi.step h.1 h.2) (Inv.start ht)).synced

end Totals

/-! ## A creation alone, and two at once -/

section Sample

/-- Rows of other accounts change nothing. -/
theorem change_term_eq_zero {w : Table Key (Option Row)} {t : Db} {id : String}
    (hnew : ∀ k m, w.get k = some (some (.movement m)) → m.account ≠ id)
    (hold : ∀ k ∈ w.keys, ∀ m, t.get k = some (.movement m) → m.account ≠ id) (p : ℤ → Bool) :
    Table.change (term p id) w t = 0 := by
  apply Finset.sum_eq_zero
  intro k hk
  obtain ⟨o, ho⟩ := Table.mem_keys_iff.mp hk
  have hterm : ∀ r : Option Row, (∀ m, r = some (.movement m) → m.account ≠ id) →
      r.elim 0 (term p id k) = 0 := by
    intro r hr
    cases r with
    | none => rfl
    | some r =>
      cases k <;> cases r <;> try rfl
      rename_i m
      have hne := hr m rfl
      simp [term, hne]
  rw [hterm _ fun m hm => hold k hk m hm, ho]
  rw [hterm (some o).join fun m hm => hnew k m (by rw [ho]; simpa using hm)]
  rfl

def sampleMovement (amount : ℤ) : AccountMovement := ⟨"a", amount, none, "Sale", none, 20000, none⟩

/-- An account without movements. -/
def sampleDb : Db := Table.empty.insert (.account "a") (.account ⟨0, 0⟩)

def sampleCreations (i : Bool) : Request where
  op := .create [(if i then "m1" else "m2", sampleMovement 100)]
  first := .debit

theorem synced_sampleDb : Synced sampleDb := by
  rw [synced_iff]
  intro id a ha s
  have hsum : s.sum sampleDb id = 0 := by
    rw [Side.sum, sumMovements, sampleDb, Table.total_insert rfl, Table.total_empty]
    rfl
  rw [hsum]
  by_cases hid : id = "a"
  · subst hid
    obtain rfl : (⟨0, 0⟩ : Account) = a := by simpa [sampleDb] using ha
    cases s <;> rfl
  · rw [sampleDb, Table.get_insert_of_ne (by simpa using hid)] at ha
    cases ha

/-- Both writers read their sums before the first of them commits. -/
def lostUpdate : List (Event Bool) :=
  [.insert true, .insert false, .select true, .select true, .select true, .select false,
    .select false, .select false, .start true, .finish true, .commit true, .start false,
    .finish false, .commit false]

/-- **The second refresh overwrites the first.** -/
theorem totals_lost :
    ¬ ∀ (reqs : Bool → Request) (t : Db) (es : List (Event Bool)) (c : Config Bool Key Row Point),
      Synced t → Run (Happens (program reqs)) (start t) es c → (∀ i, (c.client i).pc = .done) →
      Synced c.committed := by
  intro h
  have hsync := h sampleCreations sampleDb lostUpdate _ synced_sampleDb (Run.of_foldlM rfl)
    (by intro i; cases i <;> rfl)
  have hcredit := (hsync "a" ⟨0, 100⟩ rfl).2.1
  revert hcredit
  decide

/-- Both writers insert, and the second one reads its sums when the first one has committed. -/
def creations : List (Event Bool) :=
  [.insert true, .insert false, .select true, .select true, .select true, .start true, .finish true, .commit true,
    .select false, .select false, .select false, .start false, .finish false, .commit false]

/-- A writer that has inserted one movement changes the sums of its account only. -/
theorem isolated_fetch {c : Config Bool Key Row Point} {i : Bool} {k : String} {m : AccountMovement}
    (hwrites : (c.client i).writes = ((Table.empty.insert (.movement k) (.movement m)).map fun _ r => some r).overlay
      .empty) (hpc : (c.client i).pc = .fetch {m.account}) (hnew : c.committed.get (.movement k) = none) :
    Isolated sampleCreations c (.select i) := by
  have hrow : ∀ k' r, (c.client i).writes.get k' = some r → k' = .movement k ∧ r = some (.movement m) := by
    intro k' r hr
    rw [hwrites, Table.get_overlay, Table.get_map, Table.get_empty, Option.or_none, Option.map_eq_some_iff] at hr
    obtain ⟨r', hr', rfl⟩ := hr
    obtain ⟨rfl, rfl⟩ := Table.get_insert_empty.mp hr'
    exact ⟨rfl, rfl⟩
  intro ids h id hid s
  obtain rfl := Point.fetch.inj (hpc.symm.trans h)
  have hne : m.account ≠ id := fun heq => hid (Finset.mem_singleton.mpr heq.symm)
  rw [sum_view, change_term_eq_zero, add_zero]
  · intro k' m' hk'
    obtain rfl := Row.movement.inj (Option.some.inj (hrow k' _ hk').2)
    exact hne
  · intro k' hk' m' hm'
    obtain ⟨r, hr⟩ := Table.mem_keys_iff.mp hk'
    rw [(hrow k' r hr).1, hnew] at hm'
    cases hm'

theorem creations_isolated : ∃ c, Run (fun c e c' => Happens (program sampleCreations) c e c' ∧
    Isolated sampleCreations c e) (start sampleDb) creations c ∧ ∀ i, (c.client i).pc = .done := by
  refine ⟨_, .cons ⟨rfl, trivial⟩ (.cons ⟨rfl, trivial⟩ (.cons ⟨rfl, ?_⟩ (.cons ⟨rfl, ?_⟩ (.cons ⟨rfl, ?_⟩
    (.cons ⟨rfl, trivial⟩ (.cons ⟨rfl, trivial⟩ (.cons ⟨rfl, ?_⟩ (.cons ⟨rfl, ?_⟩ (.cons ⟨rfl, ?_⟩ (.cons ⟨rfl, ?_⟩
    (.cons ⟨rfl, trivial⟩ (.cons ⟨rfl, trivial⟩ (.cons ⟨rfl, ?_⟩ (.nil _)))))))))))))), ?_⟩
  · exact isolated_fetch (k := "m1") (m := sampleMovement 100) rfl rfl rfl
  · intro ids h
    cases h
  · intro ids h
    cases h
  · intro j hj s id hid
    cases j
    · exact absurd hid (Finset.notMem_empty id)
    · exact absurd rfl hj
  · exact isolated_fetch (k := "m2") (m := sampleMovement 100) rfl rfl rfl
  · intro ids h
    cases h
  · intro ids h
    cases h
  · intro j hj s id hid
    cases j
    · exact absurd rfl hj
    · exact absurd hid (Finset.notMem_empty id)
  · intro i
    cases i <;> rfl

theorem totals_synced_sample : ∃ c, Run (fun c e c' => Happens (program sampleCreations) c e c' ∧
    Isolated sampleCreations c e) (start sampleDb) creations c ∧ (∀ i, (c.client i).pc = .done) ∧
      Synced c.committed := by
  obtain ⟨c, hr, hdone⟩ := creations_isolated
  exact ⟨c, hr, hdone, totals_synced synced_sampleDb hr⟩

end Sample

end Totem.Accounts
