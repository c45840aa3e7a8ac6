import Totem.Lib.ReadCommitted

/-!
# Totem.Accounts.Movement — the writes of account movements, statement by statement

`account/models/account.py`, `account/models/account_movement.py` and the writes of
`AccountMovementService`: a creation, an update and a deletion as the statements they run in one
transaction, refresh of the account totals included (`CreateMixin._create_atomic`,
`UpdateMixin._update_atomic`, `DeleteMixin._delete_atomic`, `RefreshComputedFieldsContext.flush`,
`bulk_refresh_fields`).  Amounts are in cents.
-/

namespace Totem.Accounts

open Totem.Lib Totem.Lib.ReadCommitted

/-! ## Rows -/

structure AccountMovement where
  account : String
  amount : ℤ
  category : Option String
  name : String
  description : Option String
  date : ℕ
  reference : Option String
deriving DecidableEq, Repr

/-- The stored totals of an account. -/
structure Account where
  totalDebit : ℤ
  totalCredit : ℤ
deriving DecidableEq, Repr

/-- The generated column `balance`. -/
def Account.balance (a : Account) : ℤ := a.totalCredit + a.totalDebit

/-- The primary keys of the two tables. -/
inductive Key
  | account (id : String)
  | movement (id : String)
deriving DecidableEq, Repr

inductive Row
  | account (a : Account)
  | movement (m : AccountMovement)
deriving DecidableEq, Repr

/-- The database, as far as the movements and the accounts go. -/
abbrev Db := Table Key Row

/-! ## Totals -/

/-- The two prefetched totals, `prefetch_total_debit` and `prefetch_total_credit`. -/
inductive Side
  | debit
  | credit
deriving DecidableEq, Repr

def Side.other : Side → Side
  | .debit => .credit
  | .credit => .debit

/-- `amount__lt=0` or `amount__gt=0`. -/
def Side.takes : Side → ℤ → Bool
  | .debit, x => decide (x < 0)
  | .credit, x => decide (0 < x)

/-- The stored total of a side. -/
def Account.total (a : Account) : Side → ℤ
  | .debit => a.totalDebit
  | .credit => a.totalCredit

/-- What a row adds to the sum of the movements of `id` that satisfy `p`. -/
def term (p : ℤ → Bool) (id : String) : Key → Row → ℤ
  | .movement _, .movement m => if m.account = id ∧ p m.amount then m.amount else 0
  | _, _ => 0

/-- `Account._sum_movements`. -/
def sumMovements (p : ℤ → Bool) (t : Db) (id : String) : ℤ := t.total (term p id)

/-- The sum a side is prefetched with. -/
def Side.sum (s : Side) (t : Db) (id : String) : ℤ := sumMovements s.takes t id

/-- The stored totals of every account are the sums over its movements. -/
def Synced (t : Db) : Prop :=
  ∀ id a, t.get (.account id) = some (.account a) →
    a.totalDebit = Side.debit.sum t id ∧ a.totalCredit = Side.credit.sum t id ∧
      a.balance = sumMovements (fun _ => true) t id

/-- The debits and the credits are all the movements. -/
theorem sum_sides (t : Db) (id : String) :
    Side.credit.sum t id + Side.debit.sum t id = sumMovements (fun _ => true) t id := by
  simp only [Side.sum, sumMovements, Table.total, ← Finset.sum_add_distrib]
  apply Finset.sum_congr rfl
  intro k _
  cases t.get k with
  | none => rfl
  | some r =>
    cases k <;> cases r <;> try rfl
    rename_i m
    simp only [Option.elim_some, term, Side.takes, decide_eq_true_eq, and_true]
    by_cases hm : m.account = id
    · rcases lt_trichotomy m.amount 0 with h | h | h
      · simp [hm, h, not_lt.mpr h.le]
      · simp [hm, h]
      · simp [hm, h, not_lt.mpr h.le]
    · simp [hm]

theorem synced_iff {t : Db} :
    Synced t ↔ ∀ id a, t.get (.account id) = some (.account a) → ∀ s : Side, a.total s = s.sum t id := by
  constructor
  · intro h id a ha s
    obtain ⟨hd, hc, -⟩ := h id a ha
    cases s
    · exact hd
    · exact hc
  · intro h id a ha
    have hd := h id a ha .debit
    have hc := h id a ha .credit
    refine ⟨hd, hc, ?_⟩
    rw [← sum_sides, ← hd, ← hc]
    rfl

/-! ## Statements -/

/-- The fields an update sets: the account is not one of them. -/
structure MovementUpdate where
  amount : Option ℤ
  category : Option (Option String)
  name : Option String
  description : Option (Option String)
  date : Option ℕ
  reference : Option (Option String)
deriving DecidableEq, Repr

def MovementUpdate.write (d : MovementUpdate) (m : AccountMovement) : AccountMovement where
  account := m.account
  amount := d.amount.getD m.amount
  category := d.category.getD m.category
  name := d.name.getD m.name
  description := d.description.getD m.description
  date := d.date.getD m.date
  reference := d.reference.getD m.reference

/-- The UPDATE of a row of movements. -/
def MovementUpdate.writeRow (d : MovementUpdate) : Row → Row
  | .movement m => .movement (d.write m)
  | r => r

/-- A service write.  `q` is the filter of an update or a deletion, access rules included. -/
inductive Write
  | create (rows : List (String × AccountMovement))
  | update (q : String → AccountMovement → Bool) (data : MovementUpdate)
  | delete (q : String → AccountMovement → Bool)

/-- A request, and the side its flush prefetches first: the fields of one depth are a set. -/
structure Request where
  op : Write
  first : Side

/-- Where a write stands between two statements. -/
inductive Point
  | begin
  /-- The UPDATE of the movements, `pks` being the rows validated. -/
  | write (pks : Finset String)
  /-- The SELECT of the accounts of the rows `pks`. -/
  | declare (pks : Finset String)
  /-- The DELETE of the movements, the accounts `ids` being declared. -/
  | remove (ids : Finset String)
  /-- The SELECT of the accounts to refresh. -/
  | fetch (ids : Finset String)
  /-- The first prefetch. -/
  | sum (ids : Finset String)
  /-- The second prefetch. -/
  | sum' (ids : Finset String) (v : String → ℤ)
  /-- The `bulk_update` of the accounts. -/
  | store (ids : Finset String) (v w : String → ℤ)
  | commit
  | done
  | failed

/-- The rows an INSERT writes. -/
def rowsOf (rows : List (String × AccountMovement)) : Db :=
  rows.foldr (fun x t => t.insert (.movement x.1) (.movement x.2)) .empty

/-- The rows a filter on movements selects. -/
def filterRows (q : String → AccountMovement → Bool) : Key → Row → Bool
  | .movement id, .movement m => q id m
  | _, _ => false

/-- The primary keys of the movements of a filter. -/
def movementPks (q : String → AccountMovement → Bool) (t : Db) : Finset String :=
  (t.find (filterRows q)).biUnion fun
    | .movement id => {id}
    | .account _ => ∅

/-- `movements__in`: the accounts of the movements `pks`. -/
def accountsOf (pks : Finset String) (t : Db) : Finset String :=
  pks.biUnion fun id =>
    match t.get (.movement id) with
    | some (.movement m) => {m.account}
    | _ => ∅

/-- Set the totals of the accounts `ids`. -/
def setTotals (s : Side) (v w : String → ℤ) : Key → Row → Row
  | .account id, .account _ =>
    match s with
    | .debit => .account ⟨v id, w id⟩
    | .credit => .account ⟨w id, v id⟩
  | _, r => r

/-- The rows of the accounts `ids`. -/
def isAccountOf (ids : Finset String) : Key → Row → Bool
  | .account id, _ => decide (id ∈ ids)
  | _, _ => false

/-- The statement a write runs at a point.  The refresh is the same for the three writes. -/
def statement (r : Request) : Point → Option (Stmt Key Row Point)
  | .begin =>
    match r.op with
    | .create rows =>
      some (.insert (rowsOf rows) (.fetch (rows.map fun x => x.2.account).toFinset))
    | .update q _ =>
      some (.select fun t => if movementPks q t = ∅ then .commit else .write (movementPks q t))
    | .delete q =>
      some (.select fun t => if movementPks q t = ∅ then .remove ∅ else .declare (movementPks q t))
  | .write pks =>
    match r.op with
    | .update q data =>
      some (.modify (fun _ => filterRows q) (fun _ _ row => some (data.writeRow row))
        fun _ _ => if data.amount.isSome then .declare pks else .commit)
    | _ => none
  | .declare pks =>
    match r.op with
    | .update _ _ => some (.select fun t => .fetch (accountsOf pks t))
    | .delete _ => some (.select fun t => .remove (accountsOf pks t))
    | _ => none
  | .remove ids =>
    match r.op with
    | .delete q => some (.modify (fun _ => filterRows q) (fun _ _ _ => none) fun _ _ => .fetch ids)
    | _ => none
  | .fetch ids =>
    some (.select fun t => .sum (ids.filter fun id => (t.get (.account id)).isSome))
  | .sum ids => some (.select fun t => .sum' ids (r.first.sum t))
  | .sum' ids v => some (.select fun t => .store ids v (r.first.other.sum t))
  | .store ids v w =>
    some (.modify (fun _ => isAccountOf ids) (fun _ k row => some (setTotals r.first v w k row))
      fun _ _ => .commit)
  | .commit => some (.commit .done)
  | .done => none
  | .failed => none

end Totem.Accounts
