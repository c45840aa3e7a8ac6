import Totem.Authentication.Session
import Totem.Lib.ReadCommitted

/-!
# Totem.Authentication.Interleaving — two requests on one session

`AuthService._rotate` and `AuthService._revoke` statement by statement, under READ COMMITTED: a
rotation of the live token of a session races with a replay of an older token of it, or with a
sign-out.  The table is indexed by its unique column, the hash of the secret.

* `Race`, `Race.program`: the two requests and their statements.
* `Overtakes`: the rotation commits a successor while the UPDATE that revokes the session is waiting.
* `session_revoked`: in a run without such a step no token of the session is left usable, and in a
  run with one the successor survives.
-/

namespace Totem.Authentication

open Totem.Lib Totem.Lib.ReadCommitted

/-! ## The requests and their statements -/

/-- A request of a client, with the instant it reads and what is drawn for it. -/
inductive Request
  | refresh (secret : String) (now : ℕ) (draw : Draw)
  | revoke (secret : String) (now : ℕ)

/-- Where a request stands between two statements. -/
inductive Point
  /-- The SELECT that finds the token, `FOR UPDATE` in a rotation. -/
  | find
  /-- The UPDATE of `revoke_session`. -/
  | killSession (sessionId : String)
  /-- The UPDATE of `revoke` on the expired token. -/
  | expire (t : RefreshToken)
  /-- The UPDATE of `revoke_for_users`. -/
  | killUser (t : RefreshToken)
  /-- The UPDATE of `revoke` on the token exchanged. -/
  | spend (t : RefreshToken)
  /-- The INSERT of the successor. -/
  | issue (t : RefreshToken)
  | commit
  | done
  | failed
deriving DecidableEq

section Statements

variable (b : Backend) (isActive : String → Bool)

/-- `revoke` as a statement: the rows of the queryset `q` still live. -/
def revokeStmt (q : RefreshToken → Bool) (now : ℕ) (next : Point) :
    Stmt String RefreshToken Point :=
  .modify (fun _ _ t => q t && t.revokedAt.isNone) (fun _ _ t => some (revokeRow q now t))
    fun _ _ => next

/-- `_rotate` once the token is found and locked. -/
def afterFind (now : ℕ) : Option RefreshToken → Point
  | none => .commit
  | some t =>
    if t.revokedAt.isSome then .killSession t.sessionId
    else if t.expiresAt ≤ now then .expire t
    else if !isActive t.user then .killUser t
    else .spend t

/-- The statement a request runs at a point. -/
def statement : Request → Point → Option (Stmt String RefreshToken Point)
  | .refresh secret now _, .find =>
    some (.modify (fun _ _ t => t.secretHash == b.hashSecret secret) (fun _ _ t => some t)
      fun _ rows => afterFind isActive now (rows.get (b.hashSecret secret)))
  | .refresh _ now _, .killSession sid =>
    some (revokeStmt (fun u => u.sessionId == sid) now .commit)
  | .refresh _ now _, .expire t => some (revokeStmt (fun u => u.id == t.id) now .commit)
  | .refresh _ now _, .killUser t => some (revokeStmt (fun u => u.user == t.user) now .commit)
  | .refresh _ now _, .spend t => some (revokeStmt (fun u => u.id == t.id) now (.issue t))
  | .refresh _ now d, .issue t =>
    let u := newToken b d now t.user t.sessionId
    some (.insert (Table.empty.insert u.secretHash u) .commit)
  | .revoke secret _, .find =>
    some (.select fun rows =>
      match rows.get (b.hashSecret secret) with
      | none => .done
      | some t => .killSession t.sessionId)
  | .revoke _ now, .killSession sid =>
    some (revokeStmt (fun u => u.sessionId == sid) now .commit)
  | _, .commit => some (.commit .done)
  | _, _ => none

/-- Where a request is left when its transaction is rolled back. -/
def rolledBack : Point → Point
  | .done => .done
  | _ => .failed

end Statements

/-- The two clients. -/
inductive Party
  | rotation
  | revocation
deriving DecidableEq

instance : Fintype Party := ⟨{.rotation, .revocation}, fun i => by cases i <;> decide⟩

/-- A refresh of `secret`, another request, and the table both find. -/
structure Race where
  b : Backend
  isActive : String → Bool
  secret : String
  now : ℕ
  draw : Draw
  other : Request
  tokens : Table String RefreshToken

namespace Race

variable (r : Race)

def request : Party → Request
  | .rotation => .refresh r.secret r.now r.draw
  | .revocation => r.other

def program : Program Party String RefreshToken Point where
  stmt i := statement r.b r.isActive (r.request i)
  aborted _ := rolledBack

/-- Nothing is sent yet. -/
def start : Config Party String RefreshToken Point := ⟨r.tokens, fun _ => ⟨.find, none, .empty⟩⟩

/-- The secret the other request presents. -/
def otherSecret : String :=
  match r.other with
  | .refresh secret _ _ => secret
  | .revoke secret _ => secret

/-- `r` is a refresh of a live token of the session `sid`, and either a replay of a revoked token of
`sid` or a sign-out with a token of `sid`. -/
structure On (sid : String) : Prop where
  keyed : ∀ k t, r.tokens.get k = some t → t.secretHash = k
  live : ∃ t, r.tokens.get (r.b.hashSecret r.secret) = some t ∧ t.sessionId = sid ∧ t.revokedAt = none
  other : ∃ t, r.tokens.get (r.b.hashSecret r.otherSecret) = some t ∧ t.sessionId = sid ∧
    ((∃ secret now draw, r.other = .refresh secret now draw) → t.revokedAt ≠ none)

end Race

/-- The rotation commits a token that is not revoked while the UPDATE of the other request has taken
its snapshot and waits. -/
def Overtakes (c : Config Party String RefreshToken Point) (e : Event Party) : Prop :=
  e = .commit .rotation ∧
    (∃ k t, (c.client .rotation).writes.get k = some (some t) ∧ t.revokedAt = none) ∧
    ∃ sid, (c.client .revocation).pc = .killSession sid ∧ (c.client .revocation).snapshot ≠ none

/-! ## What the statements write -/

section Rows

/-- `t'` is `t`, but for a `revoked_at` that was not set. -/
structure Keeps (t t' : RefreshToken) : Prop where
  sessionId : t'.sessionId = t.sessionId
  secretHash : t'.secretHash = t.secretHash
  revoked : t.revokedAt ≠ none → t' = t

theorem Keeps.refl (t : RefreshToken) : Keeps t t := ⟨rfl, rfl, fun _ => rfl⟩

theorem Keeps.trans {t t' t'' : RefreshToken} (h : Keeps t t') (h' : Keeps t' t'') : Keeps t t'' where
  sessionId := h'.sessionId.trans h.sessionId
  secretHash := h'.secretHash.trans h.secretHash
  revoked := by
    intro hr
    obtain rfl := h.revoked hr
    exact h'.revoked hr

theorem keeps_revokeRow (q : RefreshToken → Bool) (now : ℕ) (t : RefreshToken) :
    Keeps t (revokeRow q now t) where
  sessionId := revokeRow_sessionId
  secretHash := revokeRow_secretHash
  revoked := by
    intro hr
    obtain ⟨n, hn⟩ := Option.ne_none_iff_exists'.mp hr
    exact revokeRow_of_revoked hn

variable {b : Backend} {isActive : String → Bool} {q : Request} {pc : Point}

/-- A statement only sets the `revoked_at` of the rows it finds. -/
theorem statement_modify {target : Table String RefreshToken → String → RefreshToken → Bool}
    {write : Table String RefreshToken → String → RefreshToken → Option RefreshToken}
    {next : Table String RefreshToken → Table String RefreshToken → Point}
    (h : statement b isActive q pc = some (.modify target write next))
    (snap : Table String RefreshToken) (k : String) (t : RefreshToken) :
    ∃ t', write snap k t = some t' ∧ Keeps t t' := by
  unfold statement at h
  split at h <;> simp only [revokeStmt, Option.some.injEq, Stmt.modify.injEq, reduceCtorEq] at h
  · obtain ⟨-, rfl, -⟩ := h
    exact ⟨t, rfl, .refl t⟩
  all_goals
    obtain ⟨-, rfl, -⟩ := h
    exact ⟨_, rfl, keeps_revokeRow _ _ t⟩

/-- Only a successor is inserted. -/
theorem statement_insert {rows : Table String RefreshToken} {next : Point}
    (h : statement b isActive q pc = some (.insert rows next)) :
    ∃ secret now d t, q = .refresh secret now d ∧ pc = .issue t ∧ next = .commit ∧
      rows = Table.empty.insert (b.hashSecret d.secret) (newToken b d now t.user t.sessionId) := by
  unfold statement at h
  split at h <;> simp only [revokeStmt, Option.some.injEq, Stmt.insert.injEq, reduceCtorEq] at h
  obtain ⟨rfl, rfl⟩ := h
  exact ⟨_, _, _, _, rfl, rfl, rfl, rfl⟩

end Rows

/-! ## The rows of the two requests -/

section Sane

variable {r : Race} {sid : String} {c c' : Config Party String RefreshToken Point} {e : Event Party}
variable {i j : Party}

/-- What a client wrote keeps the committed rows, and their keys. -/
def Tidy (c : Config Party String RefreshToken Point) (i : Party) : Prop :=
  ∀ k o, (c.client i).writes.get k = some o →
    ∃ t', o = some t' ∧ t'.secretHash = k ∧ ∀ t, c.committed.get k = some t → Keeps t t'

/-- The table, and the two tokens presented, over any run. -/
structure Sane (r : Race) (sid : String) (c : Config Party String RefreshToken Point) : Prop where
  exclusive : Exclusive c
  tidy : ∀ i, Tidy c i
  keyed : ∀ k t, c.committed.get k = some t → t.secretHash = k
  presented : ∃ t, c.committed.get (r.b.hashSecret r.secret) = some t ∧ t.sessionId = sid
  other : ∃ t, c.committed.get (r.b.hashSecret r.otherSecret) = some t ∧ t.sessionId = sid ∧
    ((∃ secret now draw, r.other = .refresh secret now draw) → t.revokedAt ≠ none)

theorem Sane.start (h : r.On sid) : Sane r sid r.start where
  exclusive := exclusive_of_writes_empty fun _ => rfl
  tidy := by
    intro i k o ho
    simp [Race.start] at ho
  keyed := h.keyed
  presented := by
    obtain ⟨t, ht, hsid, -⟩ := h.live
    exact ⟨t, ht, hsid⟩
  other := h.other

/-- A row of the view is a committed row, or one the client wrote. -/
theorem view_get {k : String} {t : RefreshToken} (h : (c.view i).get k = some t) :
    ((c.client i).writes.get k = none ∧ c.committed.get k = some t) ∨
      (c.client i).writes.get k = some (some t) := by
  simp only [Config.view, Table.get_apply] at h
  cases hw : (c.client i).writes.get k with
  | none => exact .inl ⟨rfl, by simpa [hw] using h⟩
  | some o => exact .inr (by simpa [hw] using h)

/-- A committed row is in every view, as the client left it. -/
theorem Sane.view_of_committed (hs : Sane r sid c) {k : String} {t : RefreshToken}
    (h : c.committed.get k = some t) : ∃ t', (c.view i).get k = some t' ∧ Keeps t t' := by
  simp only [Config.view, Table.get_apply]
  cases hw : (c.client i).writes.get k with
  | none => exact ⟨t, by simpa using h, .refl t⟩
  | some o =>
    obtain ⟨t', rfl, -, hkeeps⟩ := hs.tidy i k o hw
    exact ⟨t', rfl, hkeeps t h⟩

theorem Sane.keyed_view (hs : Sane r sid c) {k : String} {t : RefreshToken}
    (h : (c.view i).get k = some t) : t.secretHash = k := by
  rcases view_get h with ⟨-, hc⟩ | hw
  · exact hs.keyed k t hc
  · obtain ⟨t', ht', hk, -⟩ := hs.tidy i k _ hw
    obtain rfl := Option.some.inj ht'
    exact hk

/-- A row nobody sees is not committed. -/
theorem Sane.committed_of_view (hs : Sane r sid c) {k : String} (h : (c.view i).get k = none) :
    c.committed.get k = none := by
  cases hc : c.committed.get k with
  | none => rfl
  | some t =>
    obtain ⟨t', ht', -⟩ := hs.view_of_committed (i := i) hc
    rw [h] at ht'
    cases ht'

theorem Tidy.of_eq (h : Tidy c i) (hw : (c'.client i).writes = (c.client i).writes)
    (hc : c'.committed = c.committed) : Tidy c' i := by
  intro k o ho
  rw [hw] at ho
  rw [hc]
  exact h k o ho

theorem Tidy.of_empty (hw : (c.client i).writes = .empty) : Tidy c i := by
  intro k o ho
  rw [hw] at ho
  cases ho

/-- **A statement keeps the rows it writes.** -/
theorem Sane.tidy_finish (hs : Sane r sid c) (h : Happens r.program c (.finish i) c') : Tidy c' i := by
  obtain ⟨target, write, next, snap, hst, -, -, rfl⟩ := step_finish h
  intro k o ho
  simp only [set_client_self, Table.get_overlay, Table.get_map] at ho
  cases hh : (hits target snap (c.view i)).get k with
  | none =>
    rw [hh] at ho
    exact hs.tidy i k o (by simpa using ho)
  | some u =>
    obtain ⟨hv, -, -⟩ := mem_hits.mp hh
    obtain ⟨u', hu', hkeeps⟩ := statement_modify hst snap k u
    have ho' : o = some u' := by simpa [hh, hu', eq_comm] using ho
    refine ⟨u', ho', hkeeps.secretHash.trans (hs.keyed_view hv), fun t ht => ?_⟩
    obtain ⟨t', ht', htt'⟩ := hs.view_of_committed (i := i) ht
    obtain rfl : t' = u := Option.some.inj (ht'.symm.trans hv)
    exact htt'.trans hkeeps

theorem Sane.tidy_insert (hs : Sane r sid c) (h : Happens r.program c (.insert i) c') : Tidy c' i := by
  obtain ⟨rows, next, hst, hfree, rfl⟩ := step_insert h
  obtain ⟨secret, now, d, t, -, -, -, rfl⟩ := statement_insert hst
  intro k o ho
  simp only [set_client_self, Table.get_overlay, Table.get_map] at ho
  by_cases hk : k = r.b.hashSecret d.secret
  · subst hk
    have ho' : o = some (newToken r.b d now t.user t.sessionId) := by simpa [eq_comm] using ho
    refine ⟨_, ho', rfl, fun u hu => ?_⟩
    have hnone := hs.committed_of_view (hfree _ (Table.mem_keys_of_get (Table.get_insert_self _ _ _))).1
    have hu' : c.committed.get (r.b.hashSecret d.secret) = some u := hu
    rw [hnone] at hu'
    cases hu'
  · rw [Table.get_insert_of_ne hk] at ho
    exact hs.tidy i k o (by simpa using ho)

theorem Sane.of_committed (hs : Sane r sid c) (hx : Exclusive c') (ht : ∀ i, Tidy c' i)
    (hc : c'.committed = c.committed) : Sane r sid c' where
  exclusive := hx
  tidy := ht
  keyed := by rw [hc]; exact hs.keyed
  presented := by rw [hc]; exact hs.presented
  other := by rw [hc]; exact hs.other

theorem Sane.commit (hs : Sane r sid c) (h : Happens r.program c (.commit i) c') : Sane r sid c' := by
  have hx := hs.exclusive.step h
  obtain ⟨next, -, rfl⟩ := step_commit h
  refine ⟨hx, fun j => ?_, fun k t => hs.keyed_view, ?_, ?_⟩
  · by_cases hj : j = i
    · subst hj
      exact .of_empty (by simp)
    · intro k o ho
      have hw : (c.client j).writes.get k = some o := by simpa [Function.update_of_ne hj] using ho
      obtain ⟨t', rfl, hk, hkeeps⟩ := hs.tidy j k o hw
      refine ⟨t', rfl, hk, fun t ht => hkeeps t ?_⟩
      rw [← hs.exclusive.view_of_locked hj (Table.mem_keys_of_get hw)]
      exact ht
  · obtain ⟨t, ht, hsid⟩ := hs.presented
    obtain ⟨t', ht', hkeeps⟩ := hs.view_of_committed (i := i) ht
    exact ⟨t', ht', hkeeps.sessionId.trans hsid⟩
  · obtain ⟨t, ht, hsid, hrev⟩ := hs.other
    obtain ⟨t', ht', hkeeps⟩ := hs.view_of_committed (i := i) ht
    refine ⟨t', ht', hkeeps.sessionId.trans hsid, fun hr => ?_⟩
    rw [hkeeps.revoked (hrev hr)]
    exact hrev hr

theorem Sane.step (hs : Sane r sid c) (h : Happens r.program c e c') : Sane r sid c' := by
  have hx := hs.exclusive.step h
  by_cases hcommit : ∃ i, e = .commit i
  · obtain ⟨i, rfl⟩ := hcommit
    exact hs.commit h
  · have hc := step_committed h fun i he => hcommit ⟨i, he⟩
    refine hs.of_committed hx (fun j => ?_) hc
    by_cases hj : j = e.client
    · subst hj
      cases e with
      | select i =>
        obtain ⟨next, -, rfl⟩ := step_select h
        exact (hs.tidy i).of_eq (by simp) rfl
      | start i =>
        obtain ⟨_, _, _, -, -, rfl⟩ := step_start h
        exact (hs.tidy i).of_eq (by simp) rfl
      | finish i => exact hs.tidy_finish h
      | insert i => exact hs.tidy_insert h
      | commit i => exact absurd ⟨i, rfl⟩ hcommit
      | abort i =>
        obtain rfl := step_abort h
        exact .of_empty (by simp [Event.client])
    · exact (hs.tidy j).of_eq (by rw [step_client_of_ne h hj]) hc

end Sane

/-! ## Where the rotation stands -/

section Rotation

variable {r : Race} {sid : String} {c c' : Config Party String RefreshToken Point}

/-- Every row written is revoked. -/
def Revoked (w : Table String (Option RefreshToken)) : Prop :=
  ∀ k t, w.get k = some (some t) → t.revokedAt ≠ none

theorem Revoked.empty : Revoked .empty := by
  intro k t ht
  cases ht

/-- The rows of a client after a `revoke` it ran. -/
theorem Revoked.overlay {q : RefreshToken → Bool} {now : ℕ} {rows : Table String RefreshToken}
    {w : Table String (Option RefreshToken)} (hrows : ∀ k t, rows.get k = some t → q t = true)
    (hw : ∀ k t, rows.get k = none → w.get k = some (some t) → t.revokedAt ≠ none) :
    Revoked ((rows.map fun _ t => some (revokeRow q now t)).overlay w) := by
  intro k t ht
  simp only [Table.get_overlay, Table.get_map] at ht
  cases hr : rows.get k with
  | none => exact hw k t hr (by simpa [hr] using ht)
  | some u =>
    obtain rfl : revokeRow q now u = t := by simpa [hr] using ht
    exact revokeRow_revokedAt_ne_none (hrows k u hr)

/-- The rotation, from its SELECT to its end.  As soon as it found the token live it holds the lock
of the row, which stays live in the table until the rotation is over. -/
inductive Rotation (r : Race) (sid : String) (c : Config Party String RefreshToken Point) : Prop
  | finding (hpc : (c.client .rotation).pc = .find) (hw : (c.client .rotation).writes = .empty)
  | killing (hpc : (c.client .rotation).pc = .killSession sid)
      (hw : Revoked (c.client .rotation).writes)
  | holding {t : RefreshToken}
      (hpc : (c.client .rotation).pc = .spend t ∨ (c.client .rotation).pc = .expire t ∨
        (c.client .rotation).pc = .killUser t)
      (ht : c.committed.get (r.b.hashSecret r.secret) = some t) (hsid : t.sessionId = sid)
      (hlive : t.revokedAt = none)
      (hlock : (c.client .rotation).writes.get (r.b.hashSecret r.secret) = some (some t))
      (honly : ∀ k, k ≠ r.b.hashSecret r.secret → (c.client .rotation).writes.get k = none)
      (hsnap : ∀ s, (c.client .rotation).snapshot = some s → s.get (r.b.hashSecret r.secret) = some t)
  | issuing {t : RefreshToken} (hpc : (c.client .rotation).pc = .issue t)
      (ht : c.committed.get (r.b.hashSecret r.secret) = some t) (hsid : t.sessionId = sid)
      (hlive : t.revokedAt = none)
      (hlock : r.b.hashSecret r.secret ∈ (c.client .rotation).writes.keys)
      (hw : Revoked (c.client .rotation).writes)
  | issued {t u : RefreshToken} {k : String} (hpc : (c.client .rotation).pc = .commit)
      (ht : c.committed.get (r.b.hashSecret r.secret) = some t) (hsid : t.sessionId = sid)
      (hlive : t.revokedAt = none)
      (hlock : r.b.hashSecret r.secret ∈ (c.client .rotation).writes.keys)
      (hnew : c.committed.get k = none)
      (hk : (c.client .rotation).writes.get k = some (some u))
      (hu : u = newToken r.b r.draw r.now t.user sid)
      (hothers : ∀ k' t', (c.client .rotation).writes.get k' = some (some t') → k' ≠ k →
        t'.revokedAt ≠ none)
  | closing (hpc : (c.client .rotation).pc = .commit) (hw : Revoked (c.client .rotation).writes)
  | finished (hpc : (c.client .rotation).pc = .done ∨ (c.client .rotation).pc = .failed)
      (hw : (c.client .rotation).writes = .empty)

/-- A live row is written only under the lock of the token presented, itself still live. -/
theorem Rotation.revoked_or_locked (hrot : Rotation r sid c) :
    Revoked (c.client .rotation).writes ∨
      ∃ t, c.committed.get (r.b.hashSecret r.secret) = some t ∧ t.sessionId = sid ∧
        t.revokedAt = none ∧ r.b.hashSecret r.secret ∈ (c.client .rotation).writes.keys := by
  cases hrot with
  | finding hpc hw => exact .inl (hw ▸ Revoked.empty)
  | killing hpc hw => exact .inl hw
  | holding hpc ht hsid hlive hlock => exact .inr ⟨_, ht, hsid, hlive, Table.mem_keys_of_get hlock⟩
  | issuing hpc ht hsid hlive hlock hw => exact .inl hw
  | issued hpc ht hsid hlive hlock => exact .inr ⟨_, ht, hsid, hlive, hlock⟩
  | closing hpc hw => exact .inl hw
  | finished hpc hw => exact .inl (hw ▸ Revoked.empty)

theorem rolledBack_eq (pc : Point) : rolledBack pc = .done ∨ rolledBack pc = .failed := by
  cases pc <;> simp [rolledBack]

/-- The SELECT FOR UPDATE finds the token presented, and nothing else. -/
theorem Rotation.find (hs : Sane r sid c) (hpc : (c.client .rotation).pc = .find)
    (hw : (c.client .rotation).writes = .empty) (h : Happens r.program c (.finish .rotation) c') :
    Rotation r sid c' := by
  obtain ⟨target, write, next, snap, hst, hsnap, hfree, rfl⟩ := step_finish h
  rw [hpc] at hst
  obtain ⟨rfl, rfl, rfl⟩ : target = (fun _ _ t => t.secretHash == r.b.hashSecret r.secret) ∧
      write = (fun _ _ t => some t) ∧
      next = fun _ rows => afterFind r.isActive r.now (rows.get (r.b.hashSecret r.secret)) := by
    simpa [Race.program, Race.request, statement, eq_comm] using hst
  have honly : ∀ k, k ≠ r.b.hashSecret r.secret →
      (hits (fun _ _ t => t.secretHash == r.b.hashSecret r.secret) snap (c.view .rotation)).get k =
        none := by
    intro k hk
    cases hh : (hits _ snap (c.view .rotation)).get k with
    | none => rfl
    | some t =>
      obtain ⟨hv, -, ht⟩ := mem_hits.mp hh
      exact absurd ((hs.keyed_view hv).symm.trans (by simpa using ht)) hk
  cases hh : (hits (fun _ _ t => t.secretHash == r.b.hashSecret r.secret) snap
      (c.view .rotation)).get (r.b.hashSecret r.secret) with
  | none =>
    refine .closing (by simp [hh, afterFind]) ?_
    intro k t ht
    by_cases hk : k = r.b.hashSecret r.secret
    · subst hk; simp [hh, hw] at ht
    · simp [honly k hk, hw] at ht
  | some t =>
    have hview := (mem_hits.mp hh).1
    have ht : c.committed.get (r.b.hashSecret r.secret) = some t := by
      rcases view_get hview with ⟨-, hc⟩ | hc
      · exact hc
      · rw [hw] at hc; cases hc
    have hsid : t.sessionId = sid := by
      obtain ⟨t', ht', hsid⟩ := hs.presented
      obtain rfl := Option.some.inj (ht.symm.trans ht')
      exact hsid
    by_cases hrev : t.revokedAt = none
    · -- the token is live: its row is locked from here on
      have hpc' : ∃ pc, afterFind r.isActive r.now (some t) = pc ∧
          (pc = .spend t ∨ pc = .expire t ∨ pc = .killUser t) := by
        refine ⟨_, rfl, ?_⟩
        simp only [afterFind, hrev, Option.isSome_none, Bool.false_eq_true, if_false]
        split_ifs <;> simp
      obtain ⟨pc, hafter, hpc'⟩ := hpc'
      refine .holding (t := t) (by simpa [hh, hafter] using hpc') ht hsid hrev ?_ ?_ ?_
      · simp [hh]
      · intro k hk
        simp [honly k hk, hw]
      · simp
    · refine .killing ?_ ?_
      · simp [hh, afterFind, Option.isSome_iff_ne_none.mpr hrev, hsid]
      · intro k t' ht'
        by_cases hk : k = r.b.hashSecret r.secret
        · subst hk
          obtain rfl : t = t' := by simpa [hh] using ht'
          exact hrev
        · simp [honly k hk, hw] at ht'

/-- What a `revoke` of the queryset `q` does when it finishes. -/
theorem finish_revoke {i : Party} {q : RefreshToken → Bool} {now : ℕ} {next : Point}
    (hst : r.program.stmt i (c.client i).pc = some (revokeStmt q now next))
    (h : Happens r.program c (.finish i) c') :
    ∃ snap, ∃ rows : Table String RefreshToken, (c.client i).snapshot = some snap ∧
      (∀ k t, snap.get k = some t → q t = true → t.revokedAt = none → ¬ c.Locked i k) ∧
      (∀ k t, rows.get k = some t ↔ (c.view i).get k = some t ∧
        (∃ u, snap.get k = some u ∧ q u = true ∧ u.revokedAt = none) ∧ q t = true ∧
          t.revokedAt = none) ∧
      c' = c.set i ⟨next, none,
        (rows.map fun _ t => some (revokeRow q now t)).overlay (c.client i).writes⟩ := by
  obtain ⟨target, write, next', snap, hst', hsnap, hfree, rfl⟩ := step_finish h
  rw [hst, revokeStmt] at hst'
  obtain ⟨rfl, rfl, rfl⟩ := Stmt.modify.inj (Option.some.inj hst')
  refine ⟨snap, _, hsnap, fun k t ht hq hlive => hfree k t ht (by simp [hq, hlive]),
    fun k t => ?_, rfl⟩
  rw [mem_hits]
  simp

/-- The UPDATE of a token held revokes it. -/
theorem Rotation.revoke_held {t : RefreshToken} {q : RefreshToken → Bool} {now : ℕ} {next : Point}
    (hst : r.program.stmt .rotation (c.client .rotation).pc = some (revokeStmt q now next))
    (hq : q t = true) (hlive : t.revokedAt = none)
    (hlock : (c.client .rotation).writes.get (r.b.hashSecret r.secret) = some (some t))
    (honly : ∀ k, k ≠ r.b.hashSecret r.secret → (c.client .rotation).writes.get k = none)
    (hsnap : ∀ s, (c.client .rotation).snapshot = some s → s.get (r.b.hashSecret r.secret) = some t)
    (h : Happens r.program c (.finish .rotation) c') :
    (c'.client .rotation).pc = next ∧ c'.committed = c.committed ∧
      r.b.hashSecret r.secret ∈ (c'.client .rotation).writes.keys ∧
      Revoked (c'.client .rotation).writes := by
  obtain ⟨snap, rows, hs, -, hrows, rfl⟩ := finish_revoke hst h
  have hrow : rows.get (r.b.hashSecret r.secret) = some t := by
    refine (hrows _ _).mpr ⟨?_, ⟨t, hsnap snap hs, hq, hlive⟩, hq, hlive⟩
    simp [Config.view, hlock]
  refine ⟨by simp, rfl, ?_, ?_⟩
  · exact Table.mem_keys_iff.mpr ⟨some (revokeRow q now t), by simp [hrow]⟩
  · rw [set_client_self]
    refine Revoked.overlay (fun k u hu => ((hrows k u).mp hu).2.2.1) fun k u hnone hu => ?_
    by_cases hk : k = r.b.hashSecret r.secret
    · subst hk
      rw [hrow] at hnone
      cases hnone
    · rw [honly k hk] at hu
      cases hu

theorem Rotation.finish (hs : Sane r sid c) (hrot : Rotation r sid c)
    (h : Happens r.program c (.finish .rotation) c') : Rotation r sid c' := by
  cases hrot with
  | finding hpc hw => exact .find hs hpc hw h
  | killing hpc hw =>
    have hst : r.program.stmt .rotation (c.client .rotation).pc =
        some (revokeStmt (fun u => u.sessionId == sid) r.now .commit) := by
      rw [hpc]; rfl
    obtain ⟨snap, rows, -, -, hrows, rfl⟩ := finish_revoke hst h
    refine .closing (by simp) ?_
    rw [set_client_self]
    exact Revoked.overlay (fun k u hu => ((hrows k u).mp hu).2.2.1) fun k u _ hu => hw k u hu
  | @holding t hpc ht hsid hlive hlock honly hsnap =>
    rcases hpc with hpc | hpc | hpc
    · have hst : r.program.stmt .rotation (c.client .rotation).pc =
          some (revokeStmt (fun u => u.id == t.id) r.now (.issue t)) := by
        rw [hpc]; rfl
      obtain ⟨hpc', hc, hkey, hrev⟩ := revoke_held hst (by simp) hlive hlock honly hsnap h
      exact .issuing hpc' (hc ▸ ht) hsid hlive hkey hrev
    · have hst : r.program.stmt .rotation (c.client .rotation).pc =
          some (revokeStmt (fun u => u.id == t.id) r.now .commit) := by
        rw [hpc]; rfl
      obtain ⟨hpc', -, -, hrev⟩ := revoke_held hst (by simp) hlive hlock honly hsnap h
      exact .closing hpc' hrev
    · have hst : r.program.stmt .rotation (c.client .rotation).pc =
          some (revokeStmt (fun u => u.user == t.user) r.now .commit) := by
        rw [hpc]; rfl
      obtain ⟨hpc', -, -, hrev⟩ := revoke_held hst (by simp) hlive hlock honly hsnap h
      exact .closing hpc' hrev
  | issuing hpc =>
    obtain ⟨_, _, _, _, hst, -⟩ := step_finish h
    rw [hpc] at hst
    cases hst
  | issued hpc =>
    obtain ⟨_, _, _, _, hst, -⟩ := step_finish h
    rw [hpc] at hst
    cases hst
  | closing hpc =>
    obtain ⟨_, _, _, _, hst, -⟩ := step_finish h
    rw [hpc] at hst
    cases hst
  | finished hpc =>
    obtain ⟨_, _, _, _, hst, -⟩ := step_finish h
    rcases hpc with hpc | hpc <;> rw [hpc] at hst <;> cases hst

/-- An INSERT of the rotation is the one of the successor. -/
theorem Rotation.insert (hs : Sane r sid c) (hrot : Rotation r sid c)
    (h : Happens r.program c (.insert .rotation) c') : Rotation r sid c' := by
  obtain ⟨rows, next, hst, hfree, rfl⟩ := step_insert h
  obtain ⟨secret, now, d, t, hq, hpc, rfl, rfl⟩ := statement_insert hst
  obtain ⟨rfl, rfl, rfl⟩ := Request.refresh.inj hq
  have hnone := hs.committed_of_view (hfree _ (Table.mem_keys_of_get (Table.get_insert_self _ _ _))).1
  cases hrot with
  | @issuing t' hpc' ht hsid hlive hlock hw =>
    rw [hpc'] at hpc
    obtain rfl := Point.issue.inj hpc
    refine .issued (k := r.b.hashSecret r.draw.secret)
      (u := newToken r.b r.draw r.now t'.user t'.sessionId) (by simp) ht hsid hlive ?_ hnone (by simp)
      (by rw [hsid]) ?_
    · simp [Table.overlay, hlock]
    · intro k' u hu hk'
      rw [set_client_self] at hu
      simp only [Table.get_overlay, Table.get_map, Table.get_insert_of_ne hk'] at hu
      exact hw k' u (by simpa using hu)
  | finding hpc' => rw [hpc'] at hpc; cases hpc
  | killing hpc' => rw [hpc'] at hpc; cases hpc
  | holding hpc' => rcases hpc' with hpc' | hpc' | hpc' <;> rw [hpc'] at hpc <;> cases hpc
  | issued hpc' => rw [hpc'] at hpc; cases hpc
  | closing hpc' => rw [hpc'] at hpc; cases hpc
  | finished hpc' => rcases hpc' with hpc' | hpc' <;> rw [hpc'] at hpc <;> cases hpc

/-- The start of a statement only takes its snapshot. -/
theorem Rotation.begin (hrot : Rotation r sid c) (h : Happens r.program c (.start .rotation) c') :
    Rotation r sid c' := by
  obtain ⟨_, _, _, -, -, rfl⟩ := step_start h
  cases hrot with
  | finding hpc hw => exact .finding (by simpa using hpc) (by simpa using hw)
  | killing hpc hw => exact .killing (by simpa using hpc) (by simpa using hw)
  | holding hpc ht hsid hlive hlock honly hsnap =>
    refine .holding (by simpa using hpc) ht hsid hlive (by simpa using hlock)
      (by simpa using honly) ?_
    intro s hs
    obtain rfl : c.view .rotation = s := by simpa using hs
    simp [Config.view, hlock]
  | issuing hpc ht hsid hlive hlock hw =>
    exact .issuing (by simpa using hpc) ht hsid hlive (by simpa using hlock) (by simpa using hw)
  | issued hpc ht hsid hlive hlock hnew hk hu hothers =>
    exact .issued (by simpa using hpc) ht hsid hlive (by simpa using hlock) hnew (by simpa using hk)
      hu (by simpa using hothers)
  | closing hpc hw => exact .closing (by simpa using hpc) (by simpa using hw)
  | finished hpc hw => exact .finished (by simpa using hpc) (by simpa using hw)

/-- The other client cannot touch the row the rotation holds, nor the successor. -/
theorem Rotation.frame (hs : Sane r sid c) (hrot : Rotation r sid c) {e : Event Party}
    (he : e.client = .revocation) (h : Happens r.program c e c') : Rotation r sid c' := by
  have hcl : c'.client .rotation = c.client .rotation :=
    step_client_of_ne h (by rw [he]; decide)
  have hget : ∀ k ∈ (c.client .rotation).writes.keys, c'.committed.get k = c.committed.get k := by
    intro k hk
    by_cases hcommit : e = .commit .revocation
    · subst hcommit
      exact hs.exclusive.commit_of_locked (by decide) h hk
    · rw [step_committed h]
      rintro i rfl
      exact hcommit (congrArg Event.commit he)
  cases hrot with
  | finding hpc hw => exact .finding (hcl ▸ hpc) (hcl ▸ hw)
  | killing hpc hw => exact .killing (hcl ▸ hpc) (hcl ▸ hw)
  | holding hpc ht hsid hlive hlock honly hsnap =>
    refine .holding (hcl ▸ hpc) ?_ hsid hlive (hcl ▸ hlock) (hcl ▸ honly) (hcl ▸ hsnap)
    rw [hget _ (Table.mem_keys_of_get hlock), ht]
  | issuing hpc ht hsid hlive hlock hw =>
    exact .issuing (hcl ▸ hpc) ((hget _ hlock).trans ht) hsid hlive (hcl ▸ hlock) (hcl ▸ hw)
  | issued hpc ht hsid hlive hlock hnew hk hu hothers =>
    exact .issued (hcl ▸ hpc) ((hget _ hlock).trans ht) hsid hlive (hcl ▸ hlock)
      ((hget _ (Table.mem_keys_of_get hk)).trans hnew) (hcl ▸ hk) hu (hcl ▸ hothers)
  | closing hpc hw => exact .closing (hcl ▸ hpc) (hcl ▸ hw)
  | finished hpc hw => exact .finished (hcl ▸ hpc) (hcl ▸ hw)

/-- A COMMIT of the rotation ends it. -/
theorem Rotation.commit (h : Happens r.program c (.commit .rotation) c') :
    (c'.client .rotation).pc = .done ∧ (c'.client .rotation).writes = .empty := by
  obtain ⟨next, hst, rfl⟩ := step_commit h
  have hnext : next = .done := by
    simp only [Race.program, Race.request, statement] at hst
    split at hst <;> simp_all [revokeStmt]
  simp [hnext]

theorem Rotation.step (hs : Sane r sid c) (hrot : Rotation r sid c) {e : Event Party}
    (h : Happens r.program c e c') : Rotation r sid c' := by
  by_cases he : e.client = .rotation
  · cases e with
    | select i =>
      obtain rfl : i = .rotation := he
      obtain ⟨next, hst, -⟩ := step_select h
      simp only [Race.program, Race.request, statement] at hst
      split at hst <;> simp_all [revokeStmt]
    | start i =>
      obtain rfl : i = .rotation := he
      exact hrot.begin h
    | finish i =>
      obtain rfl : i = .rotation := he
      exact hrot.finish hs h
    | insert i =>
      obtain rfl : i = .rotation := he
      exact hrot.insert hs h
    | commit i =>
      obtain rfl : i = .rotation := he
      exact .finished (.inl (Rotation.commit h).1) (Rotation.commit h).2
    | abort i =>
      obtain rfl : i = .rotation := he
      obtain rfl := step_abort h
      exact .finished (by simpa [Race.program] using rolledBack_eq _) (by simp)
  · exact hrot.frame hs (by cases hc : e.client <;> simp_all) h

end Rotation

/-! ## Where the revocation stands -/

section Revocation

variable {r : Race} {sid : String} {c c' : Config Party String RefreshToken Point}

/-- The other request.  The snapshot of its SELECT FOR UPDATE has the token presented; the one of its
UPDATE has every live token of the session, and nothing that was not committed; from `closing` on
every live token of the session is locked. -/
inductive Revocation (r : Race) (sid : String) (c : Config Party String RefreshToken Point) : Prop
  | finding (hpc : (c.client .revocation).pc = .find) (hw : (c.client .revocation).writes = .empty)
      (hsnap : ∀ s, (c.client .revocation).snapshot = some s →
        (∃ secret now draw, r.other = .refresh secret now draw) ∧
        ∃ t, s.get (r.b.hashSecret r.otherSecret) = some t ∧
          t.secretHash = r.b.hashSecret r.otherSecret)
  | killing (hpc : (c.client .revocation).pc = .killSession sid)
      (hw : Revoked (c.client .revocation).writes)
      (hkeys : ∀ k ∈ (c.client .revocation).writes.keys, c.committed.get k ≠ none)
      (hsnap : ∀ s, (c.client .revocation).snapshot = some s →
        (∀ k, c.committed.get k = none → s.get k = none) ∧
        ∀ k t, c.committed.get k = some t → t.sessionId = sid → t.revokedAt = none →
          k ∈ (c.client .revocation).writes.keys ∨
            ∃ t', s.get k = some t' ∧ t'.sessionId = sid ∧ t'.revokedAt = none)
  | closing (hpc : (c.client .revocation).pc = .commit) (hw : Revoked (c.client .revocation).writes)
      (hall : ∀ k t, c.committed.get k = some t → t.sessionId = sid → t.revokedAt = none →
        k ∈ (c.client .revocation).writes.keys)
  | done (hpc : (c.client .revocation).pc = .done) (hw : (c.client .revocation).writes = .empty)
      (hall : ∀ k t, c.committed.get k = some t → t.sessionId = sid → t.revokedAt ≠ none)
  | failed (hpc : (c.client .revocation).pc = .failed)

/-- The UPDATE of the other request is the one of `revoke_session`. -/
theorem Race.stmt_killSession (r : Race) (sid : String) :
    ∃ now, r.program.stmt .revocation (.killSession sid) =
      some (revokeStmt (fun u => u.sessionId == sid) now .commit) := by
  cases ho : r.other with
  | revoke secret now => exact ⟨now, by simp [Race.program, Race.request, ho, statement]⟩
  | refresh secret now draw => exact ⟨now, by simp [Race.program, Race.request, ho, statement]⟩

/-- A replay finds its revoked token, and goes for the session. -/
theorem Revocation.find (hs : Sane r sid c) (hpc : (c.client .revocation).pc = .find)
    (hw : (c.client .revocation).writes = .empty)
    (hsnap : ∀ s, (c.client .revocation).snapshot = some s →
      (∃ secret now draw, r.other = .refresh secret now draw) ∧
      ∃ t, s.get (r.b.hashSecret r.otherSecret) = some t ∧
        t.secretHash = r.b.hashSecret r.otherSecret)
    (h : Happens r.program c (.finish .revocation) c') : Revocation r sid c' := by
  obtain ⟨target, write, next, snap, hst, hs', -, rfl⟩ := step_finish h
  rw [hpc] at hst
  cases ho : r.other with
  | revoke secret now => simp [Race.program, Race.request, ho, statement] at hst
  | refresh secret now draw =>
    obtain ⟨rfl, rfl, rfl⟩ : target = (fun _ _ t => t.secretHash == r.b.hashSecret secret) ∧
        write = (fun _ _ t => some t) ∧
        next = fun _ rows => afterFind r.isActive now (rows.get (r.b.hashSecret secret)) := by
      simpa [Race.program, Race.request, ho, statement, eq_comm] using hst
    obtain ⟨t, ht, hsid, hrevoked⟩ := hs.other
    obtain ⟨-, t₀, ht₀, hkey⟩ := hsnap snap hs'
    have hsec : r.otherSecret = secret := by simp [Race.otherSecret, ho]
    rw [hsec] at ht ht₀ hkey
    have hne := hrevoked ⟨secret, now, draw, ho⟩
    have hview : (c.view .revocation).get (r.b.hashSecret secret) = some t := by
      simpa [Config.view, hw] using ht
    have hhit : (hits (fun _ _ t => t.secretHash == r.b.hashSecret secret) snap
        (c.view .revocation)).get (r.b.hashSecret secret) = some t :=
      mem_hits.mpr ⟨hview, ⟨t₀, ht₀, by simpa using hkey⟩, by simpa using hs.keyed _ _ ht⟩
    have hrows : ∀ k u, (hits (fun _ _ t => t.secretHash == r.b.hashSecret secret) snap
        (c.view .revocation)).get k = some u → k = r.b.hashSecret secret ∧ u = t := by
      intro k u hu
      obtain ⟨hv, -, hk⟩ := mem_hits.mp hu
      have hk' : k = r.b.hashSecret secret := (hs.keyed_view hv).symm.trans (by simpa using hk)
      subst hk'
      exact ⟨rfl, Option.some.inj (hv.symm.trans hview)⟩
    refine .killing ?_ ?_ ?_ (by simp)
    · simp [hhit, afterFind, Option.isSome_iff_ne_none.mpr hne, hsid]
    · intro k u hu
      rw [set_client_self, hw] at hu
      obtain ⟨v, hv, rfl⟩ : ∃ v, (hits _ snap (c.view .revocation)).get k = some v ∧ v = u := by
        simpa using hu
      rw [(hrows k v hv).2]
      exact hne
    · intro k hk
      rw [set_client_self, hw] at hk
      obtain ⟨o, hk⟩ := Table.mem_keys_iff.mp hk
      obtain ⟨v, hv, -⟩ : ∃ v, (hits _ snap (c.view .revocation)).get k = some v ∧ some v = o := by
        simpa using hk
      rw [(hrows k v hv).1, set_committed, ht]
      simp

theorem Revocation.finish (hs : Sane r sid c) (hrev : Revocation r sid c)
    (h : Happens r.program c (.finish .revocation) c') : Revocation r sid c' := by
  have hidle : ∀ pc, (c.client .revocation).pc = pc →
      (∀ target write next, r.program.stmt .revocation pc ≠ some (.modify target write next)) →
      False := by
    intro pc hpc hne
    obtain ⟨target, write, next, _, hst, -⟩ := step_finish h
    exact hne target write next (hpc ▸ hst)
  cases hrev with
  | finding hpc hw hsnap => exact .find hs hpc hw hsnap h
  | killing hpc hw hkeys hsnap =>
    obtain ⟨now, hst⟩ := r.stmt_killSession sid
    rw [← hpc] at hst
    obtain ⟨snap, rows, hs', -, hrows, rfl⟩ := finish_revoke hst h
    obtain ⟨-, hcover⟩ := hsnap snap hs'
    refine .closing (by simp) ?_ ?_
    · rw [set_client_self]
      exact Revoked.overlay (fun k u hu => ((hrows k u).mp hu).2.2.1) fun k u _ hu => hw k u hu
    · intro k t ht hsid hlive
      rw [set_client_self]
      simp only [Table.overlay, Table.keys_map, Finset.mem_union]
      by_cases hk : k ∈ (c.client .revocation).writes.keys
      · exact .inr hk
      · obtain ⟨t', ht', hsid', hlive'⟩ := (hcover k t ht hsid hlive).resolve_left hk
        refine .inl (Table.mem_keys_of_get ((hrows k t).mpr ⟨?_, ⟨t', ht', ?_, hlive'⟩, ?_, hlive⟩))
        · rw [set_committed] at ht
          simp [Config.view, Table.get_eq_none.mpr hk, ht]
        · simpa using hsid'
        · simpa using hsid
  | closing hpc =>
    refine (hidle _ hpc fun _ _ _ => ?_).elim
    cases ho : r.other <;> simp [Race.program, Race.request, ho, statement]
  | done hpc =>
    refine (hidle _ hpc fun _ _ _ => ?_).elim
    cases ho : r.other <;> simp [Race.program, Race.request, ho, statement]
  | failed hpc =>
    refine (hidle _ hpc fun _ _ _ => ?_).elim
    cases ho : r.other <;> simp [Race.program, Race.request, ho, statement]

theorem Revocation.begin (hs : Sane r sid c) (hrev : Revocation r sid c)
    (h : Happens r.program c (.start .revocation) c') : Revocation r sid c' := by
  obtain ⟨_, _, _, hst, -, rfl⟩ := step_start h
  cases hrev with
  | finding hpc hw hsnap =>
    have hreplay : ∃ secret now draw, r.other = .refresh secret now draw := by
      cases ho : r.other with
      | refresh secret now draw => exact ⟨secret, now, draw, rfl⟩
      | revoke secret now => simp [hpc, Race.program, Race.request, ho, statement] at hst
    refine .finding (by simpa using hpc) (by simpa using hw) fun s hs' => ?_
    obtain rfl : c.view .revocation = s := by simpa using hs'
    obtain ⟨t, ht, -⟩ := hs.other
    obtain ⟨t', ht', -⟩ := hs.view_of_committed (i := .revocation) ht
    exact ⟨hreplay, t', ht', hs.keyed_view ht'⟩
  | killing hpc hw hkeys hsnap =>
    refine .killing (by simpa using hpc) (by simpa using hw) (by simpa using hkeys) fun s hs' => ?_
    obtain rfl : c.view .revocation = s := by simpa using hs'
    rw [set_client_self, set_committed]
    refine ⟨fun k hk => ?_, fun k t ht hsid hlive => ?_⟩
    · have hnot : k ∉ (c.client .revocation).writes.keys := fun hmem => hkeys k hmem hk
      simp [Config.view, Table.get_eq_none.mpr hnot, hk]
    · by_cases hk : k ∈ (c.client .revocation).writes.keys
      · exact .inl hk
      · refine .inr ⟨t, ?_, hsid, hlive⟩
        simp [Config.view, Table.get_eq_none.mpr hk, ht]
  | closing hpc hw hall => exact .closing (by simpa using hpc) (by simpa using hw) (by simpa using hall)
  | done hpc hw hall => exact .done (by simpa using hpc) (by simpa using hw) (by simpa using hall)
  | failed hpc => exact .failed (by simpa using hpc)

/-- The SELECT of a sign-out finds its token. -/
theorem Revocation.select (hs : Sane r sid c) (hrev : Revocation r sid c)
    (h : Happens r.program c (.select .revocation) c') : Revocation r sid c' := by
  obtain ⟨next, hst, rfl⟩ := step_select h
  cases ho : r.other with
  | refresh secret now draw =>
    simp only [Race.program, Race.request, ho, statement] at hst
    split at hst <;> simp_all [revokeStmt]
  | revoke secret now =>
    have hsec : r.otherSecret = secret := by simp [Race.otherSecret, ho]
    cases hrev with
    | finding hpc hw hsnap =>
      rw [hpc] at hst
      obtain rfl : (fun rows : Table String RefreshToken =>
          match rows.get (r.b.hashSecret secret) with
          | none => Point.done
          | some t => .killSession t.sessionId) = next := by
        simpa [Race.program, Race.request, ho, statement] using hst
      obtain ⟨t, ht, hsid, -⟩ := hs.other
      obtain ⟨t', ht', hkeeps⟩ := hs.view_of_committed (i := .revocation) ht
      rw [hsec] at ht'
      refine .killing (by simp [ht', hkeeps.sessionId.trans hsid]) (by simp [hw, Revoked.empty])
        (by simp [hw]) fun s hs' => ?_
      obtain ⟨⟨_, _, _, ho'⟩, -⟩ := hsnap s (by simpa using hs')
      rw [ho] at ho'
      cases ho'
    | killing hpc => simp [hpc, Race.program, Race.request, ho, statement, revokeStmt] at hst
    | closing hpc => simp [hpc, Race.program, Race.request, ho, statement] at hst
    | done hpc => simp [hpc, Race.program, Race.request, ho, statement] at hst
    | failed hpc => simp [hpc, Race.program, Race.request, ho, statement] at hst

/-- What the session looks like once the revocation has committed. -/
theorem Revocation.commit (hrev : Revocation r sid c)
    (h : Happens r.program c (.commit .revocation) c') : Revocation r sid c' := by
  obtain ⟨next, hst, rfl⟩ := step_commit h
  cases hrev with
  | closing hpc hw hall =>
    have hnext : next = .done := by
      cases ho : r.other <;> simpa [hpc, Race.program, Race.request, ho, statement, eq_comm] using hst
    refine .done (by simp [hnext]) (by simp) fun k t ht hsid hlive => ?_
    rcases view_get ht with ⟨hnone, hc⟩ | hk
    · exact Table.get_eq_none.mp hnone (hall k t hc hsid hlive)
    · exact hw k t hk hlive
  | finding hpc =>
    cases ho : r.other <;> simp [hpc, Race.program, Race.request, ho, statement] at hst
  | killing hpc =>
    cases ho : r.other <;> simp [hpc, Race.program, Race.request, ho, statement, revokeStmt] at hst
  | done hpc =>
    cases ho : r.other <;> simp [hpc, Race.program, Race.request, ho, statement] at hst
  | failed hpc =>
    cases ho : r.other <;> simp [hpc, Race.program, Race.request, ho, statement] at hst

/-- **What the rotation commits**, unless it overtakes the revocation, is no new live token. -/
theorem Revocation.frame (hs : Sane r sid c) (hrot : Rotation r sid c) (hrev : Revocation r sid c)
    {e : Event Party} (he : e.client = .rotation) (hmeet : ¬ Overtakes c e)
    (h : Happens r.program c e c') : Revocation r sid c' := by
  have hcl : c'.client .revocation = c.client .revocation :=
    step_client_of_ne h (by rw [he]; decide)
  by_cases hcommit : e = .commit .rotation
  · subst hcommit
    obtain ⟨next, hst, hc'⟩ := step_commit h
    have hview : c'.committed = c.view .rotation := by rw [hc']
    have hgrow : ∀ k, c'.committed.get k = none → c.committed.get k = none := by
      intro k hk
      rw [hview] at hk
      exact hs.committed_of_view hk
    cases hrev with
    | finding hpc hw hsnap => exact .finding (hcl ▸ hpc) (hcl ▸ hw) (hcl ▸ hsnap)
    | killing hpc hw hkeys hsnap =>
      refine .killing (hcl ▸ hpc) (hcl ▸ hw) ?_ ?_
      · rw [hcl]
        exact fun k hk hnone => hkeys k hk (hgrow k hnone)
      · rw [hcl]
        intro s hs'
        obtain ⟨hfresh, hcover⟩ := hsnap s hs'
        refine ⟨fun k hk => hfresh k (hgrow k hk), fun k t ht hsid hlive => ?_⟩
        rw [hview] at ht
        rcases view_get ht with ⟨-, hc⟩ | hw'
        · exact hcover k t hc hsid hlive
        · exact absurd ⟨rfl, ⟨k, t, hw', hlive⟩, sid, hpc, by simp [hs']⟩ hmeet
    | closing hpc hw hall =>
      refine .closing (hcl ▸ hpc) (hcl ▸ hw) ?_
      rw [hcl]
      intro k t ht hsid hlive
      rw [hview] at ht
      rcases view_get ht with ⟨-, hc⟩ | hk
      · exact hall k t hc hsid hlive
      · rcases hrot.revoked_or_locked with hr | ⟨u, hu, husid, hulive, hlock⟩
        · exact absurd hlive (hr k t hk)
        · have hboth := hs.exclusive _ _ _ hlock (hall _ u hu husid hulive)
          cases hboth
    | done hpc hw hall =>
      refine .done (hcl ▸ hpc) (hcl ▸ hw) fun k t ht hsid hlive => ?_
      rw [hview] at ht
      rcases view_get ht with ⟨-, hc⟩ | hk
      · exact hall k t hc hsid hlive
      · rcases hrot.revoked_or_locked with hr | ⟨u, hu, husid, hulive, -⟩
        · exact hr k t hk hlive
        · exact hall _ u hu husid hulive
    | failed hpc => exact .failed (hcl ▸ hpc)
  · have hc : c'.committed = c.committed := step_committed h (by
      rintro i rfl
      exact hcommit (congrArg Event.commit he))
    cases hrev with
    | finding hpc hw hsnap => exact .finding (hcl ▸ hpc) (hcl ▸ hw) (hcl ▸ hsnap)
    | killing hpc hw hkeys hsnap =>
      exact .killing (hcl ▸ hpc) (hcl ▸ hw) (by rw [hcl, hc]; exact hkeys)
        (by rw [hcl, hc]; exact hsnap)
    | closing hpc hw hall => exact .closing (hcl ▸ hpc) (hcl ▸ hw) (by rw [hcl, hc]; exact hall)
    | done hpc hw hall => exact .done (hcl ▸ hpc) (hcl ▸ hw) (by rw [hc]; exact hall)
    | failed hpc => exact .failed (hcl ▸ hpc)

theorem Revocation.abort (hrev : Revocation r sid c)
    (h : Happens r.program c (.abort .revocation) c') : Revocation r sid c' := by
  obtain rfl := step_abort h
  cases hrev with
  | done hpc hw hall =>
    exact .done (by rw [set_client_self]; simp [Race.program, hpc, rolledBack]) (by simp) hall
  | finding hpc => exact .failed (by simp [Race.program, hpc, rolledBack])
  | killing hpc => exact .failed (by simp [Race.program, hpc, rolledBack])
  | closing hpc => exact .failed (by simp [Race.program, hpc, rolledBack])
  | failed hpc => exact .failed (by simp [Race.program, hpc, rolledBack])

theorem Revocation.step (hs : Sane r sid c) (hrot : Rotation r sid c) (hrev : Revocation r sid c)
    {e : Event Party} (hmeet : ¬ Overtakes c e) (h : Happens r.program c e c') : Revocation r sid c' := by
  by_cases he : e.client = .rotation
  · exact hrev.frame hs hrot he hmeet h
  · have he' : e.client = .revocation := by cases hc : e.client <;> simp_all
    cases e with
    | select i =>
      obtain rfl : i = .revocation := he'
      exact hrev.select hs h
    | start i =>
      obtain rfl : i = .revocation := he'
      exact hrev.begin hs h
    | finish i =>
      obtain rfl : i = .revocation := he'
      exact hrev.finish hs h
    | insert i =>
      obtain rfl : i = .revocation := he'
      obtain ⟨rows, next, hst, -, -⟩ := step_insert h
      obtain ⟨_, _, _, t, -, hpc, -, -⟩ := statement_insert hst
      cases hrev <;> simp_all
    | commit i =>
      obtain rfl : i = .revocation := he'
      exact hrev.commit h
    | abort i =>
      obtain rfl : i = .revocation := he'
      exact hrev.abort h

end Revocation

/-! ## Runs -/

section Runs

variable {r : Race} {sid : String} {c c' : Config Party String RefreshToken Point}

/-- The invariant of a race that is not overtaken. -/
structure Inv (r : Race) (sid : String) (c : Config Party String RefreshToken Point) : Prop where
  sane : Sane r sid c
  rotation : Rotation r sid c
  revocation : Revocation r sid c

theorem Inv.start (h : r.On sid) : Inv r sid r.start where
  sane := .start h
  rotation := .finding rfl rfl
  revocation := .finding rfl rfl (by simp [Race.start])

theorem Inv.step {e : Event Party} (hi : Inv r sid c) (h : Happens r.program c e c')
    (hmeet : ¬ Overtakes c e) : Inv r sid c' where
  sane := hi.sane.step h
  rotation := hi.rotation.step hi.sane h
  revocation := hi.revocation.step hi.sane hi.rotation hmeet h

/-- The successor `u` is committed, and the revocation cannot see it any more. -/
structure Escaped (k : String) (u : RefreshToken) (c : Config Party String RefreshToken Point) :
    Prop where
  committed : c.committed.get k = some u
  rotation : (c.client .rotation).pc = .done
  writes : (c.client .rotation).writes = .empty
  unlocked : k ∉ (c.client .revocation).writes.keys
  revocation : (∃ sid s, (c.client .revocation).pc = .killSession sid ∧
      (c.client .revocation).snapshot = some s ∧ s.get k = none) ∨
    (c.client .revocation).pc = .commit ∨ (c.client .revocation).pc = .done ∨
      (c.client .revocation).pc = .failed

/-- **Overtaking lets the successor escape.** -/
theorem Inv.escaped {e : Event Party} (hi : Inv r sid c) (h : Happens r.program c e c')
    (hover : Overtakes c e) :
    ∃ k user, Escaped k (newToken r.b r.draw r.now user sid) c' := by
  obtain ⟨rfl, ⟨k₀, t₀, hk₀, hlive₀⟩, sid', hpc', hsnap'⟩ := hover
  obtain ⟨next, hst, hc'⟩ := step_commit h
  have hend := Rotation.commit h
  cases hi.rotation with
  | @issued t u k hpc ht hsid hlive hlock hnew hk hu hothers =>
    obtain ⟨s, hs⟩ := Option.ne_none_iff_exists'.mp hsnap'
    have hcl : c'.client .revocation = c.client .revocation := step_client_of_ne h (by decide)
    refine ⟨k, t.user, ?_, hend.1, hend.2, ?_, .inl ⟨sid', s, hcl ▸ hpc', hcl ▸ hs, ?_⟩⟩
    · rw [hc', ← hu]
      simp [Config.view, hk]
    · rw [hcl]
      intro hmem
      have hboth := hi.sane.exclusive _ _ _ (Table.mem_keys_of_get hk) hmem
      cases hboth
    · cases hi.revocation with
      | killing _ _ _ hsnap => exact (hsnap s hs).1 k hnew
      | finding hpc => rw [hpc] at hpc'; cases hpc'
      | closing hpc => rw [hpc] at hpc'; cases hpc'
      | done hpc => rw [hpc] at hpc'; cases hpc'
      | failed hpc => rw [hpc] at hpc'; cases hpc'
  | holding hpc =>
    rcases hpc with hpc | hpc | hpc <;>
      simp [hpc, Race.program, Race.request, statement, revokeStmt] at hst
  | issuing hpc => simp [hpc, Race.program, Race.request, statement] at hst
  | finding hpc => simp [hpc, Race.program, Race.request, statement] at hst
  | killing hpc => simp [hpc, Race.program, Race.request, statement, revokeStmt] at hst
  | closing hpc hw => exact absurd hlive₀ (hw k₀ t₀ hk₀)
  | finished hpc hw => rw [hw] at hk₀; cases hk₀

/-- A request that is over runs no statement. -/
theorem statement_over (r : Race) (i : Party) {pc : Point} (hpc : pc = .done ∨ pc = .failed) :
    r.program.stmt i pc = none := by
  rcases hpc with rfl | rfl <;> cases hq : r.request i <;> simp [Race.program, hq, statement]

theorem Escaped.step {k : String} {u : RefreshToken} {e : Event Party} (hesc : Escaped k u c)
    (h : Happens r.program c e c') : Escaped k u c' := by
  cases he : e.client with
  | rotation =>
    -- the rotation is over: its row stays
    have hab := event_of_none h (statement_over r _ (.inl (he ▸ hesc.rotation)))
    rw [he] at hab
    subst hab
    have hcl : c'.client .revocation = c.client .revocation := step_client_of_ne h (by decide)
    obtain rfl := step_abort h
    refine ⟨hesc.committed, ?_, by simp, hcl ▸ hesc.unlocked, hcl ▸ hesc.revocation⟩
    simp [Race.program, hesc.rotation, rolledBack]
  | revocation =>
    have hcl : c'.client .rotation = c.client .rotation :=
      step_client_of_ne h (by rw [he]; decide)
    have hrot : (c'.client .rotation).pc = .done := hcl ▸ hesc.rotation
    have hwrites : (c'.client .rotation).writes = .empty := hcl ▸ hesc.writes
    have haborted : e = .abort .revocation → Escaped k u c' := by
      rintro rfl
      obtain rfl := step_abort h
      refine ⟨hesc.committed, hrot, hwrites, by simp, .inr (.inr ?_)⟩
      simpa [Race.program] using rolledBack_eq _
    rcases hesc.revocation with ⟨sid', s, hpc, hs, hk⟩ | hpc | hpc
    · obtain ⟨now, hkill⟩ := r.stmt_killSession sid'
      rw [← hpc] at hkill
      rcases event_of_some h (he ▸ hkill) with hab | hstart | hfin
      · exact haborted (he ▸ hab)
      · rw [he] at hstart
        subst hstart
        obtain ⟨_, _, _, -, hnone, -⟩ := step_start h
        rw [hs] at hnone
        cases hnone
      · rw [he] at hfin
        subst hfin
        obtain ⟨snap, rows, hs', -, hrows, rfl⟩ := finish_revoke hkill h
        obtain rfl : s = snap := Option.some.inj (hs.symm.trans hs')
        refine ⟨hesc.committed, hrot, hwrites, ?_, .inr (.inl (by simp))⟩
        rw [set_client_self]
        simp only [Table.overlay, Table.keys_map, Finset.mem_union, not_or]
        refine ⟨fun hmem => ?_, hesc.unlocked⟩
        obtain ⟨t, ht⟩ := Table.mem_keys_iff.mp hmem
        obtain ⟨-, ⟨v, hv, -⟩, -⟩ := (hrows k t).mp ht
        rw [hk] at hv
        cases hv
    · have hstmt : r.program.stmt .revocation (c.client .revocation).pc = some (.commit .done) := by
        cases ho : r.other <;> simp [hpc, Race.program, Race.request, ho, statement]
      rcases event_of_some h (he ▸ hstmt) with hab | hcom
      · exact haborted (he ▸ hab)
      · have hcom' : e = .commit .revocation := he ▸ hcom
        subst hcom'
        obtain ⟨next, hst, rfl⟩ := step_commit h
        obtain rfl : Point.done = next := by simpa [hstmt] using hst
        refine ⟨?_, hrot, hwrites, by simp, .inr (.inr (.inl (by simp)))⟩
        simp [Config.view, Table.get_eq_none.mpr hesc.unlocked, hesc.committed]
    · have hab := event_of_none h (statement_over r _ (he ▸ hpc))
      exact haborted (he ▸ hab)

/-- **A replay or a sign-out against a rotation, interleaved.**  Both committed: in a run that is not
overtaken no token of the session is usable, at any instant; in a run that is, the successor is left
live, with its whole lifetime. -/
theorem session_revoked {es : List (Event Party)} (hrace : r.On sid)
    (hr : Run (Happens r.program) r.start es c) (hdone : ∀ i, (c.client i).pc = .done) :
    (Run (fun c e c' => Happens r.program c e c' ∧ ¬ Overtakes c e) r.start es c →
      ∀ k t now, c.committed.get k = some t → t.sessionId = sid → t.isUsable now = false) ∧
    (¬ Run (fun c e c' => Happens r.program c e c' ∧ ¬ Overtakes c e) r.start es c →
      ∃ k t, c.committed.get k = some t ∧ t.sessionId = sid ∧ t.revokedAt = none ∧
        t.expiresAt = r.now + r.b.jwtRefreshTokenLifetime) := by
  have hinv : ∀ c e c', Inv r sid c → Happens r.program c e c' ∧ ¬ Overtakes c e → Inv r sid c' :=
    fun c e c' hi h => hi.step h.1 h.2
  refine ⟨fun hok k t now ht hsid => ?_, fun hnot => ?_⟩
  · have hi := hok.invariant hinv (.start hrace)
    cases hi.revocation with
    | done hpc hw hall =>
      have hne := hall k t ht hsid
      simp [RefreshToken.isUsable, hne]
    | finding hpc => have := hdone .revocation; rw [hpc] at this; cases this
    | killing hpc => have := hdone .revocation; rw [hpc] at this; cases this
    | closing hpc => have := hdone .revocation; rw [hpc] at this; cases this
    | failed hpc => have := hdone .revocation; rw [hpc] at this; cases this
  · rcases hr.restrict_or (Q := fun c e => ¬ Overtakes c e) with
      hok | ⟨es₁, e, es₂, c₁, c₂, -, hr₁, hst, hover, hr₂⟩
    · exact absurd hok hnot
    · obtain ⟨k, user, hesc⟩ := (hr₁.invariant hinv (.start hrace)).escaped hst (not_not.mp hover)
      have hesc' := hr₂.invariant (fun _ _ _ hesc h => Escaped.step hesc h) hesc
      exact ⟨k, _, hesc'.committed, rfl, rfl, rfl⟩

end Runs

/-! ## A sign-out, and a replay that is overtaken -/

/-- A session with a token exchanged and its successor, which is presented. -/
def sampleRace (other : Request) : Race where
  b := sampleBackend
  isActive := fun _ => true
  secret := "s2"
  now := 50
  draw := ⟨"t3", "s3", "c3", "j3"⟩
  other := other
  tokens := (Table.empty.insert "sha256:s1" ⟨"t1", "frodo", "sha256:s1", "c1", 1000, some 20⟩).insert
    "sha256:s2" ⟨"t2", "frodo", "sha256:s2", "c1", 1010, none⟩

theorem sampleRace_keyed {other : Request} {k : String} {t : RefreshToken}
    (h : (sampleRace other).tokens.get k = some t) : t.secretHash = k := by
  by_cases h2 : k = "sha256:s2"
  · subst h2
    rw [sampleRace, Table.get_insert_self] at h
    rw [← Option.some.inj h]
  · rw [sampleRace, Table.get_insert_of_ne h2] at h
    by_cases h1 : k = "sha256:s1"
    · subst h1
      rw [Table.get_insert_self] at h
      rw [← Option.some.inj h]
    · rw [Table.get_insert_of_ne h1] at h
      cases h

def sampleReplayed : Request := .refresh "s1" 40 ⟨"t4", "s4", "c4", "j4"⟩

theorem sampleRace_on_replay : (sampleRace sampleReplayed).On "c1" where
  keyed := fun _ _ => sampleRace_keyed
  live := ⟨⟨"t2", "frodo", "sha256:s2", "c1", 1010, none⟩, by decide, rfl, rfl⟩
  other := ⟨⟨"t1", "frodo", "sha256:s1", "c1", 1000, some 20⟩, by decide, rfl, by simp⟩

theorem sampleRace_on_revoke : (sampleRace (.revoke "s2" 60)).On "c1" where
  keyed := fun _ _ => sampleRace_keyed
  live := ⟨⟨"t2", "frodo", "sha256:s2", "c1", 1010, none⟩, by decide, rfl, rfl⟩
  other := ⟨⟨"t2", "frodo", "sha256:s2", "c1", 1010, none⟩, by decide, rfl, by
    rintro ⟨_, _, _, h⟩
    cases h⟩

/-- The rotation holds the live token when the replay starts to revoke the session. -/
def overtaken : List (Event Party) :=
  [.start .rotation, .finish .rotation, .start .revocation, .finish .revocation,
    .start .revocation, .start .rotation, .finish .rotation, .insert .rotation, .commit .rotation,
    .finish .revocation, .commit .revocation]

/-- The rotation, then the sign-out. -/
def signedOutAfter : List (Event Party) :=
  [.start .rotation, .finish .rotation, .start .rotation, .finish .rotation, .insert .rotation,
    .commit .rotation, .select .revocation, .start .revocation, .finish .revocation,
    .commit .revocation]

/-- Where the two requests and a row of the table stand after the events. -/
def Race.outcome (r : Race) (es : List (Event Party)) (k : String) :
    Option (Point × Point × Option RefreshToken) :=
  (es.foldlM (step r.program) r.start).map fun c =>
    ((c.client .rotation).pc, (c.client .revocation).pc, c.committed.get k)

theorem Race.run_of_outcome (r : Race) (es : List (Event Party)) (k : String)
    (o : Option RefreshToken) (h : r.outcome es k = some (.done, .done, o)) :
    ∃ c, Run (Happens r.program) r.start es c ∧ (∀ i, (c.client i).pc = .done) ∧
      c.committed.get k = o := by
  obtain ⟨c, hc, hout⟩ := Option.map_eq_some_iff.mp h
  obtain ⟨hrot, hrev, hk⟩ : _ ∧ _ ∧ _ := by simpa using hout
  refine ⟨c, Run.of_foldlM hc, fun i => ?_, hk⟩
  cases i
  · exact hrot
  · exact hrev

/-- **The successor survives the replay.** -/
theorem session_survives_replay :
    ¬ ∀ (r : Race) (sid : String) (es : List (Event Party))
        (c : Config Party String RefreshToken Point), r.On sid →
      Run (Happens r.program) r.start es c → (∀ i, (c.client i).pc = .done) →
      ∀ k t now, c.committed.get k = some t → t.sessionId = sid → t.isUsable now = false := by
  intro h
  obtain ⟨c, hr, hdone, hk⟩ := (sampleRace sampleReplayed).run_of_outcome overtaken
    "sha256:s3" (some ⟨"t3", "frodo", "sha256:s3", "c1", 50 + 1209600, none⟩) (by decide)
  have husable := h _ _ _ _ sampleRace_on_replay hr hdone _ _ 60 hk rfl
  revert husable
  decide

/-- The rotation commits before the sign-out has found its token. -/
theorem signedOutAfter_run : ∃ c, Run (fun c e c' => Happens (sampleRace (.revoke "s2" 60)).program c e c' ∧
    ¬ Overtakes c e) (sampleRace (.revoke "s2" 60)).start signedOutAfter c ∧ (∀ i, (c.client i).pc = .done) ∧
      ∃ t, c.committed.get "sha256:s3" = some t ∧ t.sessionId = "c1" := by
  have hruns : (signedOutAfter.foldlM (fun c e =>
      if e = .commit .rotation ∧ (c.client .revocation).pc ≠ .find then none
      else step (sampleRace (.revoke "s2" 60)).program c e) (sampleRace (.revoke "s2" 60)).start).any (fun c =>
        decide ((c.client .rotation).pc = .done ∧ (c.client .revocation).pc = .done ∧
          c.committed.get "sha256:s3" = some ⟨"t3", "frodo", "sha256:s3", "c1", 50 + 1209600, some 60⟩)) = true := by
    decide
  obtain ⟨c, hc, hend⟩ := (Option.any_eq_true ..).mp hruns
  obtain ⟨hrot, hrev, hk⟩ := of_decide_eq_true hend
  refine ⟨c, (Run.of_foldlM hc).mono fun c e c' h => ?_, fun i => ?_, _, hk, rfl⟩
  · split_ifs at h with hcommit
    refine ⟨h, ?_⟩
    rintro ⟨rfl, -, sid, hpc, -⟩
    exact hcommit ⟨rfl, by simp [hpc]⟩
  · cases i
    · exact hrot
    · exact hrev

/-- A sign-out after the rotation. -/
theorem session_revoked_sample : ∃ c, Run (Happens (sampleRace (.revoke "s2" 60)).program)
    (sampleRace (.revoke "s2" 60)).start signedOutAfter c ∧
      (∃ t, c.committed.get "sha256:s3" = some t ∧ t.sessionId = "c1") ∧
      ∀ k t now, c.committed.get k = some t → t.sessionId = "c1" → t.isUsable now = false := by
  obtain ⟨c, hok, hdone, hk⟩ := signedOutAfter_run
  have hr : Run (Happens (sampleRace (.revoke "s2" 60)).program) _ signedOutAfter c := hok.mono fun _ _ _ h => h.1
  exact ⟨c, hr, hk, (session_revoked sampleRace_on_revoke hr hdone).1 hok⟩

end Totem.Authentication
