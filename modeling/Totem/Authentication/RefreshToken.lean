import Mathlib.Data.List.Nodup

/-!
# Totem.Authentication.RefreshToken — the table of refresh tokens

`authentication/models/refresh_token.py`.  A queryset is a predicate on rows, and its writes are
functions of the table.  `revoke` keeps the first `revoked_at` of a row: `revokeRow_of_revoked`.
-/

namespace Totem.Authentication

/-- A stored refresh token.  Instants are natural numbers, keys and hashes strings. -/
structure RefreshToken where
  id : String
  user : String
  secretHash : String
  sessionId : String
  expiresAt : ℕ
  revokedAt : Option ℕ
deriving DecidableEq, Repr

namespace RefreshToken

/-- `is_usable`. -/
def isUsable (t : RefreshToken) (now : ℕ) : Bool := t.revokedAt.isNone && decide (now < t.expiresAt)

end RefreshToken

/-- `RefreshTokenQuerySet.active`: the tokens that may still be exchanged. -/
def active (now : ℕ) (ts : List RefreshToken) : List RefreshToken :=
  ts.filter fun t => t.revokedAt.isNone && decide (now < t.expiresAt)

/-- What `revoke` writes on a row the queryset `q` selects. -/
def revokeRow (q : RefreshToken → Bool) (now : ℕ) (t : RefreshToken) : RefreshToken :=
  if q t && t.revokedAt.isNone then { t with revokedAt := some now } else t

/-- `RefreshTokenQuerySet.revoke`: only the rows still live are written. -/
def revoke (q : RefreshToken → Bool) (now : ℕ) (ts : List RefreshToken) : List RefreshToken :=
  ts.map (revokeRow q now)

/-- `RefreshTokenQuerySet.revoke_session`. -/
def revokeSession (sessionId : String) (now : ℕ) (ts : List RefreshToken) : List RefreshToken :=
  revoke (fun t => t.sessionId == sessionId) now ts

/-- `RefreshTokenQuerySet.revoke_for_users`, `users` telling the users of the queryset. -/
def revokeForUsers (users : String → Bool) (now : ℕ) (ts : List RefreshToken) :
    List RefreshToken :=
  revoke (fun t => users t.user) now ts

/-- `RefreshTokenQuerySet.purge_expired`: expiry alone, not revocation. -/
def purgeExpired (now : ℕ) (ts : List RefreshToken) : List RefreshToken :=
  ts.filter fun t => !decide (t.expiresAt ≤ now)

/-- The rows of a session that are not revoked. -/
def live (sessionId : String) (ts : List RefreshToken) : List RefreshToken :=
  ts.filter fun t => t.sessionId == sessionId && t.revokedAt.isNone

/-! ## What `revoke` changes -/

section Revoke

variable {q : RefreshToken → Bool} {now : ℕ} {t : RefreshToken} {ts : List RefreshToken}

@[simp] theorem revokeRow_id : (revokeRow q now t).id = t.id := by
  unfold revokeRow; split <;> rfl

@[simp] theorem revokeRow_user : (revokeRow q now t).user = t.user := by
  unfold revokeRow; split <;> rfl

@[simp] theorem revokeRow_secretHash : (revokeRow q now t).secretHash = t.secretHash := by
  unfold revokeRow; split <;> rfl

@[simp] theorem revokeRow_sessionId : (revokeRow q now t).sessionId = t.sessionId := by
  unfold revokeRow; split <;> rfl

@[simp] theorem revokeRow_expiresAt : (revokeRow q now t).expiresAt = t.expiresAt := by
  unfold revokeRow; split <;> rfl

/-- A row already revoked is left alone. -/
theorem revokeRow_of_revoked {r : ℕ} (h : t.revokedAt = some r) : revokeRow q now t = t := by
  simp [revokeRow, h]

theorem revokeRow_of_not (h : q t = false) : revokeRow q now t = t := by
  simp [revokeRow, h]

theorem revokeRow_revokedAt_ne_none (h : q t = true) : (revokeRow q now t).revokedAt ≠ none := by
  cases hr : t.revokedAt with
  | none => simp [revokeRow, h, hr]
  | some r => rw [revokeRow_of_revoked hr, hr]; simp

theorem mem_revoke : t ∈ revoke q now ts ↔ ∃ u ∈ ts, revokeRow q now u = t := by
  simp [revoke]

@[simp] theorem map_secretHash_revoke :
    (revoke q now ts).map (·.secretHash) = ts.map (·.secretHash) := by
  simp [revoke, Function.comp_def]

@[simp] theorem map_id_revoke : (revoke q now ts).map (·.id) = ts.map (·.id) := by
  simp [revoke, Function.comp_def]

/-- `revoke` only empties the live rows of a session. -/
theorem live_revoke (sid : String) :
    live sid (revoke q now ts) = (live sid ts).filter fun t => !q t := by
  induction ts with
  | nil => rfl
  | cons t ts ih =>
    have ih' : List.filter (fun t => t.sessionId == sid && t.revokedAt.isNone)
        (ts.map (revokeRow q now)) = (live sid ts).filter fun t => !q t := ih
    simp only [live, revoke, List.map_cons, List.filter_cons, revokeRow_sessionId, ih']
    cases hs : t.sessionId == sid with
    | false => simp
    | true =>
      cases hr : t.revokedAt with
      | some r => simp [revokeRow_of_revoked hr, hr]
      | none =>
        cases hq : q t with
        | false => simp [revokeRow, hq, hr]
        | true => simp [revokeRow, hq, hr]

theorem live_append (sid : String) (us : List RefreshToken) :
    live sid (ts ++ us) = live sid ts ++ live sid us := by
  simp [live]

theorem length_live_filter_le (sid : String) (p : RefreshToken → Bool) :
    (live sid (ts.filter p)).length ≤ (live sid ts).length := by
  unfold live
  rw [List.filter_comm]
  exact List.length_filter_le _ _

theorem mem_live {sid : String} : t ∈ live sid ts ↔ t ∈ ts ∧ t.sessionId = sid ∧ t.revokedAt = none := by
  simp [live]

end Revoke

end Totem.Authentication
