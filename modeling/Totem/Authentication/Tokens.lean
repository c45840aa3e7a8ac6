import Mathlib.Data.List.Dedup
import Mathlib.Data.List.Sort

/-!
# Totem.Authentication.Tokens — the claims of an access token

`authentication/tokens.py` and `user/access_rights.py`: the scopes of a user are the sorted union of
the permissions of their roles, and an access token freezes them with the tenant database.  SHA-256,
the JWT library and the password hashers are third parties: fields of `Backend`.
-/

namespace Totem.Authentication

/-- The payload of an access token. -/
structure Claims where
  sub : String
  typ : String
  scope : String
  db : String
  iat : ℕ
  exp : ℕ
  jti : String
deriving DecidableEq, Repr

/-- The settings, and the third-party calls the services rest on. -/
structure Backend where
  /-- `hash_secret`: the hex SHA-256 of a secret. -/
  hashSecret : String → String
  /-- `jwt.encode` with the signing key and the algorithm of the settings. -/
  jwtEncode : Claims → String
  /-- The user a login and a password designate, before `user_can_authenticate`. -/
  checkPassword : String → String → Option String
  currentDatabase : String
  jwtAccessTokenLifetime : ℕ
  jwtRefreshTokenLifetime : ℕ

/-- The value of the `typ` claim. -/
def accessTokenType : String := "access"

/-- `get_user_scopes`: the union of the permissions of the roles of a user, sorted. -/
def getUserScopes (roles : List (List String)) : List String :=
  roles.flatten.dedup.mergeSort (· ≤ ·)

/-- `encode_access_token`: the token and the instant it expires at. -/
def encodeAccessToken (b : Backend) (userId : String) (scopes : List String) (jti : String)
    (now : ℕ) : String × ℕ :=
  let expiresAt := now + b.jwtAccessTokenLifetime
  let payload : Claims := {
    sub := userId
    typ := accessTokenType
    scope := " ".intercalate (scopes.mergeSort (· ≤ ·))
    db := b.currentDatabase
    iat := now
    exp := expiresAt
    jti := jti }
  (b.jwtEncode payload, expiresAt)

theorem mem_getUserScopes {roles : List (List String)} {p : String} :
    p ∈ getUserScopes roles ↔ ∃ r ∈ roles, p ∈ r := by
  simp [getUserScopes, List.mem_mergeSort]

end Totem.Authentication
