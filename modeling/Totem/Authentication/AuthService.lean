import Totem.Authentication.RefreshToken
import Totem.Authentication.Tokens
import Totem.Lib.Run

/-!
# Totem.Authentication.AuthService — login, rotation and revocation of token pairs

`authentication/services.py`.  The draws of the random generators are an argument of every call.
`rotate` is the transactional body of a rotation: it returns a verdict, so that the revocations of a
refused rotation are committed; `refresh` raises once the transaction is over.
`exec_effect` says once what a call can do to the table.
-/

namespace Totem.Authentication

open Totem.Lib

/-! ## The state and the outcomes -/

/-- What the services read of a user, `roles` being the permissions of each role. -/
structure User where
  isActive : Bool
  lastLogin : Option ℕ
  roles : List (List String)
deriving DecidableEq, Repr

/-- The database: the refresh tokens, and the users by key. -/
structure AuthDb where
  tokens : List RefreshToken
  users : String → User

/-- What the random generators give one call. -/
structure Draw where
  /-- `generate_ulid` for the row. -/
  id : String
  /-- `generate_secret`. -/
  secret : String
  /-- `generate_ulid` for a new session. -/
  sessionId : String
  /-- `uuid4` for the access token. -/
  jti : String

structure TokenPair where
  accessToken : String
  refreshToken : String
  expiresIn : ℕ
  scope : String
  tokenType : String
deriving DecidableEq, Repr

/-- Why a rotation is refused. -/
inductive Failure
  | unknown
  | replayed
  | expired
  | inactive
deriving DecidableEq, Repr

/-- The message of `InvalidRefreshToken`. -/
def Failure.message : Failure → String
  | .unknown => "Unknown refresh token"
  | .replayed => "Refresh token replayed"
  | .expired => "Refresh token expired"
  | .inactive => "User is inactive"

inductive AuthError
  /-- `InvalidCredentials`. -/
  | invalidCredentials
  /-- `InvalidRefreshToken`. -/
  | invalidRefreshToken (failure : Failure)
  /-- The unique constraint on `secret_hash`, or the primary key. -/
  | integrityError
deriving DecidableEq, Repr

/-! ## The service -/

section Service

variable (b : Backend) (d : Draw) (now : ℕ)

/-- The row `issue` inserts. -/
def newToken (user sessionId : String) : RefreshToken where
  id := d.id
  user := user
  secretHash := b.hashSecret d.secret
  sessionId := sessionId
  expiresAt := now + b.jwtRefreshTokenLifetime
  revokedAt := none

/-- `RefreshTokenQuerySet.issue`: a missing `session_id` is generated. -/
def issueToken (user : String) (sessionId : Option String) (ts : List RefreshToken) :
    Except AuthError (List RefreshToken) :=
  let t := newToken b d now user (sessionId.getD d.sessionId)
  if ts.any fun u => u.id == t.id || u.secretHash == t.secretHash then .error .integrityError
  else .ok (ts ++ [t])

/-- `AuthService._issue`. -/
def issue (user : String) (sessionId : Option String) (db : AuthDb) :
    Except AuthError (TokenPair × AuthDb) := do
  let scopes := getUserScopes (db.users user).roles
  let (accessToken, expiresAt) := encodeAccessToken b user scopes d.jti now
  let ts ← issueToken b d now user sessionId db.tokens
  return ({ accessToken := accessToken, refreshToken := d.secret, expiresIn := expiresAt - now,
            scope := " ".intercalate scopes, tokenType := "Bearer" }, { db with tokens := ts })

/-- `django.contrib.auth.authenticate`: the backend refuses an inactive account. -/
def authenticate (username password : String) (db : AuthDb) : Option String :=
  match b.checkPassword username password with
  | none => none
  | some user => if (db.users user).isActive then some user else none

/-- `AuthService._login`. -/
def login (username password : String) (db : AuthDb) : Except AuthError TokenPair × AuthDb :=
  match authenticate b username password db with
  | none => (.error .invalidCredentials, db)
  | some user =>
    atomic (fun db : AuthDb =>
      let users := Function.update db.users user { db.users user with lastLogin := some now }
      issue b d now user none { db with users := users }) db

/-- `AuthService._rotate`: the verdict, and what the transaction writes. -/
def rotate (secretHash : String) (db : AuthDb) :
    Except AuthError (Except Failure TokenPair × AuthDb) :=
  match db.tokens.find? fun t => t.secretHash == secretHash with
  | none => .ok (.error .unknown, db)
  | some t =>
    if t.revokedAt.isSome then
      .ok (.error .replayed, { db with tokens := revokeSession t.sessionId now db.tokens })
    else if t.expiresAt ≤ now then
      .ok (.error .expired, { db with tokens := revoke (fun u => u.id == t.id) now db.tokens })
    else if !(db.users t.user).isActive then
      .ok (.error .inactive, { db with tokens := revokeForUsers (· == t.user) now db.tokens })
    else do
      let (pair, db) ← issue b d now t.user (some t.sessionId)
        { db with tokens := revoke (fun u => u.id == t.id) now db.tokens }
      return (.ok pair, db)

/-- `AuthService._refresh`: raises after the transaction, so that what it wrote stays. -/
def refresh (secret : String) (db : AuthDb) : Except AuthError TokenPair × AuthDb :=
  match atomic (rotate b d now (b.hashSecret secret)) db with
  | (.ok (.ok pair), db') => (.ok pair, db')
  | (.ok (.error failure), db') => (.error (.invalidRefreshToken failure), db')
  | (.error e, db') => (.error e, db')

/-- `AuthService._revoke`. -/
def signOut (secret : String) (db : AuthDb) : AuthDb :=
  match db.tokens.find? fun t => t.secretHash == b.hashSecret secret with
  | none => db
  | some t => { db with tokens := revokeSession t.sessionId now db.tokens }

end Service

/-! ## One call -/

/-- The calls a run is made of. -/
inductive Op
  | login (username password : String)
  | refresh (secret : String)
  | revoke (secret : String)
  | setActive (user : String) (isActive : Bool)
  | purgeExpired
deriving DecidableEq, Repr

/-- A call: its operation, the instant it is made at and what is drawn for it. -/
structure Call where
  op : Op
  now : ℕ
  draw : Draw

/-- What a call answers: an error, or the pair it gives, if any. -/
abbrev Outcome := Except AuthError (Option TokenPair)

/-- One call on the database. -/
def exec (b : Backend) (c : Call) (db : AuthDb) : Outcome × AuthDb :=
  match c.op with
  | .login username password =>
    let (r, db') := login b c.draw c.now username password db
    (r.map some, db')
  | .refresh secret =>
    let (r, db') := refresh b c.draw c.now secret db
    (r.map some, db')
  | .revoke secret => (.ok none, signOut b c.now secret db)
  | .setActive user isActive =>
    (.ok none,
      { db with users := Function.update db.users user { db.users user with isActive := isActive } })
  | .purgeExpired => (.ok none, { db with tokens := purgeExpired c.now db.tokens })

/-- The row a secret designates. -/
def Presents (b : Backend) (secret : String) (db : AuthDb) (t : RefreshToken) : Prop :=
  t ∈ db.tokens ∧ t.secretHash = b.hashSecret secret

/-- What one call does to the table, and what it answers then. -/
inductive Effect (b : Backend) (c : Call) (db : AuthDb) : Outcome → List RefreshToken → Prop
  | unchanged {out : Outcome} (hout : ∀ p, out ≠ .ok (some p))
      (hfail : ∀ failure, out = .error (.invalidRefreshToken failure) → failure = .unknown) :
      Effect b c db out db.tokens
  | loggedIn {username password user : String} {p : TokenPair} (hop : c.op = .login username password)
      (hp : p.refreshToken = c.draw.secret) :
      Effect b c db (.ok (some p)) (db.tokens ++ [newToken b c.draw c.now user c.draw.sessionId])
  | rotated {secret : String} {t : RefreshToken} {p : TokenPair} (hop : c.op = .refresh secret)
      (ht : Presents b secret db t) (hlive : t.isUsable c.now)
      (hactive : (db.users t.user).isActive) (hp : p.refreshToken = c.draw.secret) :
      Effect b c db (.ok (some p)) (revoke (fun u => u.id == t.id) c.now db.tokens ++
        [newToken b c.draw c.now t.user t.sessionId])
  | replayed {secret : String} {t : RefreshToken} (hop : c.op = .refresh secret)
      (ht : Presents b secret db t) (hrev : t.revokedAt ≠ none) :
      Effect b c db (.error (.invalidRefreshToken .replayed))
        (revokeSession t.sessionId c.now db.tokens)
  | expired {secret : String} {t : RefreshToken} (hop : c.op = .refresh secret)
      (ht : Presents b secret db t) (hrev : t.revokedAt = none) (hexp : t.expiresAt ≤ c.now) :
      Effect b c db (.error (.invalidRefreshToken .expired))
        (revoke (fun u => u.id == t.id) c.now db.tokens)
  | inactive {secret : String} {t : RefreshToken} (hop : c.op = .refresh secret)
      (ht : Presents b secret db t) (hrev : t.revokedAt = none)
      (hactive : (db.users t.user).isActive = false) :
      Effect b c db (.error (.invalidRefreshToken .inactive))
        (revokeForUsers (· == t.user) c.now db.tokens)
  | signedOut {secret : String} {t : RefreshToken} (hop : c.op = .revoke secret)
      (ht : Presents b secret db t) :
      Effect b c db (.ok none) (revokeSession t.sessionId c.now db.tokens)
  | purged (hop : c.op = .purgeExpired) : Effect b c db (.ok none) (purgeExpired c.now db.tokens)

section Effect

variable {b : Backend} {c : Call} {d : Draw} {now : ℕ} {db db' : AuthDb}

theorem issueToken_ok {user : String} {sid : Option String} {ts ts' : List RefreshToken}
    (h : issueToken b d now user sid ts = .ok ts') :
    ts' = ts ++ [newToken b d now user (sid.getD d.sessionId)] := by
  unfold issueToken at h
  dsimp only at h
  split at h
  · cases h
  · exact (Except.ok.inj h).symm

theorem issue_ok {user : String} {sid : Option String} {p : TokenPair}
    (h : issue b d now user sid db = .ok (p, db')) :
    p.refreshToken = d.secret ∧
      db'.tokens = db.tokens ++ [newToken b d now user (sid.getD d.sessionId)] := by
  simp only [issue, bind, Except.bind, pure, Except.pure] at h
  split at h
  · cases h
  · rename_i ts hts
    obtain ⟨rfl, rfl⟩ := Prod.mk.inj (Except.ok.inj h)
    exact ⟨rfl, issueToken_ok hts⟩

theorem Effect.unchanged_error {e : AuthError}
    (h : ∀ failure, e = .invalidRefreshToken failure → failure = .unknown) :
    Effect b c db (.error e) db.tokens :=
  .unchanged (by rintro p ⟨⟩) (by rintro failure ⟨⟩; exact h _ rfl)

/-- Only a login and a rotation insert, and they fail on a constraint alone. -/
theorem issue_error {user : String} {sid : Option String} {e : AuthError}
    (h : issue b d now user sid db = .error e) : e = .integrityError := by
  simp only [issue, issueToken, bind, Except.bind, pure, Except.pure] at h
  split at h
  · rename_i e' he
    split at he
    · cases he
      exact (Except.error.inj h).symm
    · cases he
  · cases h

theorem presents_of_find {secret : String} {t : RefreshToken}
    (h : db.tokens.find? (fun t => t.secretHash == b.hashSecret secret) = some t) :
    Presents b secret db t :=
  ⟨List.mem_of_find?_eq_some h, by simpa using List.find?_some h⟩

theorem login_effect {username password : String} (hop : c.op = .login username password) :
    Effect b c db ((login b c.draw c.now username password db).1.map some)
      (login b c.draw c.now username password db).2.tokens := by
  unfold login
  cases authenticate b username password db with
  | none => exact .unchanged_error (by rintro f ⟨⟩)
  | some user =>
    simp only [atomic]
    split
    · rename_i p db' hr
      obtain ⟨hp, hts⟩ := issue_ok hr
      simp only [Except.map, hts]
      exact .loggedIn hop hp
    · rename_i err herr
      obtain rfl := issue_error herr
      exact .unchanged_error (by rintro f ⟨⟩)

theorem refresh_effect {secret : String} (hop : c.op = .refresh secret) :
    Effect b c db ((refresh b c.draw c.now secret db).1.map some)
      (refresh b c.draw c.now secret db).2.tokens := by
  unfold refresh atomic rotate
  cases hf : db.tokens.find? (fun t => t.secretHash == b.hashSecret secret) with
  | none => exact .unchanged_error (by rintro f ⟨⟩; rfl)
  | some t =>
    have ht := presents_of_find hf
    dsimp only
    split_ifs with hrev hexp hact
    · exact .replayed hop ht (by simpa [Option.isSome_iff_ne_none] using hrev)
    · exact .expired hop ht (by simpa using hrev) hexp
    · exact .inactive hop ht (by simpa using hrev) (by simpa using hact)
    · simp only [bind, Except.bind, pure, Except.pure]
      cases hi : issue b c.draw c.now t.user (some t.sessionId)
          { db with tokens := revoke (fun u => u.id == t.id) c.now db.tokens } with
      | error e =>
        obtain rfl := issue_error hi
        exact .unchanged_error (by rintro f ⟨⟩)
      | ok r =>
        obtain ⟨p, db'⟩ := r
        obtain ⟨hp, hts⟩ := issue_ok hi
        simp only [Except.map, hts]
        exact .rotated hop ht (by simp_all [RefreshToken.isUsable]) (by simpa using hact) hp

/-- **What a call can do**: every case, with the branch the source takes. -/
theorem exec_effect (b : Backend) (c : Call) (db : AuthDb) :
    Effect b c db (exec b c db).1 (exec b c db).2.tokens := by
  unfold exec
  cases hop : c.op with
  | login username password => exact login_effect hop
  | refresh secret => exact refresh_effect hop
  | revoke secret =>
    dsimp only [signOut]
    cases hf : db.tokens.find? (fun t => t.secretHash == b.hashSecret secret) with
    | none => exact .unchanged (by rintro p ⟨⟩) (by rintro f ⟨⟩)
    | some t => exact .signedOut hop (presents_of_find hf)
  | setActive user isActive => exact .unchanged (by rintro p ⟨⟩) (by rintro f ⟨⟩)
  | purgeExpired => exact .purged hop

end Effect

end Totem.Authentication
