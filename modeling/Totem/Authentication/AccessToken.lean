import Mathlib.Data.Finset.Dedup
import Totem.Authentication.Tokens
import Totem.Html.Widgets
import Totem.Lib.Regex
import Totem.Lib.Words

/-!
# Totem.Authentication.AccessToken — the scopes of an access token

`user/access_rights.py`, `authentication/tokens.py` and `authentication/principal.py`: the scopes of a user are
joined into one claim, signed, and split again when the token is decoded.  `jwt.decode` is a third party
(`TokenLibrary`); instants are in microseconds, and the claims of a token in whole seconds.

* `decodeAccessToken_eq_ok_iff`: what an accepted token is.
* `scopes_kept_iff`: the registries whose permissions survive the claim.
-/

namespace Totem.Authentication

open Totem.Lib Totem.Html

/-! ## The registry of the permissions -/

/-- A row of the registry. -/
structure PermissionRecord where
  permission : String
  description : String
  isPublic : Bool
  deriving DecidableEq, Repr

/-- `[a-z]`. -/
def isLowerLetter (c : Char) : Bool := decide ('a' ≤ c ∧ c ≤ 'z')

/-- `[a-z]{3,}`. -/
def letters : Regex Char := .seq (.times 3 (.cls isLowerLetter)) (.star (.cls isLowerLetter))

/-- The pattern of a permission name. -/
def permissionRegex : Regex Char :=
  .seq letters (.seq (.word ['.']) (.seq letters (.seq (.word ['.']) letters)))

/-- `re.match(regex, permission) is not None`. -/
def matchesRegex (permission : String) : Bool := !(permissionRegex.successes permission.toList).isEmpty

/-- `register_permission`: the registry with the new row, or the text of what is raised. -/
def registerPermission (registry : List PermissionRecord) (permission description : String) (isPublic : Bool) :
    Except String (List PermissionRecord) :=
  if permission ∈ registry.map PermissionRecord.permission then
    .error ("The permission " ++ permission ++ " already exists.")
  else if !matchesRegex permission then
    .error ("The permission name " ++ permission ++ " does not match the regex.")
  else .ok (registry ++ [⟨permission, description, isPublic⟩])

/-- The registry after calls of `register_permission`. -/
def registerAll : List PermissionRecord → List PermissionRecord → Except String (List PermissionRecord)
  | registry, [] => .ok registry
  | registry, r :: calls => do
      let registry ← registerPermission registry r.permission r.description r.isPublic
      registerAll registry calls

theorem registerPermission_matches {registry registry' : List PermissionRecord} {permission description : String}
    {isPublic : Bool} (h : registerPermission registry permission description isPublic = .ok registry')
    (hmatches : ∀ r ∈ registry, matchesRegex r.permission = true) :
    ∀ r ∈ registry', matchesRegex r.permission = true := by
  rw [registerPermission] at h
  by_cases hexists : permission ∈ registry.map PermissionRecord.permission
  · rw [if_pos hexists] at h
    cases h
  · rw [if_neg hexists] at h
    cases hname : matchesRegex permission with
    | false =>
      rw [hname] at h
      cases h
    | true =>
      rw [hname] at h
      obtain rfl := Except.ok.inj h
      rw [List.forall_mem_append]
      exact ⟨hmatches, List.forall_mem_singleton.2 hname⟩

/-- Every name of the registry matches the pattern. -/
theorem registerAll_matches {registry registry' calls : List PermissionRecord}
    (h : registerAll registry calls = .ok registry') (hmatches : ∀ r ∈ registry, matchesRegex r.permission = true) :
    ∀ r ∈ registry', matchesRegex r.permission = true := by
  induction calls generalizing registry with
  | nil =>
    obtain rfl := Except.ok.inj h
    exact hmatches
  | cons r calls ih =>
    rw [registerAll] at h
    cases hstep : registerPermission registry r.permission r.description r.isPublic with
    | error text =>
      rw [hstep] at h
      cases h
    | ok registry1 =>
      rw [hstep] at h
      exact ih h (registerPermission_matches hstep hmatches)

theorem toList_ne_nil_of_matchesRegex {permission : String} (h : matchesRegex permission = true) :
    permission.toList ≠ [] := by
  intro hnil
  rw [matchesRegex, hnil] at h
  cases h

/-! ## The codec -/

/-- What `jwt.decode` raises. -/
inductive JwtError where
  | expiredSignature (text : String)
  | invalidToken (text : String)
  deriving DecidableEq, Repr

inductive TokenError where
  | expired (text : String)
  | invalid (text : String)
  deriving DecidableEq, Repr

/-- Microseconds in a second. -/
def second : ℕ := 1000000

/-- The payload as it is signed: the instants are cut to whole seconds. -/
def numericDates (payload : Claims) : Claims :=
  { payload with iat := payload.iat / second, exp := payload.exp / second }

/-- The checks of `jwt.decode` on the instants of a signed payload. -/
def checkInstants (claims : Claims) (now : ℕ) : Except JwtError Claims :=
  if now < claims.iat * second then .error (.invalidToken "The token is not yet valid (iat)")
  else if claims.exp * second ≤ now then .error (.expiredSignature "Signature has expired")
  else .ok claims

/-- `jwt.decode` with the key, the algorithm and the required claims of the settings, at an instant. -/
structure TokenLibrary (b : Backend) where
  /-- `repr` of a text. -/
  repr : String → String
  jwtDecode : String → ℕ → Except JwtError Claims
  /-- The signature of a token that was signed here is verified. -/
  decode_encode : ∀ payload now, jwtDecode (b.jwtEncode payload) now = checkInstants (numericDates payload) now

/-- `db_name or current_database()`. -/
def databaseName (dbName : Option String) (current : String) : String :=
  match dbName with
  | some name => if name = "" then current else name
  | none => current

/-- `encode_access_token` with all its arguments, at `clock` on the database `current`. -/
def encodeAccessTokenAt (b : Backend) (userId : String) (scopes : List String) (dbName : Option String)
    (ttl now : Option ℕ) (jti current : String) (clock : ℕ) : String × ℕ :=
  let now := now.getD clock
  let ttl := ttl.getD b.jwtAccessTokenLifetime
  let expiresAt := now + ttl
  let payload : Claims := {
    sub := userId
    typ := accessTokenType
    scope := " ".intercalate (scopes.mergeSort (· ≤ ·))
    db := databaseName dbName current
    iat := now
    exp := expiresAt
    jti := jti }
  (b.jwtEncode payload, expiresAt)

/-- The call of the services leaves the arguments to their defaults. -/
theorem encodeAccessToken_eq (b : Backend) (userId : String) (scopes : List String) (jti : String) (now : ℕ) :
    encodeAccessToken b userId scopes jti now =
      encodeAccessTokenAt b userId scopes none none (some now) jti b.currentDatabase now := rfl

section

variable {b : Backend} (lib : TokenLibrary b)

/-- `decode_access_token`, at `clock` on the database `current`. -/
def decodeAccessToken (token : String) (dbName : Option String) (current : String) (clock : ℕ) :
    Except TokenError Claims :=
  match lib.jwtDecode token clock with
  | .error (.expiredSignature text) => .error (.expired text)
  | .error (.invalidToken text) => .error (.invalid text)
  | .ok claims =>
      if claims.typ ≠ accessTokenType then .error (.invalid ("Unexpected token type " ++ lib.repr claims.typ))
      else
        let expectedDb := databaseName dbName current
        if claims.db ≠ expectedDb then
          .error (.invalid ("Token was not issued for the database " ++ lib.repr expectedDb))
        else .ok claims

/-- **An accepted token is one the library verifies, of this type, and issued for this database.** -/
theorem decodeAccessToken_eq_ok_iff {token : String} {dbName : Option String} {current : String} {clock : ℕ}
    {claims : Claims} : decodeAccessToken lib token dbName current clock = .ok claims ↔
      lib.jwtDecode token clock = .ok claims ∧ claims.typ = accessTokenType ∧
        claims.db = databaseName dbName current := by
  rw [decodeAccessToken]
  cases hdecode : lib.jwtDecode token clock with
  | error e => cases e <;> simp
  | ok claims' =>
    by_cases htyp : claims'.typ = accessTokenType
    · by_cases hdb : claims'.db = databaseName dbName current
      · simp only [htyp, hdb, ne_eq, not_true_eq_false, if_false]
        constructor
        · intro h
          obtain rfl := Except.ok.inj h
          exact ⟨rfl, htyp, hdb⟩
        · exact fun h => congrArg Except.ok (Except.ok.inj h.1)
      · simp only [htyp, hdb, ne_eq, not_true_eq_false, not_false_eq_true, if_false, if_true]
        refine ⟨fun h => (nomatch h), ?_⟩
        rintro ⟨h, -, hdb'⟩
        obtain rfl := Except.ok.inj h
        exact absurd hdb' hdb
    · simp only [htyp, ne_eq, not_false_eq_true, if_true]
      refine ⟨fun h => (nomatch h), ?_⟩
      rintro ⟨h, htyp', -⟩
      obtain rfl := Except.ok.inj h
      exact absurd htyp' htyp

end

/-! ## The principal -/

structure AccessToken (U : Type) where
  user : U
  scope : String
  jti : String
  expiresAt : ℕ
  deriving DecidableEq, Repr

/-- The object `JWTAuth.authenticate` makes of the claims. -/
def AccessToken.ofClaims {U : Type} (user : U) (claims : Claims) : AccessToken U :=
  ⟨user, claims.scope, claims.jti, claims.exp⟩

/-- `set(self.scope.split())`. -/
def AccessToken.scopes {U : Type} (token : AccessToken U) : Finset String :=
  ((words isSpace token.scope.toList).map String.ofList).toFinset

def AccessToken.hasScopes {U : Type} (token : AccessToken U) (scopes : List String) : Bool :=
  if scopes.isEmpty then true else decide (scopes.toFinset ⊆ token.scopes)

theorem AccessToken.hasScopes_iff {U : Type} (token : AccessToken U) (scopes : List String) :
    token.hasScopes scopes = true ↔ ∀ p ∈ scopes, p ∈ token.scopes := by
  rw [hasScopes]
  cases scopes with
  | nil => simp
  | cons p scopes =>
    rw [if_neg (by simp), decide_eq_true_iff, Finset.subset_iff]
    simp only [List.mem_toFinset]

/-! ## The round trip -/

/-- A call of `encode_access_token` with the scopes of a user. -/
structure Issue where
  userId : String
  roles : List (List String)
  dbName : Option String
  ttl : Option ℕ
  now : Option ℕ
  jti : String
  current : String
  clock : ℕ

section

variable {b : Backend} (lib : TokenLibrary b)

def Issue.issuedAt (i : Issue) : ℕ := i.now.getD i.clock

/-- The token, and the `expires_at` that is returned with it. -/
def Issue.encoded (b : Backend) (i : Issue) : String × ℕ :=
  encodeAccessTokenAt b i.userId (getUserScopes i.roles) i.dbName i.ttl i.now i.jti i.current i.clock

/-- The instant of the `exp` claim: that of `expires_at`, in whole seconds. -/
def Issue.expiry (b : Backend) (i : Issue) : ℕ := (i.encoded b).2 / second * second

/-- The claims decoding gives. -/
def Issue.claims (b : Backend) (i : Issue) : Claims where
  sub := i.userId
  typ := accessTokenType
  scope := " ".intercalate ((getUserScopes i.roles).mergeSort (· ≤ ·))
  db := databaseName i.dbName i.current
  iat := i.issuedAt / second
  exp := (i.encoded b).2 / second
  jti := i.jti

/-- What is decoded of the token, a while after it was issued. -/
def Issue.decoded (i : Issue) (dbName : Option String) (current : String) (elapsed : ℕ) : Except TokenError Claims :=
  decodeAccessToken lib (i.encoded b).1 dbName current (i.issuedAt + elapsed)

/-- The token is accepted on its own database before it expires, with exactly the scopes of the user, and refused
on any other database and when it has expired. -/
structure RoundTrips (i : Issue) : Prop where
  accepted : ∀ dbName current elapsed, databaseName dbName current = databaseName i.dbName i.current →
    i.issuedAt + elapsed < i.expiry b → ∃ claims, i.decoded lib dbName current elapsed = .ok claims ∧
      ∀ (U : Type) (user : U), (AccessToken.ofClaims user claims).scopes = i.roles.flatten.toFinset ∧
        ∀ required, (AccessToken.ofClaims user claims).hasScopes required = true ↔
          ∀ p ∈ required, ∃ role ∈ i.roles, p ∈ role
  otherDatabase : ∀ dbName current elapsed, databaseName dbName current ≠ databaseName i.dbName i.current →
    ∃ e, i.decoded lib dbName current elapsed = .error e
  expired : ∀ dbName current elapsed, i.expiry b ≤ i.issuedAt + elapsed →
    ∃ e, i.decoded lib dbName current elapsed = .error e

theorem checkInstants_issue (i : Issue) (elapsed : ℕ) :
    checkInstants (i.claims b) (i.issuedAt + elapsed) =
      if i.expiry b ≤ i.issuedAt + elapsed then .error (.expiredSignature "Signature has expired")
      else .ok (i.claims b) := by
  have hiat : ¬ i.issuedAt + elapsed < (i.claims b).iat * second := by
    have hcut : (i.claims b).iat * second ≤ i.issuedAt := Nat.div_mul_le_self i.issuedAt second
    omega
  rw [checkInstants, if_neg hiat]
  rfl

/-- **When a token is accepted.** -/
theorem decoded_eq_ok_iff (i : Issue) (dbName : Option String) (current : String) (elapsed : ℕ) (claims : Claims) :
    i.decoded lib dbName current elapsed = .ok claims ↔
      i.issuedAt + elapsed < i.expiry b ∧ databaseName dbName current = databaseName i.dbName i.current ∧
        claims = i.claims b := by
  have hjwt : lib.jwtDecode (i.encoded b).1 (i.issuedAt + elapsed) =
      checkInstants (i.claims b) (i.issuedAt + elapsed) := lib.decode_encode _ _
  rw [Issue.decoded, decodeAccessToken_eq_ok_iff, hjwt, checkInstants_issue]
  by_cases hexpired : i.expiry b ≤ i.issuedAt + elapsed
  · rw [if_pos hexpired]
    exact ⟨fun h => (nomatch h.1), fun h => absurd h.1 (Nat.not_lt.2 hexpired)⟩
  · rw [if_neg hexpired]
    constructor
    · rintro ⟨h, -, hdb⟩
      obtain rfl := Except.ok.inj h
      exact ⟨Nat.lt_of_not_le hexpired, hdb.symm, rfl⟩
    · rintro ⟨-, hdb, rfl⟩
      exact ⟨rfl, rfl, hdb.symm⟩

theorem decoded_error (i : Issue) (dbName : Option String) (current : String) (elapsed : ℕ)
    (h : ∀ claims, i.decoded lib dbName current elapsed ≠ .ok claims) :
    ∃ e, i.decoded lib dbName current elapsed = .error e := by
  cases hdecoded : i.decoded lib dbName current elapsed with
  | error e => exact ⟨e, rfl⟩
  | ok claims => exact absurd hdecoded (h claims)

/-- The scopes of the claims, whatever the principal. -/
theorem roundTrips_issue_iff (i : Issue) : RoundTrips lib i ↔ (i.issuedAt < i.expiry b →
    (AccessToken.ofClaims () (i.claims b)).scopes = i.roles.flatten.toFinset) := by
  constructor
  · intro h hlt
    obtain ⟨claims, hclaims, hscopes⟩ := h.accepted i.dbName i.current 0 rfl hlt
    obtain ⟨-, -, rfl⟩ := (decoded_eq_ok_iff lib i i.dbName i.current 0 claims).1 hclaims
    exact (hscopes Unit ()).1
  · intro h
    refine ⟨fun dbName current elapsed hdb hlt => ?_, fun dbName current elapsed hdb => ?_,
      fun dbName current elapsed hexpired => ?_⟩
    · refine ⟨i.claims b, (decoded_eq_ok_iff lib i dbName current elapsed _).2 ⟨hlt, hdb, rfl⟩, fun U user => ?_⟩
      have hscopes : (AccessToken.ofClaims user (i.claims b)).scopes = i.roles.flatten.toFinset := h (by omega)
      refine ⟨hscopes, fun required => ?_⟩
      rw [AccessToken.hasScopes_iff, hscopes]
      simp only [List.mem_toFinset, List.mem_flatten]
    · refine decoded_error lib i dbName current elapsed fun claims hclaims => hdb ?_
      exact ((decoded_eq_ok_iff lib i dbName current elapsed claims).1 hclaims).2.1
    · refine decoded_error lib i dbName current elapsed fun claims hclaims => ?_
      exact absurd ((decoded_eq_ok_iff lib i dbName current elapsed claims).1 hclaims).1 (Nat.not_lt.2 hexpired)

end

/-! ## The scope claim -/

variable {roles : List (List String)}

theorem mem_scopeNames {name : String} :
    name ∈ (getUserScopes roles).mergeSort (· ≤ ·) ↔ name ∈ roles.flatten := by
  rw [List.mem_mergeSort, mem_getUserScopes, List.mem_flatten]

theorem words_scope (h : ∀ name ∈ roles.flatten, name.toList ≠ [] ∧ ∀ c ∈ name.toList, isSpace c = false) :
    (words isSpace (" ".intercalate ((getUserScopes roles).mergeSort (· ≤ ·))).toList).map String.ofList =
      (getUserScopes roles).mergeSort (· ≤ ·) := by
  have hspace : isSpace ' ' = true := by decide
  have hlist : ∀ w ∈ ((getUserScopes roles).mergeSort (· ≤ ·)).map String.toList,
      w ≠ [] ∧ ∀ c ∈ w, isSpace c = false := by
    intro w hw
    obtain ⟨name, hname, rfl⟩ := List.mem_map.1 hw
    exact h name (mem_scopeNames.1 hname)
  have hwords := words_intercalate hspace hlist
  rw [String.toList_intercalate, show " ".toList = [' '] from rfl, hwords, List.map_map]
  conv_rhs => rw [← List.map_id ((getUserScopes roles).mergeSort (· ≤ ·))]
  exact List.map_congr_left fun name _ => String.ofList_toList

theorem scopes_of_spaceless (i : Issue) (b : Backend)
    (h : ∀ name ∈ i.roles.flatten, name.toList ≠ [] ∧ ∀ c ∈ name.toList, isSpace c = false) :
    (AccessToken.ofClaims () (i.claims b)).scopes = i.roles.flatten.toFinset := by
  have hwords := words_scope h
  ext name
  rw [AccessToken.scopes, List.mem_toFinset, List.mem_toFinset, ← mem_scopeNames, ← hwords]
  rfl

/-- No scope of an access token has a space in it. -/
theorem spaceless_of_mem_scopes {U : Type} {token : AccessToken U} {name : String} (h : name ∈ token.scopes) :
    ∀ c ∈ name.toList, isSpace c = false := by
  rw [AccessToken.scopes, List.mem_toFinset, List.mem_map] at h
  obtain ⟨w, hw, rfl⟩ := h
  rw [String.toList_ofList]
  exact not_sep_of_mem_words hw

/-- A token issued to a user of one role, for a second. -/
def issueOf (role : List String) : Issue := ⟨"", [role], none, some second, some 0, "", "", 0⟩

/-- **The tokens keep the scopes of every user exactly when no permission of the registry has a space in it.** -/
theorem scopes_kept_iff {b : Backend} (lib : TokenLibrary b) {registry calls : List PermissionRecord}
    (h : registerAll [] calls = .ok registry) :
    (∀ i : Issue, (∀ role ∈ i.roles, ∀ name ∈ role, name ∈ registry.map PermissionRecord.permission) →
      RoundTrips lib i) ↔ ∀ r ∈ registry, ∀ c ∈ r.permission.toList, isSpace c = false := by
  constructor
  · intro hkept r hr
    have hround := hkept (issueOf [r.permission]) fun role hrole name hname => by
      obtain rfl := List.mem_singleton.1 hrole
      obtain rfl := List.mem_singleton.1 hname
      exact List.mem_map_of_mem hr
    have hscopes := (roundTrips_issue_iff lib _).1 hround (show 0 < (0 + second) / second * second by decide)
    refine @spaceless_of_mem_scopes Unit (AccessToken.ofClaims () ((issueOf [r.permission]).claims b)) _ ?_
    rw [hscopes]
    exact List.mem_toFinset.2 List.mem_cons_self
  · intro hspaceless i hroles
    have hmatches := registerAll_matches h fun r hr => absurd hr List.not_mem_nil
    refine (roundTrips_issue_iff lib i).2 fun _ => scopes_of_spaceless i b fun name hname => ?_
    obtain ⟨role, hrole, hmem⟩ := List.mem_flatten.1 hname
    obtain ⟨r, hr, rfl⟩ := List.mem_map.1 (hroles role hrole name hmem)
    exact ⟨toList_ne_nil_of_matchesRegex (hmatches r hr), hspaceless r hr⟩

/-! ## A library -/

/-- A text with a mark before each character, and one at its end. -/
def markText (w : List Char) : List Char := (w.flatMap fun c => ['+', c]) ++ ['-']

def readText : List Char → Option (List Char × List Char)
  | '+' :: c :: rest => (readText rest).map fun x => (c :: x.1, x.2)
  | '-' :: rest => some ([], rest)
  | _ => none

theorem readText_markText (w rest : List Char) : readText (markText w ++ rest) = some (w, rest) := by
  induction w with
  | nil => rfl
  | cons c w ih =>
    have hcons : markText (c :: w) ++ rest = '+' :: c :: (markText w ++ rest) := rfl
    rw [hcons, readText, ih, Option.map_some]

/-- The fields of the claims, the instants as so many digits. -/
def claimTexts (claims : Claims) : List (List Char) :=
  [claims.sub.toList, claims.typ.toList, claims.scope.toList, claims.db.toList, List.replicate claims.iat '1',
    List.replicate claims.exp '1', claims.jti.toList]

def readTexts : ℕ → List Char → Option (List (List Char))
  | 0, _ => some []
  | n + 1, w => (readText w).bind fun x => (readTexts n x.2).map fun texts => x.1 :: texts

def readClaims : List (List Char) → Option Claims
  | [sub, typ, scope, db, iat, exp, jti] => some {
      sub := String.ofList sub, typ := String.ofList typ, scope := String.ofList scope, db := String.ofList db
      iat := iat.length, exp := exp.length, jti := String.ofList jti }
  | _ => none

theorem readTexts_flatMap (texts : List (List Char)) :
    readTexts texts.length (texts.flatMap markText) = some texts := by
  induction texts with
  | nil => rfl
  | cons w texts ih =>
    rw [List.length_cons, List.flatMap_cons, readTexts, readText_markText, Option.bind_some, ih, Option.map_some]

theorem readClaims_claimTexts (claims : Claims) : readClaims (claimTexts claims) = some claims := by
  simp [claimTexts, readClaims]

/-- Settings under which a token is its payload, printed. -/
def plainBackend : Backend where
  hashSecret := id
  jwtEncode claims := String.ofList ((claimTexts claims).flatMap markText)
  checkPassword _ _ := none
  currentDatabase := "default"
  jwtAccessTokenLifetime := 900 * second
  jwtRefreshTokenLifetime := 86400 * second

/-- The payload of a printed token. -/
def readToken (token : String) : Option Claims := (readTexts 7 token.toList).bind readClaims

theorem readToken_jwtEncode (claims : Claims) : readToken (plainBackend.jwtEncode claims) = some claims := by
  have htexts : readTexts 7 ((claimTexts claims).flatMap markText) = some (claimTexts claims) :=
    readTexts_flatMap (claimTexts claims)
  rw [readToken, plainBackend, String.toList_ofList, htexts, Option.bind_some, readClaims_claimTexts]

def plainLibrary : TokenLibrary plainBackend where
  repr text := "'" ++ text ++ "'"
  jwtDecode token now :=
    match readToken token with
    | some claims => checkInstants (numericDates claims) now
    | none => .error (.invalidToken "Not enough segments")
  decode_encode payload now := by rw [readToken_jwtEncode]

theorem scopes_kept_sample : RoundTrips plainLibrary (issueOf ["totem.user.read"]) :=
  have hspaceless : "totem.user.read".toList.all (fun c => isSpace c = false) = true := by decide
  (@scopes_kept_iff plainBackend plainLibrary [⟨"totem.user.read", "Read the users", false⟩]
    [⟨"totem.user.read", "Read the users", false⟩] (by rfl)).2
    (by simpa using hspaceless) (issueOf ["totem.user.read"]) (by decide)

/-- The pattern stops at the third part: what follows it may hold a space. -/
theorem space_in_a_permission : ¬ ∀ (registry calls : List PermissionRecord), registerAll [] calls = .ok registry →
    ∀ i : Issue, (∀ role ∈ i.roles, ∀ name ∈ role, name ∈ registry.map PermissionRecord.permission) →
      RoundTrips plainLibrary i := by
  intro h
  have hround := h [⟨"totem.user.read all", "", false⟩] [⟨"totem.user.read all", "", false⟩] (by rfl)
    (issueOf ["totem.user.read all"]) (by decide)
  have hscopes := (roundTrips_issue_iff plainLibrary _).1 hround (show 0 < (0 + second) / second * second by decide)
  have hmem : "totem.user.read all" ∈ (issueOf ["totem.user.read all"]).roles.flatten.toFinset := by decide
  rw [← hscopes] at hmem
  exact absurd (spaceless_of_mem_scopes hmem ' ' (by decide)) (by decide)

end Totem.Authentication
