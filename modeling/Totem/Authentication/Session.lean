import Totem.Authentication.AuthService
import Mathlib.Data.Set.Basic

/-!
# Totem.Authentication.Session — rotation over serial runs

Runs of whole transactions, with a clock that does not go back and fresh draws.  `Sys.minted` keeps,
for the statements only, every pair (secret hash, session) a row ever carried: a purge deletes rows.

* `WellFormed` is the invariant; `WellFormed.step` derives it from `exec_effect`.
* A killed session is `Dead`, and stays so: `Dead.step`, `Dead.refresh_fails`.
* `serial_runs`: one live token at most per session, one exchange at most per secret, no refresh after
  a replay or a sign-out, and what a refused refresh leaves.
-/

namespace Totem.Authentication

open Totem.Lib

/-! ## Runs -/

/-- The pair a row adds to the history. -/
def RefreshToken.key (t : RefreshToken) : String × String := (t.secretHash, t.sessionId)

/-- The database, the clock and the history. -/
structure Sys where
  db : AuthDb
  clock : ℕ
  minted : Set (String × String)

/-- What a call draws was never drawn before. -/
structure Fresh (b : Backend) (s : Sys) (d : Draw) : Prop where
  id : ∀ t ∈ s.db.tokens, t.id ≠ d.id
  secret : ∀ sid, (b.hashSecret d.secret, sid) ∉ s.minted
  session : ∀ h, (h, d.sessionId) ∉ s.minted

/-- One call of a run, with its answer. -/
def Step (b : Backend) (s : Sys) (e : Call × Outcome) (s' : Sys) : Prop :=
  s.clock ≤ e.1.now ∧ Fresh b s e.1.draw ∧ exec b e.1 s.db = (e.2, s'.db) ∧ s'.clock = e.1.now ∧
    s'.minted = s.minted ∪ {k | ∃ t ∈ s'.db.tokens, t.key = k}

/-- The event exchanges `secret` for a pair. -/
def exchanges (secret : String) (e : Call × Outcome) : Bool :=
  match e with
  | (c, .ok (some _)) => c.op == .refresh secret
  | _ => false

/-- The call presents an already revoked token of the session, or signs the session out. -/
def Kills (b : Backend) (sid : String) (db : AuthDb) (c : Call) : Prop :=
  ∃ secret t, Presents b secret db t ∧ t.sessionId = sid ∧
    (c.op = .refresh secret ∧ t.revokedAt ≠ none ∨ c.op = .revoke secret)

/-! ## The invariant -/

/-- What every run keeps. -/
structure WellFormed (s : Sys) : Prop where
  id_nodup : (s.db.tokens.map (·.id)).Nodup
  hash_nodup : (s.db.tokens.map (·.secretHash)).Nodup
  mem_minted : ∀ t ∈ s.db.tokens, t.key ∈ s.minted
  session_unique : ∀ h sid sid', (h, sid) ∈ s.minted → (h, sid') ∈ s.minted → sid = sid'
  live_le : ∀ sid, (live sid s.db.tokens).length ≤ 1

/-- An empty table is well formed. -/
theorem WellFormed.of_empty (users : String → User) (clock : ℕ) :
    WellFormed ⟨⟨[], users⟩, clock, ∅⟩ :=
  ⟨List.nodup_nil, List.nodup_nil, by simp, by simp, fun _ => Nat.zero_le _⟩

section Step

variable {b : Backend} {s s' : Sys} {e : Call × Outcome} {c : Call} {db : AuthDb} {out : Outcome}
  {ts : List RefreshToken}

theorem Step.effect (h : Step b s e s') : Effect b e.1 s.db e.2 s'.db.tokens := by
  have he := exec_effect b e.1 s.db
  rw [h.2.2.1] at he
  exact he

/-- A row after a call is a row from before, perhaps revoked, or the row the call inserts: in a new
session, or in the session of a live row. -/
theorem Effect.mem (h : Effect b c db out ts) {t' : RefreshToken} (ht' : t' ∈ ts) :
    (∃ t ∈ db.tokens, ∃ q, t' = revokeRow q c.now t) ∨
    ∃ user sid, t' = newToken b c.draw c.now user sid ∧
      (sid = c.draw.sessionId ∨ ∃ t ∈ db.tokens, t.sessionId = sid ∧ t.revokedAt = none) := by
  have hkeep : ∀ {t}, t ∈ db.tokens → ∃ u ∈ db.tokens, ∃ q, t = revokeRow q c.now u := fun ht =>
    ⟨_, ht, fun _ => false, (revokeRow_of_not rfl).symm⟩
  have hrev : ∀ {q t}, t ∈ revoke q c.now db.tokens →
      ∃ u ∈ db.tokens, ∃ q, t = revokeRow q c.now u := by
    intro q t ht
    obtain ⟨u, hu, rfl⟩ := mem_revoke.mp ht
    exact ⟨u, hu, q, rfl⟩
  cases h with
  | unchanged => exact .inl (hkeep ht')
  | loggedIn =>
    rcases List.mem_append.mp ht' with ht' | ht'
    · exact .inl (hkeep ht')
    · exact .inr ⟨_, _, List.mem_singleton.mp ht', .inl rfl⟩
  | rotated _ ht hlive =>
    rcases List.mem_append.mp ht' with ht' | ht'
    · exact .inl (hrev ht')
    · refine .inr ⟨_, _, List.mem_singleton.mp ht', .inr ⟨_, ht.1, rfl, ?_⟩⟩
      simpa using (Bool.and_eq_true_iff.mp hlive).1
  | replayed => exact .inl (hrev ht')
  | expired => exact .inl (hrev ht')
  | inactive => exact .inl (hrev ht')
  | signedOut => exact .inl (hrev ht')
  | purged => exact .inl (hkeep (List.mem_of_mem_filter ht'))

/-- The columns a call keeps distinct stay so: it adds at most one row, whose value is new. -/
theorem Effect.nodup_map {α : Type} (f : RefreshToken → α)
    (hf : ∀ q now t, f (revokeRow q now t) = f t) (h : Effect b c db out ts)
    (hnd : (db.tokens.map f).Nodup)
    (hnew : ∀ user sid, f (newToken b c.draw c.now user sid) ∉ db.tokens.map f) :
    (ts.map f).Nodup := by
  have hrev : ∀ q, (revoke q c.now db.tokens).map f = db.tokens.map f := by
    intro q
    simp [revoke, Function.comp_def, hf]
  have happ : ∀ {us : List RefreshToken} {user sid}, us.map f = db.tokens.map f →
      ((us ++ [newToken b c.draw c.now user sid]).map f).Nodup := by
    intro us user sid hus
    rw [List.map_append, hus, List.map_singleton]
    exact List.nodup_append.mpr ⟨hnd, List.nodup_singleton _, by
      rintro x hx y hy rfl
      rw [List.mem_singleton] at hy
      exact hnew user sid (hy ▸ hx)⟩
  cases h with
  | unchanged => exact hnd
  | loggedIn => exact happ rfl
  | rotated => exact happ (hrev _)
  | replayed => exact (hrev _).symm ▸ hnd
  | expired => exact (hrev _).symm ▸ hnd
  | inactive => exact (hrev _).symm ▸ hnd
  | signedOut => exact (hrev _).symm ▸ hnd
  | purged => exact hnd.sublist (List.filter_sublist.map f)

theorem live_newToken (d : Draw) (now : ℕ) (user sid sid' : String) :
    live sid' [newToken b d now user sid] =
      if sid = sid' then [newToken b d now user sid] else [] := by
  simp [live, newToken, List.filter_cons]

/-- One live row at most per session: a rotation revokes the row whose successor it inserts. -/
theorem Effect.live_le (h : Effect b c db out ts)
    (hle : ∀ sid, (live sid db.tokens).length ≤ 1)
    (hnew : ∀ t ∈ db.tokens, t.sessionId ≠ c.draw.sessionId) (sid : String) :
    (live sid ts).length ≤ 1 := by
  have hrev : ∀ q, (live sid (revoke q c.now db.tokens)).length ≤ 1 := by
    intro q
    rw [live_revoke]
    exact (List.length_filter_le _ _).trans (hle sid)
  cases h with
  | unchanged => exact hle sid
  | loggedIn =>
    rw [live_append, live_newToken]
    split_ifs with heq
    · have hnil : live sid db.tokens = [] := by
        rw [live, List.filter_eq_nil_iff]
        intro t ht
        simp [heq ▸ hnew t ht]
      simp [hnil]
    · simpa using hle sid
  | @rotated secret t p hop ht hlive =>
    rw [live_append, live_newToken]
    split_ifs with heq
    · -- the presented row is the live row of its session, and the rotation revokes it
      have hmem : t ∈ live sid db.tokens :=
        mem_live.mpr ⟨ht.1, heq, by simpa using (Bool.and_eq_true_iff.mp hlive).1⟩
      have hnil : live sid (revoke (fun u => u.id == t.id) c.now db.tokens) = [] := by
        obtain ⟨u, hu⟩ := List.length_eq_one_iff.mp
          (le_antisymm (hle sid) (List.length_pos_of_mem hmem))
        rw [hu, List.mem_singleton] at hmem
        rw [live_revoke, hu, ← hmem]
        simp
      simp [hnil]
    · simpa using hrev _
  | replayed => exact hrev _
  | expired => exact hrev _
  | inactive => exact hrev _
  | signedOut => exact hrev _
  | purged => exact (length_live_filter_le sid _).trans (hle sid)

theorem mem_minted_of_mem (h : Step b s e s') {t : RefreshToken} (ht : t ∈ s'.db.tokens) :
    t.key ∈ s'.minted := by
  rw [h.2.2.2.2]
  exact .inr ⟨t, ht, rfl⟩

theorem minted_mono (h : Step b s e s') {k : String × String} (hk : k ∈ s.minted) :
    k ∈ s'.minted := by
  rw [h.2.2.2.2]
  exact .inl hk

/-- What a call adds to the history is the key of the row it inserts. -/
theorem minted_new (hs : WellFormed s) (h : Step b s e s') {k : String × String}
    (hk : k ∈ s'.minted) : k ∈ s.minted ∨ k.1 = b.hashSecret e.1.draw.secret := by
  rw [h.2.2.2.2] at hk
  rcases hk with hk | ⟨t', ht', rfl⟩
  · exact .inl hk
  · rcases h.effect.mem ht' with ⟨t, ht, q, rfl⟩ | ⟨user, sid, rfl, -⟩
    · left
      simpa [RefreshToken.key] using hs.mem_minted t ht
    · exact .inr rfl

theorem hash_not_mem (hs : WellFormed s) (h : Step b s e s') :
    b.hashSecret e.1.draw.secret ∉ s.db.tokens.map (·.secretHash) := by
  intro hmem
  obtain ⟨t, ht, heq⟩ := List.mem_map.mp hmem
  have hkey := hs.mem_minted t ht
  rw [RefreshToken.key, heq] at hkey
  exact h.2.1.secret t.sessionId hkey

/-- Two rows a call leaves with the same hash are in the same session. -/
theorem session_unique_step (hs : WellFormed s) (h : Step b s e s') {hash sid sid' : String}
    (h1 : (hash, sid) ∈ s'.minted) (h2 : (hash, sid') ∈ s'.minted) : sid = sid' := by
  have hnd : (s'.db.tokens.map (·.secretHash)).Nodup := h.effect.nodup_map _ (by simp)
    hs.hash_nodup (by
      intro user sid hmem
      exact hash_not_mem hs h hmem)
  have hold : ∀ {x}, (hash, x) ∈ s.minted → hash ≠ b.hashSecret e.1.draw.secret := by
    rintro x hx rfl
    exact h.2.1.secret x hx
  rcases minted_new hs h h1 with h1' | h1' <;> rcases minted_new hs h h2 with h2' | h2'
  · exact hs.session_unique _ _ _ h1' h2'
  · exact absurd h2' (hold h1')
  · exact absurd h1' (hold h2')
  · -- both carry the new hash: they are the row just inserted
    rw [h.2.2.2.2] at h1 h2
    rcases h1 with h1 | ⟨t, ht, hk⟩
    · exact absurd h1' (hold h1)
    · rcases h2 with h2 | ⟨t', ht', hk'⟩
      · exact absurd h2' (hold h2)
      · have : t = t' := List.inj_on_of_nodup_map hnd ht ht'
          ((Prod.mk.inj hk).1.trans (Prod.mk.inj hk').1.symm)
        subst this
        exact (Prod.mk.inj hk).2.symm.trans (Prod.mk.inj hk').2

theorem WellFormed.step (hs : WellFormed s) (h : Step b s e s') : WellFormed s' where
  id_nodup := h.effect.nodup_map _ (by simp) hs.id_nodup (by
    intro user sid hmem
    obtain ⟨t, ht, heq⟩ := List.mem_map.mp hmem
    exact h.2.1.id t ht heq)
  hash_nodup := h.effect.nodup_map _ (by simp) hs.hash_nodup (by
    intro user sid hmem
    exact hash_not_mem hs h hmem)
  mem_minted := fun t ht => mem_minted_of_mem h ht
  session_unique := fun hash sid sid' h1 h2 => session_unique_step hs h h1 h2
  live_le := h.effect.live_le hs.live_le (by
    rintro t ht heq
    exact h.2.1.session t.secretHash (heq ▸ hs.mem_minted t ht))

end Step

/-! ## A session once killed -/

section Dead

variable {b : Backend} {s s' : Sys} {e : Call × Outcome} {sid : String}

/-- Every row of the session is revoked, and no login can take its id. -/
def Dead (sid : String) (s : Sys) : Prop :=
  (∃ h, (h, sid) ∈ s.minted) ∧ ∀ t ∈ s.db.tokens, t.sessionId = sid → t.revokedAt ≠ none

theorem Dead.step (hd : Dead sid s) (h : Step b s e s') : Dead sid s' := by
  obtain ⟨⟨hash, hmint⟩, hrev⟩ := hd
  refine ⟨⟨hash, minted_mono h hmint⟩, fun t' ht' hsid => ?_⟩
  rcases h.effect.mem ht' with ⟨t, ht, q, rfl⟩ | ⟨user, sid', rfl, hsid' | ⟨t, ht, hts, hlive⟩⟩
  · rw [revokeRow_sessionId] at hsid
    obtain ⟨r, hr⟩ := Option.ne_none_iff_exists'.mp (hrev t ht hsid)
    rw [revokeRow_of_revoked hr, hr]
    simp
  · have hdraw : e.1.draw.sessionId = sid := hsid'.symm.trans hsid
    exact absurd (hdraw ▸ hmint) (h.2.1.session hash)
  · exact absurd hlive (hrev t ht (hts.trans hsid))

/-- Only a usable row is exchanged. -/
theorem Step.exchange {secret : String} (h : Step b s e s') (hx : exchanges secret e = true) :
    ∃ t, Presents b secret s.db t ∧ t.revokedAt = none ∧
      s'.db.tokens = revoke (fun u => u.id == t.id) e.1.now s.db.tokens ++
        [newToken b e.1.draw e.1.now t.user t.sessionId] := by
  obtain ⟨c, out⟩ := e
  have heff := h.effect
  cases out with
  | error err => simp [exchanges] at hx
  | ok o =>
    cases o with
    | none => simp [exchanges] at hx
    | some p =>
      have hop : c.op = .refresh secret := by simpa [exchanges] using hx
      dsimp only at heff
      generalize hts : s'.db.tokens = ts at heff
      cases heff with
      | unchanged hout => exact absurd rfl (hout p)
      | loggedIn hop' => rw [hop] at hop'; cases hop'
      | @rotated secret' t p' hop' ht hlive =>
        rw [hop] at hop'
        obtain rfl := Op.refresh.inj hop'
        exact ⟨t, ht, by simpa using (Bool.and_eq_true_iff.mp hlive).1, rfl⟩

/-- No secret of a dead session is exchanged. -/
theorem Dead.refresh_fails (hs : WellFormed s) (hd : Dead sid s) (h : Step b s e s')
    {secret : String} (hmint : (b.hashSecret secret, sid) ∈ s.minted) :
    exchanges secret e = false := by
  by_contra hx
  obtain ⟨t, ht, hlive, -⟩ := h.exchange (by simpa using hx)
  have hkey : (b.hashSecret secret, t.sessionId) ∈ s.minted := ht.2 ▸ hs.mem_minted t ht.1
  exact hd.2 t ht.1 (hs.session_unique _ _ _ hkey hmint) hlive

/-- A dead session gets no new secret. -/
theorem Dead.minted_of_step (hs : WellFormed s) (hd : Dead sid s) (h : Step b s e s')
    {hash : String} (hk : (hash, sid) ∈ s'.minted) : (hash, sid) ∈ s.minted := by
  rw [h.2.2.2.2] at hk
  rcases hk with hk | ⟨t', ht', hkey⟩
  · exact hk
  · rcases h.effect.mem ht' with ⟨t, ht, q, rfl⟩ | ⟨user, sid', rfl, hsid' | ⟨t, ht, hts, hlive⟩⟩
    · have : t.key = (hash, sid) := by simpa [RefreshToken.key] using hkey
      exact this ▸ hs.mem_minted t ht
    · obtain ⟨h0, hmint⟩ := hd.1
      have hdraw : e.1.draw.sessionId = sid := hsid'.symm.trans (Prod.mk.inj hkey).2
      exact absurd (hdraw ▸ hmint) (h.2.1.session h0)
    · exact absurd hlive (hd.2 t ht (hts.trans (Prod.mk.inj hkey).2))

theorem Dead.minted_of_run {es : List (Call × Outcome)} (hs : WellFormed s) (hd : Dead sid s)
    (hr : Run (Step b) s es s') {hash : String} (hk : (hash, sid) ∈ s'.minted) :
    (hash, sid) ∈ s.minted := by
  induction hr with
  | nil s => exact hk
  | cons h _ ih => exact hd.minted_of_step hs h (ih (hs.step h) (hd.step h) hk)

/-- **No later refresh** with a secret of a dead session succeeds. -/
theorem Dead.run {es : List (Call × Outcome)} (hs : WellFormed s) (hd : Dead sid s)
    (hr : Run (Step b) s es s') {secret : String} (hk : (b.hashSecret secret, sid) ∈ s'.minted) :
    ∀ f ∈ es, exchanges secret f = false := by
  refine Run.forall_mem
    (I := fun s => WellFormed s ∧ Dead sid s ∧ (b.hashSecret secret, sid) ∈ s.minted)
    (fun _ _ _ ⟨hs, hd, hk⟩ h => ⟨hs.step h, hd.step h, minted_mono h hk⟩)
    (fun _ _ _ ⟨hs, hd, hk⟩ h => hd.refresh_fails hs h hk) hr
    ⟨hs, hd, hd.minted_of_run hs hr hk⟩

theorem find_of_presents {db : AuthDb} {secret : String} {t : RefreshToken}
    (hnd : (db.tokens.map (·.secretHash)).Nodup) (ht : Presents b secret db t) :
    db.tokens.find? (fun t => t.secretHash == b.hashSecret secret) = some t := by
  cases hf : db.tokens.find? (fun t => t.secretHash == b.hashSecret secret) with
  | none => exact absurd ht.2 (by simpa using List.find?_eq_none.mp hf t ht.1)
  | some u =>
    have hu := presents_of_find hf
    rw [List.inj_on_of_nodup_map hnd hu.1 ht.1 (hu.2.trans ht.2.symm)]

/-- **A replay or a sign-out revokes the session**, and writes no other row. -/
theorem Kills.tokens (hs : WellFormed s) (h : Step b s e s') (hk : Kills b sid s.db e.1) :
    s'.db.tokens = revokeSession sid e.1.now s.db.tokens := by
  obtain ⟨secret, t, ht, hsid, hop⟩ := hk
  have hf := find_of_presents hs.hash_nodup ht
  have hexec := h.2.2.1
  rcases hop with ⟨hop, hrev⟩ | hop
  · simp only [exec, hop, refresh, atomic, rotate, hf,
      Option.isSome_iff_ne_none.mpr hrev, if_true] at hexec
    rw [← (Prod.mk.inj hexec).2, hsid]
  · simp only [exec, hop, signOut, hf] at hexec
    rw [← (Prod.mk.inj hexec).2, hsid]

/-- The other sessions are left as they were. -/
theorem Kills.others (hs : WellFormed s) (h : Step b s e s') (hk : Kills b sid s.db e.1)
    {t : RefreshToken} (ht : t.sessionId ≠ sid) : t ∈ s'.db.tokens ↔ t ∈ s.db.tokens := by
  rw [hk.tokens hs h, revokeSession, mem_revoke]
  constructor
  · rintro ⟨u, hu, rfl⟩
    rw [revokeRow_sessionId] at ht
    rwa [revokeRow_of_not (by simpa using ht)]
  · exact fun hmem => ⟨t, hmem, revokeRow_of_not (by simpa using ht)⟩

theorem Kills.dead (hs : WellFormed s) (h : Step b s e s') (hk : Kills b sid s.db e.1) :
    Dead sid s' := by
  have hts := hk.tokens hs h
  obtain ⟨secret, t, ht, hsid, -⟩ := hk
  refine ⟨⟨t.secretHash, minted_mono h (hsid ▸ hs.mem_minted t ht.1)⟩, fun t' ht' hsid' => ?_⟩
  rw [hts, revokeSession] at ht'
  obtain ⟨u, hu, rfl⟩ := mem_revoke.mp ht'
  exact revokeRow_revokedAt_ne_none (by simpa using hsid')

end Dead

/-! ## One exchange per secret -/

section Spent

variable {b : Backend} {s s' : Sys} {e : Call × Outcome} {h : String}

/-- The hash was issued and no row carries it any more but revoked. -/
def Spent (h : String) (s : Sys) : Prop :=
  (∃ sid, (h, sid) ∈ s.minted) ∧ ∀ t ∈ s.db.tokens, t.secretHash = h → t.revokedAt ≠ none

theorem Spent.step (hsp : Spent h s) (hst : Step b s e s') : Spent h s' := by
  obtain ⟨⟨sid, hmint⟩, hrev⟩ := hsp
  refine ⟨⟨sid, minted_mono hst hmint⟩, fun t' ht' hh => ?_⟩
  rcases hst.effect.mem ht' with ⟨t, ht, q, rfl⟩ | ⟨user, sid', rfl, -⟩
  · rw [revokeRow_secretHash] at hh
    obtain ⟨r, hr⟩ := Option.ne_none_iff_exists'.mp (hrev t ht hh)
    rw [revokeRow_of_revoked hr, hr]
    simp
  · have : b.hashSecret e.1.draw.secret = h := hh
    exact absurd (this ▸ hmint) (hst.2.1.secret sid)

theorem Spent.not_exchanged {secret : String} (hsp : Spent (b.hashSecret secret) s)
    (hst : Step b s e s') : exchanges secret e = false := by
  by_contra hx
  obtain ⟨t, ht, hlive, -⟩ := hst.exchange (by simpa using hx)
  exact hsp.2 t ht.1 ht.2 hlive

/-- An exchange spends the secret. -/
theorem spent_of_exchange {secret : String} (hs : WellFormed s) (hst : Step b s e s')
    (hx : exchanges secret e = true) : Spent (b.hashSecret secret) s' := by
  obtain ⟨t, ht, -, hts⟩ := hst.exchange hx
  refine ⟨⟨t.sessionId, minted_mono hst (ht.2 ▸ hs.mem_minted t ht.1)⟩, fun t' ht' hh => ?_⟩
  rw [hts] at ht'
  rcases List.mem_append.mp ht' with ht' | ht'
  · obtain ⟨u, hu, rfl⟩ := mem_revoke.mp ht'
    rw [revokeRow_secretHash] at hh
    have hut : u = t := List.inj_on_of_nodup_map hs.hash_nodup hu ht.1 (hh.trans ht.2.symm)
    exact revokeRow_revokedAt_ne_none (by simp [hut])
  · rw [List.mem_singleton.mp ht'] at hh
    have hh' : b.hashSecret e.1.draw.secret = b.hashSecret secret := hh
    exact absurd (hh' ▸ ht.2 ▸ hs.mem_minted t ht.1) (hst.2.1.secret t.sessionId)

theorem Spent.countP_eq_zero {secret : String} {es : List (Call × Outcome)}
    (hsp : Spent (b.hashSecret secret) s) (hr : Run (Step b) s es s') :
    es.countP (exchanges secret) = 0 := by
  rw [List.countP_eq_zero]
  intro e he
  have := Run.forall_mem (I := Spent (b.hashSecret secret)) (Q := fun e => exchanges secret e = false)
    (fun _ _ _ hsp hst => hsp.step hst) (fun _ _ _ hsp hst => hsp.not_exchanged hst) hr hsp e he
  simp [this]

/-- **No secret is exchanged for two pairs.** -/
theorem countP_exchanges_le {secret : String} {es : List (Call × Outcome)} (hs : WellFormed s)
    (hr : Run (Step b) s es s') : es.countP (exchanges secret) ≤ 1 := by
  induction hr with
  | nil s => simp
  | @cons s s₁ s' e es hst hr ih =>
    rw [List.countP_cons]
    split_ifs with hx
    · rw [(spent_of_exchange hs hst hx).countP_eq_zero hr]
    · simpa using ih (hs.step hst)

end Spent

/-! ## What one event leaves -/

section Event

variable {b : Backend} {s s' : Sys} {e : Call × Outcome}

/-- No call overwrites a `revoked_at`. -/
theorem revokedAt_kept (hs : WellFormed s) (h : Step b s e s') {t t' : RefreshToken} {r : ℕ}
    (ht : t ∈ s.db.tokens) (ht' : t' ∈ s'.db.tokens) (hid : t'.id = t.id)
    (hr : t.revokedAt = some r) : t'.revokedAt = some r := by
  rcases h.effect.mem ht' with ⟨u, hu, q, rfl⟩ | ⟨user, sid, rfl, -⟩
  · rw [revokeRow_id] at hid
    have hut : u = t := List.inj_on_of_nodup_map hs.id_nodup hu ht hid
    rw [hut, revokeRow_of_revoked hr, hr]
  · exact absurd hid.symm (h.2.1.id t ht)

/-- The rows a refused refresh revokes, `t` being the row presented. -/
def Failure.scope (t : RefreshToken) : Failure → RefreshToken → Prop
  | .unknown, _ => False
  | .replayed, u => u.sessionId = t.sessionId
  | .expired, u => u.id = t.id
  | .inactive, u => u.user = t.user

/-- **A refused refresh** inserts no row, and what it revokes is committed. -/
theorem refused_refresh (hs : WellFormed s) (h : Step b s e s') {secret : String} {err : AuthError}
    (hop : e.1.op = .refresh secret) (hout : e.2 = .error err) :
    s'.db.tokens.map (·.id) = s.db.tokens.map (·.id) ∧
      ∀ failure t, err = .invalidRefreshToken failure → Presents b secret s.db t →
        ∀ u ∈ s'.db.tokens, failure.scope t u → u.revokedAt ≠ none := by
  obtain ⟨c, out⟩ := e
  dsimp only at hop hout
  subst hout
  have heff := h.effect
  have hpres : ∀ {t u secret'}, c.op = .refresh secret' → Presents b secret' s.db t →
      Presents b secret s.db u → u = t := by
    rintro t u secret' hop' ht hu
    rw [hop] at hop'
    obtain rfl := Op.refresh.inj hop'
    exact List.inj_on_of_nodup_map hs.hash_nodup hu.1 ht.1 (hu.2.trans ht.2.symm)
  dsimp only at heff
  generalize hts : s'.db.tokens = ts at heff
  cases heff with
  | unchanged _ hfail =>
    refine ⟨rfl, ?_⟩
    rintro failure t rfl - u - hscope
    obtain rfl := hfail failure rfl
    exact hscope.elim
  | replayed hop' ht' =>
    refine ⟨by simp [revokeSession], ?_⟩
    rintro failure t ⟨⟩ ht u hu hscope
    obtain ⟨v, hv, rfl⟩ := mem_revoke.mp hu
    exact revokeRow_revokedAt_ne_none (by simpa [Failure.scope, hpres hop' ht' ht] using hscope)
  | expired hop' ht' =>
    refine ⟨by simp, ?_⟩
    rintro failure t ⟨⟩ ht u hu hscope
    obtain ⟨v, hv, rfl⟩ := mem_revoke.mp hu
    exact revokeRow_revokedAt_ne_none (by simpa [Failure.scope, hpres hop' ht' ht] using hscope)
  | inactive hop' ht' =>
    refine ⟨by simp [revokeForUsers], ?_⟩
    rintro failure t ⟨⟩ ht u hu hscope
    obtain ⟨v, hv, rfl⟩ := mem_revoke.mp hu
    exact revokeRow_revokedAt_ne_none (by simpa [Failure.scope, hpres hop' ht' ht] using hscope)

end Event

/-! ## Whole runs -/

/-- The state after a call. -/
def Sys.advance (b : Backend) (c : Call) (s : Sys) : Sys where
  db := (exec b c s.db).2
  clock := c.now
  minted := s.minted ∪ {k | ∃ t ∈ (exec b c s.db).2.tokens, t.key = k}

theorem step_advance {b : Backend} {c : Call} {s : Sys} (hnow : s.clock ≤ c.now)
    (hfresh : Fresh b s c.draw) : Step b s (c, (exec b c s.db).1) (s.advance b c) :=
  ⟨hnow, hfresh, rfl, rfl, rfl⟩

/-- A draw stays fresh as long as no row carries it. -/
theorem Fresh.advance {b : Backend} {c : Call} {s : Sys} {d : Draw} (hf : Fresh b s d)
    (hnew : ∀ t ∈ (exec b c s.db).2.tokens,
      t.id ≠ d.id ∧ t.secretHash ≠ b.hashSecret d.secret ∧ t.sessionId ≠ d.sessionId) :
    Fresh b (s.advance b c) d where
  id := fun t ht => (hnew t ht).1
  secret := by
    rintro sid (hk | ⟨t, ht, hk⟩)
    · exact hf.secret sid hk
    · exact (hnew t ht).2.1 (Prod.mk.inj hk).1
  session := by
    rintro h (hk | ⟨t, ht, hk⟩)
    · exact hf.session h hk
    · exact (hnew t ht).2.2 (Prod.mk.inj hk).2

/-- **Refresh-token rotation over serial runs.**  In the state a run reaches, a session has at most
one live token; over the run, a secret is exchanged at most once; and for every event of the run,
`Kills` shuts its session for good and leaves the others as they were, a refused refresh inserts
nothing and keeps its revocations, and no `revoked_at` is overwritten. -/
theorem serial_runs {b : Backend} {s s' : Sys} {es : List (Call × Outcome)} (hs : WellFormed s)
    (hr : Run (Step b) s es s') :
    (∀ sid, (live sid s'.db.tokens).length ≤ 1) ∧
    (∀ secret, es.countP (exchanges secret) ≤ 1) ∧
    ∀ es₁ e es₂ s₁ s₂, es = es₁ ++ e :: es₂ → Run (Step b) s es₁ s₁ → Step b s₁ e s₂ →
      Run (Step b) s₂ es₂ s' →
      (∀ sid, Kills b sid s₁.db e.1 →
        (∀ secret, (b.hashSecret secret, sid) ∈ s'.minted →
          ∀ f ∈ es₂, exchanges secret f = false) ∧
        ∀ t, t.sessionId ≠ sid → (t ∈ s₂.db.tokens ↔ t ∈ s₁.db.tokens)) ∧
      (∀ secret err, e.1.op = .refresh secret → e.2 = .error err →
        s₂.db.tokens.map (·.id) = s₁.db.tokens.map (·.id) ∧
        ∀ failure t, err = .invalidRefreshToken failure → Presents b secret s₁.db t →
          ∀ u ∈ s₂.db.tokens, failure.scope t u → u.revokedAt ≠ none) ∧
      ∀ t ∈ s₁.db.tokens, ∀ t' ∈ s₂.db.tokens, t'.id = t.id → ∀ r, t.revokedAt = some r →
        t'.revokedAt = some r := by
  have hinv : ∀ s e s', WellFormed s → Step b s e s' → WellFormed s' := fun _ _ _ h => h.step
  refine ⟨(hr.invariant hinv hs).live_le, fun secret => countP_exchanges_le hs hr, ?_⟩
  rintro es₁ e es₂ s₁ s₂ - hr₁ hst hr₂
  have hs₁ := hr₁.invariant hinv hs
  refine ⟨fun sid hk => ⟨fun secret hmint => ?_, fun t ht => hk.others hs₁ hst ht⟩, ?_, ?_⟩
  · exact (hk.dead hs₁ hst).run (hs₁.step hst) hr₂ hmint
  · exact fun secret err hop hout => refused_refresh hs₁ hst hop hout
  · exact fun t ht t' ht' hid r hrev => revokedAt_kept hs₁ hst ht ht' hid hrev

/-- A backend, and a state without tokens. -/
def sampleBackend : Backend where
  hashSecret := fun secret => "sha256:" ++ secret
  jwtEncode := fun claims => "jwt:" ++ claims.sub
  checkPassword := fun username password => if password == "mellon" then some username else none
  currentDatabase := "default"
  jwtAccessTokenLifetime := 900
  jwtRefreshTokenLifetime := 1209600

def sampleStart : Sys := ⟨⟨[], fun _ => ⟨true, none, [["totem.user.read"]]⟩⟩, 0, ∅⟩

/-- A login, the rotation of its pair, and a replay. -/
def sampleLogin : Call := ⟨.login "frodo" "mellon", 10, ⟨"t1", "s1", "c1", "j1"⟩⟩
def sampleRefresh : Call := ⟨.refresh "s1", 20, ⟨"t2", "s2", "c2", "j2"⟩⟩
def sampleReplay : Call := ⟨.refresh "s1", 30, ⟨"t3", "s3", "c3", "j3"⟩⟩

theorem fresh_sampleStart (d : Draw) : Fresh sampleBackend sampleStart d :=
  ⟨by simp [sampleStart], fun _ => id, fun _ => id⟩

theorem serial_runs_sample :
    (live "c1" (((sampleStart.advance sampleBackend sampleLogin).advance sampleBackend
      sampleRefresh).advance sampleBackend sampleReplay).db.tokens).length ≤ 1 :=
  (serial_runs (WellFormed.of_empty _ _)
    (.cons (step_advance (by decide) (fresh_sampleStart _))
      (.cons (step_advance (by decide) ((fresh_sampleStart _).advance (by decide)))
        (.cons (step_advance (by decide) (((fresh_sampleStart _).advance (by decide)).advance
          (by decide))) (.nil _))))).1 "c1"

end Totem.Authentication
