import Totem.Tenancy.Database
import Mathlib.Data.Int.Notation

/-!
# Totem.Tenancy.Cache — the cache keys of the tenants

`makeCacheKey` puts the database of the unit of work between the prefix and the version.  The key itself may
hold the separator; what comes before it is decoded from the left (`make_cache_key_injective`).
-/

namespace Totem.Tenancy

variable {S : Settings} {C : Type*}

/-- `make_cache_key`. -/
def makeCacheKey (s : State S C) (key keyPrefix : String) (version : ℤ) : String :=
  keyPrefix ++ ":" ++ s.currentDatabase ++ ":" ++ toString version ++ ":" ++ key

theorem colon_not_mem_name {name : String} (h : matchesName name = true) : ':' ∉ name.toList := by
  intro hmem
  rcases mem_of_matchesName h hmem with h | h
  · exact absurd h (by decide)
  · exact absurd h (by decide)

/-- The decimal digits of a version, with its sign. -/
theorem toList_toString (version : ℤ) : (toString version).toList =
    match version with
    | .ofNat n => Nat.toDigits 10 n
    | .negSucc n => '-' :: Nat.toDigits 10 (n + 1) := by
  cases version with
  | ofNat n => exact Nat.toList_repr
  | negSucc n =>
    show ("-" ++ Nat.repr (n + 1)).toList = _
    rw [String.toList_append, Nat.toList_repr]
    rfl

theorem not_mem_toDigits {c : Char} (hc : c.isDigit = false) (n : ℕ) : c ∉ Nat.toDigits 10 n := by
  intro hmem
  rw [Nat.isDigit_of_mem_toDigits (by decide) (by decide) hmem] at hc
  cases hc

theorem colon_not_mem_version (version : ℤ) : ':' ∉ (toString version).toList := by
  rw [toList_toString]
  cases version with
  | ofNat n => exact not_mem_toDigits rfl n
  | negSucc n =>
    show ':' ∉ '-' :: Nat.toDigits 10 (n + 1)
    rw [List.mem_cons, not_or]
    exact ⟨by decide, not_mem_toDigits rfl _⟩

theorem toDigits_injective {m n : ℕ} (h : Nat.toDigits 10 m = Nat.toDigits 10 n) : m = n := by
  have hvalue := congrArg (fun digits => Nat.ofDigitChars 10 digits 0) h
  simpa [Nat.ofDigitChars_toDigits] using hvalue

theorem toString_injective {v w : ℤ} (h : (toString v).toList = (toString w).toList) : v = w := by
  have hminus : ∀ m n : ℕ, Nat.toDigits 10 m ≠ '-' :: Nat.toDigits 10 n := by
    intro m n heq
    have hmem : '-' ∈ Nat.toDigits 10 m := heq ▸ List.mem_cons_self
    exact not_mem_toDigits rfl m hmem
  rw [toList_toString, toList_toString] at h
  cases v with
  | ofNat m =>
    cases w with
    | ofNat n => rw [toDigits_injective h]
    | negSucc n => exact absurd h (hminus m _)
  | negSucc m =>
    cases w with
    | ofNat n => exact absurd h.symm (hminus n _)
    | negSucc n => rw [Nat.succ.inj (toDigits_injective (List.cons.inj h).2)]

/-- The first part before a separator. -/
theorem cut {xs xs' ys ys' : List Char} (hxs : ':' ∉ xs) (hxs' : ':' ∉ xs')
    (h : xs ++ ':' :: ys = xs' ++ ':' :: ys') : xs = xs' ∧ ys = ys' := by
  induction xs generalizing xs' with
  | nil =>
    cases xs' with
    | nil => exact ⟨rfl, (List.cons.inj h).2⟩
    | cons x xs' => exact absurd ((List.cons.inj h).1 ▸ List.mem_cons_self) hxs'
  | cons x xs ih =>
    cases xs' with
    | nil => exact absurd ((List.cons.inj h).1 ▸ List.mem_cons_self) hxs
    | cons x' xs' =>
      obtain ⟨rfl, htail⟩ := List.cons.inj h
      obtain ⟨hx, hy⟩ := ih (fun hx => hxs (List.mem_cons_of_mem _ hx))
        (fun hx => hxs' (List.mem_cons_of_mem _ hx)) htail
      exact ⟨congrArg _ hx, hy⟩

/-- **Cache isolation.**  Under one prefix, and with names that `validate_database_name` accepts, equal cache
keys are those of the same database, the same version and the same key. -/
theorem make_cache_key_injective {s s' : State S C} {db db' : S.DatabaseName}
    (hs : s.validateDatabaseName s.currentDatabase = .ok db)
    (hs' : s'.validateDatabaseName s'.currentDatabase = .ok db')
    {keyPrefix key key' : String} {version version' : ℤ}
    (h : makeCacheKey s key keyPrefix version = makeCacheKey s' key' keyPrefix version') :
    s.currentDatabase = s'.currentDatabase ∧ version = version' ∧ key = key' := by
  have hname : ∀ {t : State S C} {db : S.DatabaseName},
      t.validateDatabaseName t.currentDatabase = .ok db → ':' ∉ t.currentDatabase.toList := by
    intro t db ht
    rw [validateDatabaseName_eq] at ht
    split_ifs at ht with haccepts
    exact colon_not_mem_name haccepts.1
  have hlist : keyPrefix.toList ++ ':' :: (s.currentDatabase.toList ++ ':' ::
        ((toString version).toList ++ ':' :: key.toList)) =
      keyPrefix.toList ++ ':' :: (s'.currentDatabase.toList ++ ':' ::
        ((toString version').toList ++ ':' :: key'.toList)) := by
    have htoList := congrArg String.toList h
    simpa [makeCacheKey] using htoList
  have htail := (List.cons.inj (List.append_cancel_left hlist)).2
  obtain ⟨hdb, htail⟩ := cut (hname hs) (hname hs') htail
  obtain ⟨hversion, hkey⟩ := cut (colon_not_mem_version version) (colon_not_mem_version version') htail
  exact ⟨String.toList_inj.mp hdb, toString_injective hversion, String.toList_inj.mp hkey⟩

section Sample

/-- Two units of work on one tenant, in the first of which the database was not used yet. -/
def acme : Settings.DatabaseName ⟨"totem", []⟩ := ⟨"acme", by decide +kernel⟩

def first : State ⟨"totem", []⟩ ℕ := ⟨some acme, [], fun _ => none, 0⟩

def second : State ⟨"totem", []⟩ ℕ := ⟨some acme, [acme], fun _ => some 0, 5⟩

theorem make_cache_key_injective_sample :
    makeCacheKey first "menu:1" "totem" (-1) = "totem:acme:-1:menu:1" ∧
      first.currentDatabase = second.currentDatabase ∧ (-1 : ℤ) = -1 ∧ "menu:1" = "menu:1" := by
  have haccepts : Settings.Accepts ⟨"totem", []⟩ "acme" := acme.2
  have hfirst : first.validateDatabaseName first.currentDatabase = .ok acme :=
    validateDatabaseName_eq.trans (dif_pos haccepts)
  have hsecond : second.validateDatabaseName second.currentDatabase = .ok acme :=
    validateDatabaseName_eq.trans (dif_pos haccepts)
  have heq : makeCacheKey first "menu:1" "totem" (-1) = makeCacheKey second "menu:1" "totem" (-1) := rfl
  exact ⟨by decide +kernel, make_cache_key_injective hfirst hsecond heq⟩

end Sample

end Totem.Tenancy
