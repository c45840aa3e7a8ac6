import Mathlib.Data.List.Nodup

/-!
# Totem.Lib.Dict — dicts

A dict keeps its keys in the order of their insertion, each once; an assignment to a key that is there
replaces its value in place.  Two dicts are the same when `get` is: the order only shows in a loop.

* `get_set`, `mem_keys`, `mem_entries`: what is in a dict.
* `get_foldl_keys`: a loop of assignments of values by key; `get_foldl_set`: one of any assignments.
* `entries_foldl_set`, `entries_foldl_keys`: a loop of assignments to new keys.
* `get_updateWhere`: an update with some entries of another dict.
* `get_foldl_zipIdx`: a loop that assigns to the indexes of a list.
-/

namespace Totem.Lib

structure Dict (κ α : Type*) where
  entries : List (κ × α)
  nodup : (entries.map Prod.fst).Nodup

namespace Dict

variable {κ α β ι : Type*}

def empty : Dict κ α := ⟨[], List.nodup_nil⟩

/-- The keys, in their order. -/
def keys (d : Dict κ α) : List κ := d.entries.map Prod.fst

def isEmpty (d : Dict κ α) : Bool := d.entries.isEmpty

variable [DecidableEq κ]

def get (d : Dict κ α) (key : κ) : Option α := d.entries.lookup key

/-- `entries[key] = value`. -/
def assign (key : κ) (value : α) : List (κ × α) → List (κ × α)
  | [] => [(key, value)]
  | entry :: entries => if entry.1 = key then (key, value) :: entries else entry :: assign key value entries

theorem map_fst_assign (key : κ) (value : α) (entries : List (κ × α)) :
    (assign key value entries).map Prod.fst =
      if key ∈ entries.map Prod.fst then entries.map Prod.fst else entries.map Prod.fst ++ [key] := by
  induction entries with
  | nil => simp [assign]
  | cons entry entries ih =>
    unfold assign
    by_cases hkey : entry.1 = key
    · simp [hkey]
    · rw [if_neg hkey, List.map_cons, ih]
      by_cases hmem : key ∈ entries.map Prod.fst
      · have hcons : key ∈ (entry :: entries).map Prod.fst := List.mem_cons_of_mem _ hmem
        rw [if_pos hmem, if_pos hcons, List.map_cons]
      · have hnot : key ∉ (entry :: entries).map Prod.fst := by
          rw [List.map_cons, List.mem_cons, not_or]
          exact ⟨Ne.symm hkey, hmem⟩
        rw [if_neg hmem, if_neg hnot, List.map_cons, List.cons_append]

/-- `d[key] = value`. -/
def set (d : Dict κ α) (key : κ) (value : α) : Dict κ α where
  entries := assign key value d.entries
  nodup := by
    rw [map_fst_assign]
    split_ifs with hmem
    · exact d.nodup
    · exact List.Nodup.append d.nodup (List.nodup_singleton _) (by simpa using hmem)

variable {d : Dict κ α} {key k : κ} {value v : α}

/-! ## What is in a dict -/

@[simp] theorem get_empty : (empty : Dict κ α).get key = none := rfl

theorem lookup_cons (entry : κ × α) (entries : List (κ × α)) :
    (entry :: entries).lookup k = if k = entry.1 then some entry.2 else entries.lookup k := by
  rw [List.lookup_cons]
  by_cases hk : k = entry.1
  · simp [hk]
  · have hbeq : (k == entry.1) = false := by simp [hk]
    rw [hbeq, if_neg hk]

/-- Values by key, of some elements: the first element of a key decides. -/
theorem lookup_filterMap (f : ι → κ) (value : κ → Option α) (xs : List ι) :
    (xs.filterMap fun x => (value (f x)).map fun v => (f x, v)).lookup k =
      if k ∈ xs.map f then value k else none := by
  induction xs with
  | nil => rfl
  | cons x xs ih =>
    rw [List.filterMap_cons, List.map_cons]
    by_cases hk : k = f x
    · rw [if_pos (List.mem_cons.mpr (.inl hk))]
      cases hvalue : value (f x) with
      | none =>
        rw [Option.map_none, ih, hk, hvalue]
        exact ite_self none
      | some v => rw [Option.map_some, lookup_cons, if_pos hk, hk, hvalue]
    · have hmem : k ∈ f x :: xs.map f ↔ k ∈ xs.map f := by rw [List.mem_cons, or_iff_right hk]
      simp only [hmem]
      cases value (f x) with
      | none => rw [Option.map_none, ih]
      | some v => rw [Option.map_some, lookup_cons, if_neg hk, ih]

theorem lookup_assign (entries : List (κ × α)) :
    (assign key value entries).lookup k = if k = key then some value else entries.lookup k := by
  induction entries with
  | nil => rw [assign, lookup_cons]
  | cons entry entries ih =>
    unfold assign
    split_ifs with hkey hk hk
    · rw [lookup_cons, if_pos hk]
    · rw [lookup_cons, if_neg hk, lookup_cons, if_neg fun heq => hk (heq.trans hkey)]
    · rw [lookup_cons, ih, if_pos hk, if_neg fun heq => hkey (heq.symm.trans hk)]
    · rw [lookup_cons, lookup_cons, ih, if_neg hk]

theorem get_set : (d.set key value).get k = if k = key then some value else d.get k := lookup_assign _

theorem assign_assign (entries : List (κ × α)) : assign key v (assign key value entries) = assign key v entries := by
  induction entries with
  | nil => simp [assign]
  | cons entry entries ih =>
    by_cases hkey : entry.1 = key
    · simp [assign, hkey]
    · simp [assign, hkey, ih]

omit [DecidableEq κ] in
theorem ext_entries {d' : Dict κ α} (h : d.entries = d'.entries) : d = d' := by
  cases d
  cases d'
  cases h
  rfl

/-- The second assignment to a key replaces the first. -/
theorem set_set : (d.set key value).set key v = d.set key v := ext_entries (assign_assign _)

theorem lookup_eq_some {entries : List (κ × α)} (h : (entries.map Prod.fst).Nodup) :
    entries.lookup k = some v ↔ (k, v) ∈ entries := by
  induction entries with
  | nil => simp
  | cons entry entries ih =>
    rw [List.map_cons, List.nodup_cons] at h
    rw [lookup_cons, List.mem_cons]
    split_ifs with hk
    · subst hk
      have hnot : (entry.1, v) ∉ entries := fun hmem => h.1 (List.mem_map.mpr ⟨_, hmem, rfl⟩)
      simp only [hnot, or_false, Option.some.injEq]
      constructor
      · rintro rfl
        rfl
      · intro heq
        rw [← heq]
    · have hne : (k, v) ≠ entry := fun heq => hk (congrArg Prod.fst heq)
      simp only [hne, false_or]
      exact ih h.2

theorem mem_entries : (k, v) ∈ d.entries ↔ d.get k = some v := (lookup_eq_some d.nodup).symm

theorem mem_keys : k ∈ d.keys ↔ ∃ v, d.get k = some v := by
  unfold keys
  rw [List.mem_map]
  constructor
  · rintro ⟨entry, hentry, rfl⟩
    exact ⟨entry.2, mem_entries.mp hentry⟩
  · rintro ⟨v, hv⟩
    exact ⟨(k, v), mem_entries.mpr hv, rfl⟩

theorem get_eq_none_of_notMem (h : k ∉ d.keys) : d.get k = none := by
  cases hget : d.get k with
  | none => rfl
  | some v => exact absurd (mem_keys.mpr ⟨v, hget⟩) h

theorem isEmpty_iff : d.isEmpty = true ↔ ∀ k, d.get k = none := by
  unfold isEmpty
  rw [List.isEmpty_iff]
  constructor
  · intro h k
    unfold get
    rw [h]
    rfl
  · intro h
    refine List.eq_nil_iff_forall_not_mem.mpr fun entry hentry => ?_
    have hget := mem_entries.mp hentry
    rw [h] at hget
    cases hget

theorem entries_set (h : d.get key = none) : (d.set key value).entries = d.entries ++ [(key, value)] := by
  have hassign : ∀ entries : List (κ × α), entries.lookup key = none →
      assign key value entries = entries ++ [(key, value)] := by
    intro entries
    induction entries with
    | nil => exact fun _ => rfl
    | cons entry entries ih =>
      intro hlookup
      rw [lookup_cons] at hlookup
      split_ifs at hlookup with hk
      rw [assign, if_neg (Ne.symm hk), ih hlookup, List.cons_append]
  exact hassign d.entries h

/-- `d.pop(key, None)`. -/
def pop (d : Dict κ α) (key : κ) : Dict κ α where
  entries := d.entries.filter fun entry => decide (entry.1 ≠ key)
  nodup := d.nodup.sublist (List.filter_sublist.map _)

theorem get_pop : (d.pop key).get k = if k = key then none else d.get k := by
  refine Option.ext fun v => ?_
  rw [← mem_entries]
  show (k, v) ∈ d.entries.filter (fun entry => decide (entry.1 ≠ key)) ↔ _
  rw [List.mem_filter, decide_eq_true_iff, mem_entries]
  split_ifs with hk
  · exact iff_of_false (fun h => h.2 hk) nofun
  · exact and_iff_left hk

/-! ## A loop of assignments -/

/-- A loop that assigns what `f` gives for some keys. -/
theorem get_foldl_keys (f : κ → Option α) (names : List κ) (k : κ) :
    (names.foldl (fun d name => (((f name).map fun v => (name, v)).map fun e => d.set e.1 e.2).getD d) empty).get k =
      if k ∈ names then f k else none := by
  have hfold : ∀ d : Dict κ α, (names.foldl (fun d name => (((f name).map fun v => (name, v)).map
      fun e => d.set e.1 e.2).getD d) d).get k = if k ∈ names then (f k).or (d.get k) else d.get k := by
    induction names with
    | nil => simp
    | cons name names ih =>
      intro d
      rw [List.foldl_cons, ih]
      by_cases hk : k = name
      · subst hk
        cases f k with
        | none => simp
        | some v => simp [get_set]
      · cases f name with
        | none => simp [hk]
        | some v => simp [hk, get_set]
  rw [hfold, get_empty, Option.or_none]

/-- A loop that assigns to keys that are not there, each once: the entries are added at the end. -/
theorem entries_foldl_set (f : ι → Option (κ × α)) (xs : List ι) (d : Dict κ α)
    (hnodup : ((xs.filterMap f).map Prod.fst).Nodup) (hnew : ∀ e ∈ xs.filterMap f, d.get e.1 = none) :
    (xs.foldl (fun d x => ((f x).map fun e => d.set e.1 e.2).getD d) d).entries = d.entries ++ xs.filterMap f := by
  induction xs generalizing d with
  | nil => simp
  | cons x xs ih =>
    rw [List.filterMap_cons] at hnodup hnew
    rw [List.foldl_cons, List.filterMap_cons]
    cases hx : f x with
    | none =>
      rw [hx] at hnodup hnew
      exact ih d hnodup hnew
    | some e =>
      rw [hx] at hnodup hnew
      rw [List.map_cons, List.nodup_cons] at hnodup
      have hrest : ∀ e' ∈ xs.filterMap f, (d.set e.1 e.2).get e'.1 = none := by
        intro e' he'
        have hne : e'.1 ≠ e.1 := fun heq => hnodup.1 (heq ▸ List.mem_map_of_mem he')
        rw [get_set, if_neg hne]
        exact hnew e' (List.mem_cons_of_mem _ he')
      show (xs.foldl _ (d.set e.1 e.2)).entries = d.entries ++ e :: xs.filterMap f
      rw [ih _ hnodup.2 hrest, entries_set (hnew e List.mem_cons_self), List.append_assoc, List.singleton_append]

omit [DecidableEq κ] in
theorem map_fst_filterMap (key : ι → κ) (f : ι → Option α) (xs : List ι) :
    (xs.filterMap fun x => (f x).map fun v => (key x, v)).map Prod.fst = (xs.filter fun x => (f x).isSome).map key := by
  induction xs with
  | nil => rfl
  | cons x xs ih =>
    rw [List.filterMap_cons, List.filter_cons]
    cases f x with
    | none => exact ih
    | some v => exact congrArg (key x :: ·) ih

/-- A loop that may fail ends if each of its values is there. -/
theorem isSome_foldlM_set (key : ι → κ) (f : ι → Option α) (xs : List ι) (d : Dict κ α) :
    (xs.foldlM (fun d x => (f x).map fun v => d.set (key x) v) d).isSome ↔ ∀ x ∈ xs, (f x).isSome := by
  induction xs generalizing d with
  | nil => simp
  | cons x xs ih =>
    rw [List.foldlM_cons, List.forall_mem_cons]
    cases f x with
    | none => simp
    | some v => simpa using ih (d.set (key x) v)

/-- A loop that may fail, over elements with keys of their own. -/
theorem get_foldlM_set (key : ι → κ) (f : ι → Option α) {xs : List ι} {d d' : Dict κ α}
    (h : xs.foldlM (fun d x => (f x).map fun v => d.set (key x) v) d = some d') (hnodup : (xs.map key).Nodup) :
    (∀ x ∈ xs, d'.get (key x) = f x) ∧ ∀ k ∉ xs.map key, d'.get k = d.get k := by
  induction xs generalizing d with
  | nil =>
    obtain rfl := Option.some.inj h
    exact ⟨fun x hx => (List.not_mem_nil hx).elim, fun k _ => rfl⟩
  | cons x xs ih =>
    rw [List.map_cons, List.nodup_cons] at hnodup
    rw [List.foldlM_cons] at h
    obtain ⟨d₁, hd₁, h⟩ := Option.bind_eq_some_iff.mp h
    obtain ⟨v, hv, rfl⟩ := Option.map_eq_some_iff.mp hd₁
    obtain ⟨hset, hkept⟩ := ih h hnodup.2
    refine ⟨List.forall_mem_cons.mpr ⟨?_, hset⟩, fun k hk => ?_⟩
    · rw [hkept _ hnodup.1, get_set, if_pos rfl, hv]
    · rw [List.map_cons, List.mem_cons, not_or] at hk
      rw [hkept k hk.2, get_set, if_neg hk.1]

/-- A loop over elements with keys of their own. -/
theorem entries_foldl_keys (key : ι → κ) (f : ι → Option α) (xs : List ι) (h : (xs.map key).Nodup) :
    (xs.foldl (fun d x => (((f x).map fun v => (key x, v)).map fun e => d.set e.1 e.2).getD d) empty).entries =
      xs.filterMap fun x => (f x).map fun v => (key x, v) := by
  rw [entries_foldl_set]
  · rfl
  · rw [map_fst_filterMap]
    exact h.sublist (List.filter_sublist.map key)
  · exact fun _ _ => rfl

/-- A loop over the values of a dict by their keys. -/
theorem filterMap_keys (d : Dict κ α) (f : κ → α → Option β) :
    (d.keys.filterMap fun key => (d.get key).bind (f key)) = d.entries.filterMap fun entry => f entry.1 entry.2 := by
  unfold keys
  rw [List.filterMap_map]
  refine List.filterMap_congr fun entry hentry => ?_
  have hget := mem_entries.mp hentry
  show (d.get entry.1).bind (f entry.1) = _
  rw [hget, Option.bind_some]

/-- `base.update({key: value for key, value in d.items() if p(key)})`. -/
def updateWhere (base d : Dict κ α) (p : κ → Bool) : Dict κ α :=
  d.entries.foldl (fun acc entry => if p entry.1 then acc.set entry.1 entry.2 else acc) base

theorem get_updateWhere (base d : Dict κ α) (p : κ → Bool) (k : κ) :
    (base.updateWhere d p).get k = if p k = true then (d.get k).or (base.get k) else base.get k := by
  have hfold : ∀ (entries : List (κ × α)) (acc : Dict κ α), (entries.map Prod.fst).Nodup →
      (entries.foldl (fun acc entry => if p entry.1 then acc.set entry.1 entry.2 else acc) acc).get k =
        if p k = true then (entries.lookup k).or (acc.get k) else acc.get k := by
    intro entries
    induction entries with
    | nil => simp
    | cons entry entries ih =>
      intro acc hnodup
      rw [List.map_cons, List.nodup_cons] at hnodup
      rw [List.foldl_cons, ih _ hnodup.2, lookup_cons]
      by_cases hk : k = entry.1
      · subst hk
        have hnone : entries.lookup entry.1 = none := by
          rw [List.lookup_eq_none_iff]
          intro e he
          have hne : entry.1 ≠ e.1 := fun heq => hnodup.1 (heq ▸ List.mem_map_of_mem he)
          simpa using hne
        by_cases hp : p entry.1 = true
        · simp [hp, hnone, get_set]
        · simp [hp]
      · by_cases hp : p entry.1 = true
        · simp [hp, hk, get_set]
        · simp [hp, hk]
  exact hfold d.entries base d.nodup

theorem of_findRev? {p : ι → Bool} {xs : List ι} {x : ι} (h : xs.findRev? p = some x) : x ∈ xs ∧ p x = true := by
  rw [List.findRev?_eq_find?_reverse] at h
  exact ⟨List.mem_reverse.1 (List.mem_of_find?_eq_some h), List.find?_some h⟩

theorem findRev?_eq_none_iff {p : ι → Bool} {xs : List ι} : xs.findRev? p = none ↔ ∀ x ∈ xs, p x = false := by
  rw [List.findRev?_eq_find?_reverse, List.find?_eq_none]
  simp only [List.mem_reverse, Bool.not_eq_true]

theorem findRev?_entries : (d.entries.findRev? fun e => decide (e.1 = k)).map Prod.snd = d.get k := by
  cases hfound : d.entries.findRev? fun e => decide (e.1 = k) with
  | some e =>
    obtain ⟨hmem, hkey⟩ := of_findRev? hfound
    obtain rfl : e.1 = k := of_decide_eq_true hkey
    exact (mem_entries.mp hmem).symm
  | none =>
    refine (Option.eq_none_iff_forall_ne_some.mpr fun v hv => ?_).symm
    have hfalse := findRev?_eq_none_iff.mp hfound _ (mem_entries.mpr hv)
    exact Bool.eq_false_iff.mp hfalse (decide_eq_true rfl)

/-- A loop of assignments: the last one to a key decides. -/
theorem get_foldl_set (f : ι → κ) (value : ι → α) (xs : List ι) (d : Dict κ α) (k : κ) :
    (xs.foldl (fun d x => d.set (f x) (value x)) d).get k =
      ((xs.findRev? fun x => decide (f x = k)).map value).or (d.get k) := by
  induction xs generalizing d with
  | nil => rfl
  | cons x xs ih =>
    rw [List.foldl_cons, ih, get_set, List.findRev?]
    cases xs.findRev? fun x => decide (f x = k) with
    | some y => rfl
    | none =>
      by_cases hx : k = f x
      · simp [hx]
      · simp [hx, Ne.symm hx]

/-- A loop over the elements of a list with their indexes. -/
theorem get_foldl_zipIdx (f : ι → Option α) (xs : List ι) (start : ℕ) (d : Dict ℕ α) (i : ℕ) :
    ((xs.zipIdx start).foldl (fun d x => (((f x.1).map fun v => (x.2, v)).map fun e => d.set e.1 e.2).getD d) d).get i =
      if start ≤ i then ((xs[i - start]?).bind f).or (d.get i) else d.get i := by
  induction xs generalizing start d with
  | nil => simp
  | cons x xs ih =>
    rw [List.zipIdx_cons, List.foldl_cons, ih]
    have hget : ((((f x).map fun v => (start, v)).map fun e => d.set e.1 e.2).getD d).get i =
        if i = start then (f x).or (d.get i) else d.get i := by
      cases f x with
      | none => simp
      | some v => simp [get_set]
    rw [hget]
    obtain hlt | rfl | hgt := Nat.lt_trichotomy i start
    · rw [if_neg (by omega), if_neg (by omega), if_neg (by omega)]
    · rw [if_neg (by omega), if_pos rfl, if_pos (Nat.le_refl _), Nat.sub_self, List.getElem?_cons_zero,
        Option.bind_some]
    · have hsub : i - start = i - (start + 1) + 1 := by omega
      rw [if_pos (by omega), if_neg (by omega), if_pos (by omega), hsub, List.getElem?_cons_succ]

end Dict

end Totem.Lib
