import Totem.Computed.Dependency

/-!
# Totem.Computed.Paths — the bindings of the relations a dependency crosses

The registry in terms of the paths of `depends_on`, whatever merged the bindings.

* `Schema.Crosses.watches`: the loop of `_parse_dependency` reads what a dependency crosses.
* `existence_iff`: the rows whose appearance is watched are those the relations lead to.
* `membership_iff`: the fields that move a row between roots are those crossed backwards.
-/

namespace Totem.Computed

open Totem.Lib

section Paths

variable {M N K V : Type*} [DecidableEq M] [DecidableEq N] {S : Schema M N K V} {reg : Registry M N}
variable {root : M × N} {m : M} {n : N} {dep rest : List N} {path : List (Hop M N)} {ws : List (Binding M N)}
variable {w b : Binding M N} {left : ℕ}

/-- A relation crossed adds its watches, and those of what is left. -/
theorem watches_hop {name : N} {l : Lookup M N K V} {h : Hop M N} (hl : S.getField m name = some l)
    (hhop : l.hop = some h) (hws : watches S root dep left m path (name :: rest) = .ok ws) :
    ∃ left' ws', watches S root dep left' h.target (path ++ [h]) rest = .ok ws' ∧
      ws = hopWatches root m path l h ++ ws' := by
  unfold watches at hws
  simp only [hl, hhop] at hws
  cases left with
  | zero => cases hws
  | succ left =>
    obtain ⟨ws', hws', hws⟩ := bind_eq_ok.mp hws
    exact ⟨left, ws', hws', (Except.ok.inj hws).symm⟩

/-- A column is the end of a dependency. -/
theorem watches_column {name : N} {l : Lookup M N K V} (hl : S.getField m name = some l) (hhop : l.hop = none)
    (hws : watches S root dep left m path (name :: rest) = .ok ws) :
    rest = [] ∧ ws = [⟨root, m, path, l.field.names, ∅, false, none⟩] := by
  unfold watches at hws
  simp only [hl, hhop] at hws
  split_ifs at hws with hrest
  exact ⟨not_not.mp hrest, (Except.ok.inj hws).symm⟩

/-- **A dependency that is read** is read as far as it crosses relations. -/
theorem Schema.Crosses.watches (h : S.Crosses root.1 dep path m rest)
    (hws : watches S root dep S.maxHops root.1 [] dep = .ok ws) :
    ∃ left ws', Computed.watches S root dep left m path rest = .ok ws' ∧ ws' ⊆ ws := by
  induction h with
  | start => exact ⟨S.maxHops, ws, hws, fun _ hw => hw⟩
  | hop _ hl hhop ih =>
    obtain ⟨left, ws', hws', hsub⟩ := ih
    obtain ⟨left', ws'', hws'', rfl⟩ := watches_hop hl hhop hws'
    exact ⟨left', ws'', hws'', fun w hw => hsub (List.mem_append_right _ hw)⟩

/-- Where a column is met, the dependency ends. -/
theorem Schema.Crosses.endsOn (hb : build S = .ok reg) {deps : List (List N)} (hdeps : (root.2, deps) ∈ S.stored root.1)
    (hdep : dep ∈ deps) {name : N} (h : S.Crosses root.1 dep path m (name :: rest)) {l : Lookup M N K V}
    (hl : S.getField m name = some l) (hhop : l.hop = none) : S.EndsOn root path m l.field := by
  obtain ⟨ws, hws, -⟩ := build_has hb hdeps dep hdep
  obtain ⟨left, ws', hws', -⟩ := h.watches hws
  obtain ⟨rfl, -⟩ := watches_column hl hhop hws'
  cases l with
  | reverse m' f => cases hhop
  | own f => exact ⟨deps, hdeps, dep, hdep, name, h, hl, Option.map_eq_none_iff.mp hhop⟩

/-- The watches of the relations crossed, and of the column at the end. -/
inductive Schema.Watches (S : Schema M N K V) (root : M × N) (dep : List N) : Binding M N → Prop
  | hop {path : List (Hop M N)} {m : M} {name : N} {rest : List N} {l : Lookup M N K V} {h : Hop M N}
      {w : Binding M N} (hx : S.Crosses root.1 dep path m (name :: rest)) (hl : S.getField m name = some l)
      (hhop : l.hop = some h) (hw : w ∈ hopWatches root m path l h) : S.Watches root dep w
  | column {path : List (Hop M N)} {m : M} {name : N} {l : Lookup M N K V} {w : Binding M N}
      (hx : S.Crosses root.1 dep path m [name]) (hl : S.getField m name = some l) (hhop : l.hop = none)
      (hw : w = ⟨root, m, path, l.field.names, ∅, false, none⟩) : S.Watches root dep w

theorem watches_sound (hx : S.Crosses root.1 dep path m rest) (hws : watches S root dep left m path rest = .ok ws) :
    ∀ w ∈ ws, S.Watches root dep w := by
  induction rest generalizing left m path ws with
  | nil =>
    obtain rfl : [] = ws := by simpa [watches] using hws
    exact fun w hw => absurd hw List.not_mem_nil
  | cons name rest ih =>
    intro w hw
    cases hl : S.getField m name with
    | none =>
      unfold watches at hws
      rw [hl] at hws
      cases hws
    | some l =>
      cases hhop : l.hop with
      | none =>
        obtain ⟨rfl, rfl⟩ := watches_column hl hhop hws
        obtain rfl := List.mem_singleton.mp hw
        exact .column hx hl hhop rfl
      | some h =>
        obtain ⟨left', ws', hws', rfl⟩ := watches_hop hl hhop hws
        rcases List.mem_append.mp hw with hw | hw
        · exact .hop hx hl hhop hw
        · exact ih (hx.hop hl hhop) hws' w hw

theorem Schema.Watches.mem (h : S.Watches root dep w) (hws : watches S root dep S.maxHops root.1 [] dep = .ok ws) :
    w ∈ ws := by
  cases h with
  | hop hx hl hhop hw =>
    obtain ⟨left, ws', hws', hsub⟩ := hx.watches hws
    obtain ⟨left', ws'', -, rfl⟩ := watches_hop hl hhop hws'
    exact hsub (List.mem_append_left _ hw)
  | column hx hl hhop hw =>
    obtain ⟨left, ws', hws', hsub⟩ := hx.watches hws
    obtain ⟨-, rfl⟩ := watches_column hl hhop hws'
    exact hsub (List.mem_singleton.mpr hw)

/-- A watch of some dependency of the stored field `root`. -/
def Schema.IsWatch (S : Schema M N K V) (root : M × N) (w : Binding M N) : Prop :=
  ∃ deps, (root.2, deps) ∈ S.stored root.1 ∧ ∃ dep ∈ deps, S.Watches root dep w

theorem Schema.IsWatch.has (hb : build S = .ok reg) (h : S.IsWatch root w) : Has reg.bindings w := by
  obtain ⟨deps, hdeps, dep, hdep, hw⟩ := h
  obtain ⟨ws, hws, hhas⟩ := build_has hb hdeps dep hdep
  exact hhas w (hw.mem hws)

/-- What a binding watches, a watch with its key does. -/
structure Binding.Sourced (S : Schema M N K V) (b : Binding M N) : Prop where
  existence : b.onExistence = true → ∃ w, S.IsWatch b.field w ∧ b.SameKey w ∧ w.onExistence = true
  membership : ∀ n ∈ b.membership, ∃ w, S.IsWatch b.field w ∧ b.SameKey w ∧ n ∈ w.membership

theorem Binding.Sourced.union {c : Binding M N} (hb : b.Sourced S) (hc : c.Sourced S) (hkey : b.SameKey c) :
    (b.union c).Sourced S where
  existence h := by
    rcases (Bool.or_eq_true _ _).mp h with h | h
    · exact hb.existence h
    · obtain ⟨w, hw, hsame, hex⟩ := hc.existence h
      exact ⟨w, hkey.1 ▸ hw, hkey.trans hsame, hex⟩
  membership n hn := by
    rcases Finset.mem_union.mp hn with hn | hn
    · exact hb.membership n hn
    · obtain ⟨w, hw, hsame, hmem⟩ := hc.membership n hn
      exact ⟨w, hkey.1 ▸ hw, hkey.trans hsame, hmem⟩

theorem build_sourced (hb : build S = .ok reg) : ∀ b ∈ reg.bindings, b.Sourced S := by
  have hmerge : ∀ bs : List (Binding M N), (∀ b ∈ bs, b.Sourced S) → ∀ b ∈ merge bs, b.Sourced S := fun _ =>
    merge_induct fun _ _ hb hc hkey => hb.union hc hkey
  refine build_induct hmerge (fun root deps hroot dep hdep ws hws => hmerge ws fun w hw => ?_) hb
  obtain ⟨m', -, hm'⟩ := List.mem_flatMap.mp hroot
  obtain ⟨x, hx, heq⟩ := List.mem_map.mp hm'
  obtain ⟨rfl, rfl⟩ := Prod.mk.inj heq
  have hwatch : S.IsWatch w.field w := by
    rw [(watches_sane hws w hw).1]
    exact ⟨x.2, hx, dep, hdep, watches_sound .start hws w hw⟩
  exact ⟨fun h => ⟨w, hwatch, .refl w, h⟩, fun n hn => ⟨w, hwatch, .refl w, hn⟩⟩

/-! ## The rows that are watched -/

omit [DecidableEq M] in
/-- Of the watches of one relation, the one of the rows it leads to. -/
theorem hopWatches_existence {l : Lookup M N K V} {h : Hop M N} (hhop : l.hop = some h)
    (hw : w ∈ hopWatches root m path l h) (hex : w.onExistence = true) :
    w.field = root ∧ w.watched = h.target ∧ w.path = path ++ [h] := by
  cases l with
  | own f =>
    simp only [hopWatches, List.mem_cons, List.not_mem_nil, or_false] at hw
    rcases hw with rfl | rfl
    · cases hex
    · exact ⟨rfl, rfl, rfl⟩
  | reverse m' f =>
    obtain rfl := Option.some.inj hhop
    obtain rfl := List.mem_singleton.mp hw
    exact ⟨rfl, rfl, rfl⟩

/-- **The rows whose appearance is watched** are those at the end of the relations crossed. -/
theorem existence_iff (hb : build S = .ok reg) {f : M × N} :
    (∃ b ∈ reg.bindings, b.field = f ∧ b.watched = m ∧ b.path = path ∧ b.onExistence = true) ↔
      path ≠ [] ∧ S.Crossed f path m := by
  constructor
  · rintro ⟨b, hmem, rfl, rfl, rfl, hex⟩
    obtain ⟨w, ⟨deps, hdeps, dep, hdep, hw⟩, ⟨-, hwatched, hpath⟩, hex⟩ := (build_sourced hb b hmem).existence hex
    rw [hwatched, hpath]
    cases hw with
    | hop hx hl hhop hw =>
      obtain ⟨-, hwatched, hpath⟩ := hopWatches_existence hhop hw hex
      rw [hwatched, hpath]
      exact ⟨List.append_ne_nil_of_right_ne_nil _ (List.cons_ne_nil _ []), deps, hdeps, dep, hdep, _,
        hx.hop hl hhop⟩
    | column _ _ _ hw =>
      rw [hw] at hex
      cases hex
  · rintro ⟨hne, deps, hdeps, dep, hdep, rest, hx⟩
    cases hx with
    | start => exact absurd rfl hne
    | hop hx hl hhop =>
      obtain ⟨w, hw, hex, hfield', hwatched, hpath⟩ := exists_hopWatch hhop
      obtain ⟨b, hmem, hincl⟩ := Schema.IsWatch.has hb ⟨deps, hdeps, dep, hdep, .hop hx hl hhop hw⟩
      obtain ⟨hfield, hwatched', hpath'⟩ := hincl.key
      exact ⟨b, hmem, hfield.trans hfield', hwatched'.trans hwatched, hpath'.trans hpath, hincl.onExistence hex⟩

/-- The path ends on a relation of `m` that is crossed backwards, and written under the name `n`. -/
def Schema.CrossesBack (S : Schema M N K V) (path : List (Hop M N)) (m : M) (n : N) : Prop :=
  ∃ before f, f ∈ S.fields m ∧ path = before ++ [.reverse f.isKey m f.name] ∧ n ∈ f.names

omit [DecidableEq M] in
theorem Schema.CrossesBack.ne_nil (h : S.CrossesBack path m n) : path ≠ [] := by
  obtain ⟨before, f, -, rfl, -⟩ := h
  exact List.append_ne_nil_of_right_ne_nil _ (List.cons_ne_nil _ [])

/-- **The fields that move a row between roots** are those crossed backwards. -/
theorem membership_iff (hb : build S = .ok reg) {f : M × N} :
    (∃ b ∈ reg.bindings, b.field = f ∧ b.watched = m ∧ b.path = path ∧ n ∈ b.triggers ∧ n ∈ b.membership) ↔
      S.Crossed f path m ∧ S.CrossesBack path m n := by
  constructor
  · rintro ⟨b, hmem, rfl, rfl, rfl, -, hn⟩
    obtain ⟨w, ⟨deps, hdeps, dep, hdep, hw⟩, ⟨-, hwatched, hpath⟩, hn⟩ := (build_sourced hb b hmem).membership n hn
    rw [hwatched, hpath]
    cases hw with
    | @hop path m name rest l h _ hx hl hhop hw =>
      cases l with
      | own g =>
        simp only [hopWatches, List.mem_cons, List.not_mem_nil, or_false] at hw
        rcases hw with rfl | rfl <;> exact absurd hn (Finset.notMem_empty n)
      | reverse m' g =>
        obtain ⟨hg, -⟩ := S.getField_mem hl
        obtain rfl := Option.some.inj hhop
        obtain rfl := List.mem_singleton.mp hw
        exact ⟨⟨deps, hdeps, dep, hdep, rest, hx.hop hl hhop⟩, path, g, hg, rfl, hn⟩
    | column _ _ _ hw =>
      rw [hw] at hn
      exact absurd hn (Finset.notMem_empty n)
  · rintro ⟨⟨deps, hdeps, dep, hdep, rest, hx⟩, before, g, hg, hpath, hn⟩
    cases hx with
    | start => exact absurd hpath.symm (List.append_ne_nil_of_right_ne_nil _ (List.cons_ne_nil _ []))
    | @hop path m' name _ l h hx hl hhop =>
      obtain ⟨rfl, hlast⟩ := List.append_inj' hpath rfl
      rw [List.singleton_inj] at hlast
      rw [hlast] at hhop
      cases l with
      | own g' =>
        obtain ⟨_, -, hhop⟩ := Option.map_eq_some_iff.mp hhop
        cases hhop
      | reverse m'' g' =>
        obtain ⟨hg', -⟩ := S.getField_mem hl
        obtain ⟨-, rfl, hname⟩ : g'.isKey = g.isKey ∧ m'' = h.target ∧ g'.name = g.name := by
          simpa [Lookup.hop] using hhop
        obtain rfl := S.field_unique hg' hg hname
        obtain ⟨b, hmem, hincl⟩ := Schema.IsWatch.has hb
          ⟨deps, hdeps, dep, hdep, .hop hx hl hhop (List.mem_singleton_self _)⟩
        obtain ⟨hfield, hwatched, hbpath⟩ := hincl.key
        exact ⟨b, hmem, hfield, hwatched, hbpath.trans hpath.symm, hincl.triggers hn,
          hincl.membership hn⟩

end Paths

end Totem.Computed
