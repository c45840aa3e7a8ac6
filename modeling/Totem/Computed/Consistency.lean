import Totem.Computed.Context
import Totem.Computed.Paths
import Totem.Lib.Run

/-!
# Totem.Computed.Consistency — stored computed fields over a unit of work

Between the writes of a unit of work a stored field is right on every row it is not pending on; the
outermost exit leaves nothing pending.

* `agree_of_watches`: what no watch of a dependency notices, the dependency does not read.
* `Updates`, `detects_update`: what an update changes is noticed before it or after it.
* `detects_create`: what a creation changes is noticed after it.
* `detects_refresh`: a refresh is noticed where the fields it writes are followed.
* `flush_consistent`: the refresh ends, and every stored field is right.
* `consistent_on_exit`: a whole unit of work.
* `write_leaves_stale`: what a generated column reads in a condition only is not watched.
-/

namespace Totem.Computed

open Totem.Lib

/-! ## What is not noticed is not read -/

section Detects

variable {M N K V : Type*} [DecidableEq M] [DecidableEq N] [DecidableEq K]
variable {S : Schema M N K V} {reg : Registry M N} {root : M × N} {db db' : Db M N K V} {r : K}

/-- Where no watch of the field `root` fires, the databases are the same as seen from the row `r`. -/
structure Detects (S : Schema M N K V) (root : M × N) (db db' : Db M N K V) (r : K)
    (Fires : Binding M N → Prop) : Prop where
  hop : ∀ m path x name l h, S.getField m name = some l → l.hop = some h →
    Reaches db root.1 r path m x → Reaches db' root.1 r path m x →
    (∀ w ∈ hopWatches root m path l h, ¬ Fires w) → next db m h x = next db' m h x
  value : ∀ m path x f, S.EndsOn root path m f →
    Reaches db root.1 r path m x → Reaches db' root.1 r path m x →
    ¬ Fires ⟨root, m, path, f.names, ∅, false, none⟩ →
    ((db m).get x).map (S.value m f) = ((db' m).get x).map (S.value m f)

/-- **One dependency**, hop after hop: the rows it has led to so far are the same in both databases. -/
theorem agree_of_watches {Fires : Binding M N → Prop} (hd : Detects S root db db' r Fires)
    {deps : List (List N)} (hdeps : (root.2, deps) ∈ S.stored root.1) {dep rest : List N} (hdep : dep ∈ deps)
    {left : ℕ} {m : M} {path : List (Hop M N)} {x : K} {ws : List (Binding M N)}
    (hcross : S.Crosses root.1 dep path m rest) (hws : watches S root dep left m path rest = .ok ws)
    (hquiet : ∀ w ∈ ws, ¬ Fires w) (hx : Reaches db root.1 r path m x) (hx' : Reaches db' root.1 r path m x) :
    S.Agree db db' m x rest := by
  induction rest generalizing left m path x ws with
  | nil => trivial
  | cons name rest ih =>
    unfold Schema.Agree
    cases hl : S.getField m name with
    | none => trivial
    | some l =>
      dsimp only
      cases hhop : l.hop with
      | none =>
        obtain ⟨rfl, rfl⟩ := watches_column hl hhop hws
        cases l with
        | reverse m' f => cases hhop
        | own f =>
          have hends : S.EndsOn root path m f :=
            ⟨deps, hdeps, dep, hdep, name, hcross, hl, Option.map_eq_none_iff.mp hhop⟩
          exact hd.value m path x f hends hx hx' (hquiet _ (List.mem_singleton_self _))
      | some h =>
        obtain ⟨left', ws', hws', rfl⟩ := watches_hop hl hhop hws
        have hnext := hd.hop m path x name l h hl hhop hx hx'
          fun w hw => hquiet w (List.mem_append_left _ hw)
        refine ⟨hnext, fun y hy => ?_⟩
        exact ih (hcross.hop hl hhop) hws' (fun w hw => hquiet w (List.mem_append_right _ hw)) (hx.concat hy)
          (hx'.concat (hnext ▸ hy))

/-- **A stored field none of whose watches fires** reads the same thing. -/
theorem agree_of_quiet {Fires : Binding M N → Prop} (hb : build S = .ok reg) {m : M} {n : N}
    {deps : List (List N)} (hn : (n, deps) ∈ S.stored m) (hd : Detects S (m, n) db db' r Fires)
    (hquiet : ∀ w, Has reg.bindings w → w.field = (m, n) → w.membership ⊆ w.triggers → ¬ Fires w) :
    ∀ dep ∈ deps, S.Agree db db' m r dep := by
  intro dep hdep
  obtain ⟨ws, hws, hhas⟩ := build_has hb hn dep hdep
  refine agree_of_watches hd hn hdep .start hws (fun w hw => ?_) .nil .nil
  obtain ⟨hfield, hsub⟩ := watches_sane hws w hw
  exact hquiet w (hhas w hw) hfield hsub

end Detects

/-! ## Updates -/

section Update

variable {M N K V : Type*} [DecidableEq M] [DecidableEq N] [DecidableEq K]

/-- A row before and after its fields `names` are written, a foreign key by its name or attname. -/
structure RowChange (S : Schema M N K V) (m : M) (names : Finset N) (row row' : Row N K V) : Prop where
  col : ∀ n, n ∉ names → row'.col n = row.col n
  key : ∀ n, n ∉ names → (∀ f ∈ S.fields m, f.name = n → f.attname ∉ names) → row'.key n = row.key n
  many : ∀ n, n ∉ names → row'.many n = row.many n

/-- The fields `names` of the rows `pks` of `m` are written, and nothing else. -/
structure Updates (S : Schema M N K V) (m : M) (pks : Finset K) (names : Finset N)
    (db db' : Db M N K V) : Prop where
  others : ∀ m', m' ≠ m → db' m' = db m'
  gone : ∀ k, (db m).get k = none → (db' m).get k = none
  rows : ∀ k row, (db m).get k = some row → ∃ row', (db' m).get k = some row' ∧
    (k ∉ pks → row' = row) ∧ RowChange S m names row row'

variable {S : Schema M N K V} {reg : Registry M N} {m₀ m : M} {pks : Finset K} {names : Finset N}
variable {db db' db'' : Db M N K V} {r : K}

omit [DecidableEq M] [DecidableEq N] [DecidableEq K] in
theorem RowChange.refl (row : Row N K V) : RowChange S m names row row :=
  ⟨fun _ _ => rfl, fun _ _ _ => rfl, fun _ _ => rfl⟩

omit [DecidableEq M] [DecidableEq N] [DecidableEq K] in
theorem RowChange.trans {row row' row'' : Row N K V} (h : RowChange S m names row row')
    (h' : RowChange S m names row' row'') : RowChange S m names row row'' where
  col := fun n hn => (h'.col n hn).trans (h.col n hn)
  key := fun n hn hf => (h'.key n hn hf).trans (h.key n hn hf)
  many := fun n hn => (h'.many n hn).trans (h.many n hn)

omit [DecidableEq M] [DecidableEq N] [DecidableEq K] in
theorem Updates.trans (h : Updates S m pks names db db') (h' : Updates S m pks names db' db'') :
    Updates S m pks names db db'' where
  others := fun m' hm' => (h'.others m' hm').trans (h.others m' hm')
  gone := fun k hk => h'.gone k (h.gone k hk)
  rows := by
    intro k row hrow
    obtain ⟨row', hrow', hsame, hchange⟩ := h.rows k row hrow
    obtain ⟨row'', hrow'', hsame', hchange'⟩ := h'.rows k row' hrow'
    exact ⟨row'', hrow'', fun hk => (hsame' hk).trans (hsame hk), hchange.trans hchange'⟩

omit [DecidableEq N] [DecidableEq K] in
/-- A row of any model, after the update. -/
theorem Updates.row (h : Updates S m₀ pks names db db') {k : K} {row : Row N K V}
    (hrow : (db m).get k = some row) :
    ∃ row', (db' m).get k = some row' ∧ (¬ (m = m₀ ∧ k ∈ pks) → row' = row) ∧
      RowChange S m names row row' := by
  by_cases hm : m = m₀
  · subst hm
    obtain ⟨row', hrow', hsame, hchange⟩ := h.rows k row hrow
    exact ⟨row', hrow', fun hk => hsame fun hmem => hk ⟨rfl, hmem⟩, hchange⟩
  · refine ⟨row, ?_, fun _ => rfl, .refl row⟩
    rw [h.others m hm, hrow]

omit [DecidableEq N] [DecidableEq K] in
theorem Updates.get_eq_none (h : Updates S m₀ pks names db db') {k : K} (hk : (db m).get k = none) :
    (db' m).get k = none := by
  by_cases hm : m = m₀
  · subst hm
    exact h.gone k hk
  · rw [h.others m hm, hk]

omit [DecidableEq N] [DecidableEq K] in
/-- A row of any model, before the update. -/
theorem Updates.row_of (h : Updates S m₀ pks names db db') {k : K} {row' : Row N K V}
    (hrow' : (db' m).get k = some row') :
    ∃ row, (db m).get k = some row ∧ (¬ (m = m₀ ∧ k ∈ pks) → row' = row) ∧
      RowChange S m names row row' := by
  cases hk : (db m).get k with
  | none =>
    rw [h.get_eq_none hk] at hrow'
    cases hrow'
  | some row =>
    obtain ⟨row'', hrow'', hsame, hchange⟩ := h.row hk
    obtain rfl := Option.some.inj (hrow''.symm.trans hrow')
    exact ⟨row, rfl, hsame, hchange⟩

omit [DecidableEq N] in
/-- A relation declared on the model leads from `x` to the same rows, if the row `x` is not written there. -/
theorem Updates.next_forward_eq (h : Updates S m₀ pks names db db') {isKey : Bool} {name : N} {target : M} {x : K}
    (hrelated : ∀ row row', (¬ (m = m₀ ∧ x ∈ pks) → row' = row) → RowChange S m names row row' →
      row'.related isKey name = row.related isKey name) :
    next db m (.forward isKey name target) x = next db' m (.forward isKey name target) x := by
  ext y
  rw [mem_next_forward, mem_next_forward]
  constructor
  · rintro ⟨⟨row, hrow, hy⟩, rowy, hrowy⟩
    obtain ⟨row', hrow', hsame, hchange⟩ := h.row hrow
    obtain ⟨rowy', hrowy', -, -⟩ := h.row hrowy
    exact ⟨⟨row', hrow', by rwa [hrelated row row' hsame hchange]⟩, rowy', hrowy'⟩
  · rintro ⟨⟨row', hrow', hy⟩, rowy', hrowy'⟩
    obtain ⟨row, hrow, hsame, hchange⟩ := h.row_of hrow'
    obtain ⟨rowy, hrowy, -, -⟩ := h.row_of hrowy'
    exact ⟨⟨row, hrow, by rwa [← hrelated row row' hsame hchange]⟩, rowy, hrowy⟩

/-- A column has the value it had, if it has on a row that is written. -/
theorem Updates.value_eq (h : Updates S m₀ pks names db db') {f : Field M N K V} {x : K}
    (hvalue : m = m₀ → x ∈ pks → ∀ row row', (db m).get x = some row → (db' m).get x = some row' →
      RowChange S m names row row' → S.value m f row' = S.value m f row) :
    ((db m).get x).map (S.value m f) = ((db' m).get x).map (S.value m f) := by
  cases hrow : (db m).get x with
  | none => rw [h.get_eq_none hrow]
  | some row =>
    obtain ⟨row', hrow', hsame, hchange⟩ := h.row hrow
    rw [hrow', Option.map_some, Option.map_some]
    by_cases hmx : m = m₀ ∧ x ∈ pks
    · rw [hvalue hmx.1 hmx.2 row row' hrow hrow' hchange]
    · rw [hsame hmx]

omit [DecidableEq M] [DecidableEq K] in
/-- A relation that is not written leads to the same rows. -/
theorem RowChange.related_eq {row row' : Row N K V} (h : RowChange S m names row row')
    {f : Field M N K V} (hf : f ∈ S.fields m) (hnames : ¬ (f.names ∩ names).Nonempty) (isKey : Bool) :
    row'.related isKey f.name = row.related isKey f.name := by
  have hout : ∀ n ∈ f.names, n ∉ names := fun n hn hmem =>
    hnames ⟨n, Finset.mem_inter.mpr ⟨hn, hmem⟩⟩
  unfold Row.related
  rw [h.many f.name (hout _ f.name_mem), h.key f.name (hout _ f.name_mem)]
  intro g hg hgf
  obtain rfl := S.field_unique hg hf hgf
  exact hout _ g.attname_mem

/-- The keys that generated columns read are not written under another name. -/
def KeysRead (S : Schema M N K V) (m : M) (row row' : Row N K V) : Prop :=
  ∀ f ∈ S.fields m, ∀ n ∈ f.inputs ++ f.conditions, ∀ g, S.ownField m n = some g → g.isKey = true →
    row'.key g.name = row.key g.name

omit [DecidableEq M] [DecidableEq K] in
/-- A column that is not written, nor anything that its expression reads, keeps its value. -/
theorem RowChange.value_eq {row row' : Row N K V} (h : RowChange S m names row row')
    (hkeys : KeysRead S m row row') {f : Field M N K V} (hf : f ∈ S.fields m)
    (hnames : ¬ (f.names ∩ names).Nonempty) (hconditions : ∀ n ∈ f.conditions, n ∉ names) :
    S.value m f row' = S.value m f row := by
  have hout : ∀ n ∈ f.names, n ∉ names := fun n hn hmem =>
    hnames ⟨n, Finset.mem_inter.mpr ⟨hn, hmem⟩⟩
  refine Schema.value_congr (h.col f.name (hout _ f.name_mem)) fun n hn => ?_
  refine Schema.cell_congr (hkeys f hf n hn) (h.col n ?_)
  rcases List.mem_append.mp hn with hn | hn
  · exact hout n (Field.inputs_subset (.inr hn))
  · exact hconditions n hn

omit [DecidableEq M] [DecidableEq K] in
theorem KeysRead.of_plain (hplain : S.PlainInputs) (row row' : Row N K V) : KeysRead S m row row' := by
  intro f hf n hn g hg hkey
  rw [hplain.columns m f hf n hn g hg] at hkey
  cases hkey

/-- Where an update changes the value of a column that a dependency ends on, it writes a name that is watched for the
column. -/
def Schema.Notices (S : Schema M N K V) (m : M) (pks : Finset K) (names : Finset N) (db db' : Db M N K V) : Prop :=
  ∀ root path f, S.EndsOn root path m f → (∃ x ∈ pks, ∃ row row', (db m).get x = some row ∧
    (db' m).get x = some row' ∧ S.value m f row' ≠ S.value m f row) → (f.names ∩ names).Nonempty

omit [DecidableEq K] in
/-- Only a write of what a condition reads can fail to be noticed. -/
theorem Updates.notices (hplain : S.PlainInputs) (h : Updates S m₀ pks names db db')
    (hconditions : ∀ root path f, S.EndsOn root path m₀ f → (∃ n ∈ f.conditions, n ∈ names) →
      (f.names ∩ names).Nonempty) : S.Notices m₀ pks names db db' := by
  rintro root path f hends ⟨x, -, row, row', hrow, hrow', hne⟩
  by_contra hnames
  obtain ⟨row₁, hrow₁, -, hchange⟩ := h.rows x row hrow
  obtain rfl := Option.some.inj (hrow'.symm.trans hrow₁)
  refine hne (hchange.value_eq (.of_plain hplain row row') hends.mem hnames fun n hn hmem => ?_)
  exact hnames (hconditions root path f hends ⟨n, hn, hmem⟩)

/-- A watch fires on an update of a row it has led to: after it, or before it when the row may leave. -/
def UpdateFires (db db' : Db M N K V) (r : K) (m₀ : M) (pks : Finset K) (names : Finset N)
    (w : Binding M N) : Prop :=
  w.watched = m₀ ∧ ∃ x ∈ pks,
    (w.triggers ∩ names).Nonempty ∧ Reaches db' w.field.1 r w.path w.watched x ∨
    (w.membership ∩ names).Nonempty ∧ Reaches db w.field.1 r w.path w.watched x

/-- **An update is noticed**, when it writes what is watched for the columns it changes. -/
theorem detects_update (h : Updates S m₀ pks names db db') (hnotices : S.Notices m₀ pks names db db') (root : M × N)
    (r : K) :
    Detects S root db db' r (UpdateFires db db' r m₀ pks names) where
  hop := by
    intro m path x name l hop hl hhop hx hx' hquiet
    cases l with
    | own f =>
      have hf := S.getField_mem hl
      obtain ⟨target, htarget, rfl⟩ := Option.map_eq_some_iff.mp hhop
      -- the relation is written on `x` itself
      refine h.next_forward_eq fun row row' hsame hchange => ?_
      by_cases hmx : m = m₀ ∧ x ∈ pks
      · refine hchange.related_eq hf (fun hn => ?_) f.isKey
        exact hquiet ⟨root, m, path, f.names, ∅, false, none⟩ (by simp [hopWatches])
          ⟨hmx.1, x, hmx.2, .inl ⟨hn, hx'⟩⟩
      · rw [hsame hmx]
    | reverse m' f =>
      obtain ⟨hf, -⟩ := S.getField_mem hl
      obtain rfl := Option.some.inj hhop
      set w : Binding M N := ⟨root, m', path ++ [.reverse f.isKey m' f.name], f.names, f.names, true,
        if path.isEmpty && f.isKey then some f.name else none⟩ with hw
      have hquiet' := hquiet w (by simp [hopWatches, hw])
      ext y
      constructor
      · intro hy
        obtain ⟨row, hrow, hxy⟩ := mem_next_reverse.mp hy
        obtain ⟨row', hrow', hsame, hchange⟩ := h.row hrow
        refine mem_next_reverse.mpr ⟨row', hrow', ?_⟩
        by_cases hmy : m' = m₀ ∧ y ∈ pks
        · rwa [hchange.related_eq hf (fun hn => ?_) f.isKey]
          -- `y` may leave: the root is found before the update
          exact hquiet' ⟨hmy.1, y, hmy.2, .inr ⟨hn, hx.concat hy⟩⟩
        · rwa [hsame hmy]
      · intro hy
        obtain ⟨row', hrow', hxy⟩ := mem_next_reverse.mp hy
        obtain ⟨row, hrow, hsame, hchange⟩ := h.row_of hrow'
        refine mem_next_reverse.mpr ⟨row, hrow, ?_⟩
        by_cases hmy : m' = m₀ ∧ y ∈ pks
        · rwa [← hchange.related_eq hf (fun hn => ?_) f.isKey]
          exact hquiet' ⟨hmy.1, y, hmy.2, .inl ⟨hn, hx'.concat hy⟩⟩
        · rwa [← hsame hmy]
  value := by
    intro m path x f hends hx hx' hquiet
    refine h.value_eq fun hm hmem row row' hrow hrow' hchange => ?_
    subst hm
    by_contra hchanged
    have hnames := hnotices root path f hends ⟨x, hmem, row, row', hrow, hrow', hchanged⟩
    exact hquiet ⟨rfl, x, hmem, .inl ⟨hnames, hx'⟩⟩

omit [DecidableEq M] [DecidableEq N] [DecidableEq K] in
theorem Schema.ConsistentBut.mono {p q : Pending M N K} (h : S.ConsistentBut p db)
    (hpq : ∀ f, p f ⊆ q f) : S.ConsistentBut q db := by
  intro m n deps hn k row hrow hk
  exact h m n deps hn k row hrow fun hmem => hk (hpq (m, n) hmem)

/-- The fields a declared update may write: stored computed fields are not among them. -/
def Schema.Writable (S : Schema M N K V) (m : M) (names : Finset N) : Prop :=
  ∀ n ∈ names, S.isStored m n = false

/-- The pending rows after an update: declared before it when it can move rows between roots, and
after it. -/
def declareUpdate (S : Schema M N K V) (reg : Registry M N) (db db' : Db M N K V) (m : M) (pks : Finset K)
    (names : Finset N) (p : Pending M N K) : Pending M N K :=
  modified S reg db' m pks names false
    (if hasRelationToModify reg m names then modified S reg db m pks names true p else p)

theorem mem_declareUpdate {p : Pending M N K} {f : M × N} (hr : r ∈ p f) :
    r ∈ declareUpdate S reg db db' m pks names p f := by
  refine mem_modified.mpr (.inl ?_)
  split
  · exact mem_modified.mpr (.inl hr)
  · exact hr

/-- An update of nothing that is watched queues nothing. -/
theorem declareUpdate_of_unwatched {p : Pending M N K}
    (h : ∀ b ∈ reg.bindings, b.watched = m → ¬ (b.triggers ∩ names).Nonempty) :
    declareUpdate S reg db db' m pks names p = p := by
  have hmodified : ∀ (db : Db M N K V) (before : Bool) (p : Pending M N K),
      modified S reg db m pks names before p = p := by
    intro db before p
    funext f
    ext r
    rw [mem_modified, or_iff_left]
    rintro ⟨b, hb, hwatched, -, htr, -⟩
    exact h b hb hwatched htr
  rw [declareUpdate, hmodified, hmodified, ite_self]

/-- Every watched field that is written is declared. -/
def Declared (reg : Registry M N) (m : M) (written names : Finset N) : Prop :=
  ∀ b ∈ reg.bindings, b.watched = m → ∀ n ∈ b.triggers, n ∈ written → n ∈ names

omit [DecidableEq M] in
theorem Declared.nonempty {written : Finset N} (h : Declared reg m written names) {b : Binding M N}
    (hb : b ∈ reg.bindings) (hm : b.watched = m) {s t : Finset N} (hst : s ⊆ t) (ht : s ⊆ b.triggers)
    (hs : (s ∩ written).Nonempty) : (t ∩ names).Nonempty := by
  obtain ⟨n, hn⟩ := hs
  rw [Finset.mem_inter] at hn
  exact ⟨n, Finset.mem_inter.mpr ⟨hst hn.1, h b hb hm n (ht hn.1) hn.2⟩⟩

/-- A root is queued by the update its watch fires on. -/
theorem mem_declareUpdate_of_fires (hprimary : S.PrimaryKeys) {written : Finset N} {p : Pending M N K}
    {w : Binding M N} (hw : Has reg.bindings w) (hsub : w.membership ⊆ w.triggers)
    (hdecl : Declared reg m₀ written names)
    (hr : (db w.field.1).get r ≠ none) (hr' : (db' w.field.1).get r ≠ none)
    (hfires : UpdateFires db db' r m₀ pks written w) :
    r ∈ declareUpdate S reg db db' m₀ pks names p w.field := by
  obtain ⟨b, hb, hincl⟩ := hw
  obtain ⟨hfield, hwatched, hpath⟩ := hincl.key
  obtain ⟨rfl, x, hx, hfires⟩ := hfires
  have hcompares (db : Db M N K V) : S.compares db b.field.1 b.path x x = true :=
    hprimary.compares db b.field.1 b.path x
  rw [← hfield] at hr hr' hfires ⊢
  rw [← hwatched, ← hpath] at hfires
  rw [← hwatched] at hdecl ⊢
  rcases hfires with ⟨htr, hreach⟩ | ⟨hmem, hreach⟩
  · refine mem_modified.mpr (.inr ⟨b, hb, rfl, rfl, ?_, by simp, mem_roots hr' hreach hx (hcompares db')⟩)
    exact hdecl.nonempty hb rfl hincl.triggers hincl.triggers htr
  · have hmem' : (b.membership ∩ names).Nonempty :=
      hdecl.nonempty hb rfl hincl.membership (hsub.trans hincl.triggers) hmem
    have htr : (b.triggers ∩ names).Nonempty :=
      hdecl.nonempty hb rfl (hsub.trans hincl.triggers) (hsub.trans hincl.triggers) hmem
    have hrel : hasRelationToModify reg b.watched names = true := by
      refine List.any_eq_true.mpr ⟨b, mem_bindingsFor.mpr ⟨hb, rfl⟩, ?_⟩
      simpa using hmem'
    refine mem_modified.mpr (.inl ?_)
    rw [if_pos hrel]
    exact mem_modified.mpr (.inr ⟨b, hb, rfl, rfl, htr, fun _ => hmem', mem_roots hr hreach hx (hcompares db)⟩)

/-- **A declared update** leaves every stored field right where it is not pending. -/
theorem Schema.ConsistentBut.update (hread : S.ReadsOnly) (hprimary : S.PrimaryKeys)
    (hb : build S = .ok reg) {written : Finset N} {p : Pending M N K} (hc : S.ConsistentBut p db)
    (h : Updates S m₀ pks written db db') (hnotices : S.Notices m₀ pks written db db') (hwritten : S.Writable m₀ written)
    (hdecl : Declared reg m₀ written names) :
    S.ConsistentBut (declareUpdate S reg db db' m₀ pks names p) db' := by
  intro m n deps hn k row' hrow' hk
  obtain ⟨row, hrow, hsame, hchange⟩ := h.row_of hrow'
  have hcol : row'.col n = row.col n := by
    by_cases hmk : m = m₀ ∧ k ∈ pks
    · refine hchange.col n fun hmem => ?_
      have hstored := S.isStored_iff.mpr ⟨deps, hn⟩
      rw [hmk.1, hwritten n hmem] at hstored
      cases hstored
    · rw [hsame hmk]
  have hne : (db m).get k ≠ none := by rw [hrow]; simp
  have hne' : (db' m).get k ≠ none := by rw [hrow']; simp
  rw [hcol, hc m n deps hn k row hrow fun hmem => hk (mem_declareUpdate hmem)]
  refine hread m n deps hn _ _ k hne hne' (agree_of_quiet hb hn (detects_update h hnotices (m, n) k) ?_)
  intro w hw hfield hsub hfires
  have hqueued := mem_declareUpdate_of_fires hprimary (p := p) hw hsub hdecl (hfield ▸ hne) (hfield ▸ hne') hfires
  exact hk (hfield ▸ hqueued)

end Update

/-! ## Creations -/

section Create

variable {M N K V : Type*} [DecidableEq M] [DecidableEq N] [DecidableEq K]
variable {S : Schema M N K V} {reg : Registry M N} {m₀ m : M} {rows : Table K (Row N K V)}
variable {db : Db M N K V} {r : K}

/-- The database with new rows, their many-to-many relations included. -/
def insertRows (db : Db M N K V) (m : M) (rows : Table K (Row N K V)) : Db M N K V :=
  Function.update db m (rows.overlay (db m))

omit [DecidableEq N] in
theorem insertRows_old (hnew : ∀ k ∈ rows.keys, (db m₀).get k = none) {k : K} {row : Row N K V}
    (hrow : (db m).get k = some row) : (insertRows db m₀ rows m).get k = some row := by
  unfold insertRows
  by_cases hm : m = m₀
  · subst hm
    have hk : rows.get k = none := by
      rw [Table.get_eq_none]
      intro hmem
      rw [hnew k hmem] at hrow
      cases hrow
    simp [hk, hrow]
  · simp [hm, hrow]

omit [DecidableEq N] in
theorem insertRows_cases {k : K} {row : Row N K V} (hrow : (insertRows db m₀ rows m).get k = some row) :
    (db m).get k = some row ∨ m = m₀ ∧ rows.get k = some row := by
  unfold insertRows at hrow
  by_cases hm : m = m₀
  · subst hm
    simp only [Function.update_self, Table.get_overlay, Option.or_eq_some_iff] at hrow
    rcases hrow with hrow | ⟨-, hrow⟩
    · exact .inr ⟨rfl, hrow⟩
    · exact .inl hrow
  · rw [Function.update_of_ne hm] at hrow
    exact .inl hrow

omit [DecidableEq M] [DecidableEq N] in
/-- A path from a row of the table leads to rows of the table. -/
theorem Reaches.exists_row {path : List (Hop M N)} {m₀ m : M} {x : K} (h : Reaches db m₀ r path m x)
    (hr : (db m₀).get r ≠ none) : ∃ row, (db m).get x = some row := by
  cases h with
  | nil => exact Option.ne_none_iff_exists'.mp hr
  | concat _ hy => exact exists_of_mem_next hy

/-- A watch fires on a new row the path leads to. -/
def CreateFires (db' : Db M N K V) (r : K) (m₀ : M) (rows : Table K (Row N K V)) (w : Binding M N) : Prop :=
  w.watched = m₀ ∧ w.onExistence = true ∧ w.path ≠ [] ∧
    ∃ x row, rows.get x = some row ∧ Reaches db' w.field.1 r w.path w.watched x

/-- **A creation is noticed**: the first new row on the way is. -/
theorem detects_create (hnew : ∀ k ∈ rows.keys, (db m₀).get k = none) (root : M × N)
    (hr : (db root.1).get r ≠ none) :
    Detects S root db (insertRows db m₀ rows) r (CreateFires (insertRows db m₀ rows) r m₀ rows) where
  hop := by
    intro m path x name l hop hl hhop hx hx' hquiet
    obtain ⟨row, hrow⟩ := hx.exists_row hr
    have hrow' := insertRows_old hnew hrow
    cases l with
    | own f =>
      obtain ⟨target, htarget, rfl⟩ := Option.map_eq_some_iff.mp hhop
      ext y
      constructor
      · intro hy
        obtain ⟨⟨row₁, hrow₁, hmem⟩, rowy, hrowy⟩ := mem_next_forward.mp hy
        exact mem_next_forward.mpr ⟨⟨row₁, insertRows_old hnew hrow₁, hmem⟩, rowy,
          insertRows_old hnew hrowy⟩
      · intro hy
        obtain ⟨⟨row₁, hrow₁, hmem⟩, rowy, hrowy⟩ := mem_next_forward.mp hy
        obtain rfl := Option.some.inj (hrow'.symm.trans hrow₁)
        rcases insertRows_cases hrowy with hold | ⟨htm, hfresh⟩
        · exact mem_next_forward.mpr ⟨⟨row, hrow, hmem⟩, rowy, hold⟩
        · refine absurd ?_ (hquiet ⟨root, target, path ++ [.forward f.isKey f.name target], ∅, ∅, true,
            none⟩ (by simp [hopWatches, Hop.target]))
          exact ⟨htm, rfl, by simp, y, rowy, hfresh, hx'.concat hy⟩
    | reverse m' f =>
      obtain rfl := Option.some.inj hhop
      ext y
      constructor
      · intro hy
        obtain ⟨rowy, hrowy, hmem⟩ := mem_next_reverse.mp hy
        exact mem_next_reverse.mpr ⟨rowy, insertRows_old hnew hrowy, hmem⟩
      · intro hy
        obtain ⟨rowy, hrowy, hmem⟩ := mem_next_reverse.mp hy
        rcases insertRows_cases hrowy with hold | ⟨htm, hfresh⟩
        · exact mem_next_reverse.mpr ⟨rowy, hold, hmem⟩
        · refine absurd ?_ (hquiet _ (List.mem_singleton_self _))
          exact ⟨htm, rfl, by simp, y, rowy, hfresh, hx'.concat hy⟩
  value := by
    intro m path x f hends hx hx' hquiet
    obtain ⟨row, hrow⟩ := hx.exists_row hr
    rw [hrow, insertRows_old hnew hrow]

/-- **A declared creation** leaves every stored field right where it is not pending. -/
theorem Schema.ConsistentBut.create (hread : S.ReadsOnly) (hprimary : S.PrimaryKeys) (hb : build S = .ok reg)
    {p : Pending M N K} (hc : S.ConsistentBut p db) (hnew : ∀ k ∈ rows.keys, (db m₀).get k = none) :
    S.ConsistentBut (created S reg (insertRows db m₀ rows) m₀ rows p) (insertRows db m₀ rows) := by
  intro m n deps hn k row hrow hk
  rcases insertRows_cases hrow with hold | ⟨rfl, hfresh⟩
  · have hne : (db m).get k ≠ none := by rw [hold]; simp
    have hne' : (insertRows db m₀ rows m).get k ≠ none := by rw [hrow]; simp
    rw [hc m n deps hn k row hold fun hmem => hk (mem_created.mpr (.inl hmem))]
    refine hread m n deps hn _ _ k hne hne' (agree_of_quiet hb hn (detects_create hnew (m, n) hne) ?_)
    rintro w ⟨b, hbmem, hincl⟩ hfield - ⟨rfl, hex, hpath, x, rowx, hx, hreach⟩
    obtain ⟨hbfield, hbwatched, hbpath⟩ := hincl.key
    rw [← hbfield, ← hbwatched, ← hbpath] at hreach
    rw [← hbfield] at hfield
    have hlocal : b.isLocal = false := by
      rw [Binding.isLocal, hbpath, List.isEmpty_eq_false_iff]
      exact hpath
    have hrowx : (insertRows db b.watched rows b.watched).get x = some rowx := by
      simp [insertRows, hx]
    rw [← hbwatched] at hne' hk
    have hroots := mem_roots_created (build_fkOk hb b hbmem) (hprimary.compares _ _ _ _)
      (by rw [hfield]; exact hne') hreach hx hrowx
    refine hk (mem_created.mpr (.inr (.inr ⟨?_, b, hbmem, rfl, hfield, hincl.onExistence hex, hlocal,
      hroots⟩)))
    exact Finset.ne_empty_of_mem (Table.mem_keys_of_get hx)
  · refine absurd (mem_created.mpr (.inr (.inl ⟨⟨(n, deps), hn, rfl⟩, ?_⟩))) hk
    exact Table.mem_keys_of_get hfresh

end Create

/-! ## The refresh -/

section Flush

variable {M N K V : Type*} [DecidableEq M] [DecidableEq N] [DecidableEq K]
variable {S : Schema M N K V} {reg : Registry M N} {m₀ m : M} {pks : Finset K} {names : List N}
variable {db db' : Db M N K V} {r : K} {p q : Pending M N K}

omit [DecidableEq N] [DecidableEq K] in
/-- A row of a database in which the rows of one model are mapped. -/
theorem get_update_map {g : K → Row N K V → Row N K V} {k : K} {row' : Row N K V}
    (hrow' : (Function.update db m₀ ((db m₀).map g) m).get k = some row') :
    ∃ row, (db m).get k = some row ∧ row' = if m = m₀ then g k row else row := by
  by_cases hm : m = m₀
  · subst hm
    rw [Function.update_self, Table.get_map, Option.map_eq_some_iff] at hrow'
    obtain ⟨row, hrow, rfl⟩ := hrow'
    exact ⟨row, hrow, (if_pos rfl).symm⟩
  · rw [Function.update_of_ne hm] at hrow'
    exact ⟨row', hrow', (if_neg hm).symm⟩

theorem writeComputed_row {k : K} {row' : Row N K V}
    (hrow' : (writeComputed S db m₀ pks names m).get k = some row') :
    ∃ row, (db m).get k = some row ∧ row'.key = row.key ∧ row'.many = row.many ∧
      ∀ n, row'.col n =
        if m = m₀ ∧ k ∈ pks ∧ n ∈ names then S.compute m n db k else row.col n := by
  obtain ⟨row, hrow, rfl⟩ := get_update_map hrow'
  refine ⟨row, hrow, ?_⟩
  by_cases hm : m = m₀
  · subst hm
    by_cases hk : k ∈ pks <;> simp [hk]
  · simp [hm]

theorem writeComputed_get_none {k : K} (hk : (db m).get k = none) :
    (writeComputed S db m₀ pks names m).get k = none := by
  unfold writeComputed
  by_cases hm : m = m₀
  · subst hm
    simp [hk]
  · simp [hm, hk]

theorem writeComputed_get {k : K} {row : Row N K V} (hrow : (db m).get k = some row) :
    ∃ row', (writeComputed S db m₀ pks names m).get k = some row' ∧ row'.key = row.key ∧ row'.many = row.many ∧
      ∀ n, row'.col n = if m = m₀ ∧ k ∈ pks ∧ n ∈ names then S.compute m n db k else row.col n := by
  obtain ⟨row', hrow'⟩ : ∃ row', (writeComputed S db m₀ pks names m).get k = some row' := by
    unfold writeComputed
    by_cases hm : m = m₀
    · subst hm
      simp [hrow]
    · exact ⟨row, by simp [hm, hrow]⟩
  obtain ⟨row₀, hrow₀, hsame⟩ := writeComputed_row hrow'
  obtain rfl := Option.some.inj (hrow.symm.trans hrow₀)
  exact ⟨row', hrow', hsame⟩

theorem updates_writeComputed (names' : Finset N) (hsub : ∀ n ∈ names, n ∈ names') :
    Updates S m pks names' db (writeComputed S db m pks names) where
  others := fun m' hm' => by simp [writeComputed, hm']
  gone := fun k hk => by simp [writeComputed, hk]
  rows := by
    intro k row hrow
    obtain ⟨row', hrow', hkey, hmany, hcol⟩ := writeComputed_get hrow
    refine ⟨row', hrow', fun hk => ?_, ?_, fun n _ _ => by rw [hkey], fun n _ => by rw [hmany]⟩
    · obtain ⟨col, key, many⟩ := row
      obtain ⟨col', key', many'⟩ := row'
      obtain rfl : key' = key := hkey
      obtain rfl : many' = many := hmany
      obtain rfl : col' = col := funext fun n => by simpa [hk] using hcol n
      rfl
    · intro n hn
      rw [hcol n, if_neg fun h => hn (hsub n h.2.2)]

theorem updates_bulkRefreshFields :
    Updates S m pks names.toFinset db (bulkRefreshFields S db m pks names) :=
  (updates_writeComputed _ fun n hn => by simp_all).trans (updates_writeComputed _ fun n hn => by simp_all)

theorem refreshed_writeComputed (hnames : ∀ n ∈ names, S.isStored m₀ n = true) :
    Refreshed S db (writeComputed S db m₀ pks names) where
  gone _ _ := writeComputed_get_none
  rows := by
    intro m k row hrow
    obtain ⟨row', hrow', hkey, hmany, hcol⟩ := writeComputed_get hrow
    refine ⟨row', hrow', hkey, hmany, fun n hn => ?_⟩
    rw [hcol n, if_neg]
    rintro ⟨rfl, -, hmem⟩
    rw [hnames n hmem] at hn
    cases hn

theorem refreshed_bulkRefreshFields (hnames : ∀ n ∈ names, S.isStored m₀ n = true) :
    Refreshed S db (bulkRefreshFields S db m₀ pks names) :=
  (refreshed_writeComputed fun n hn => hnames n (List.mem_of_mem_filter hn)).trans
    (refreshed_writeComputed fun n hn => hnames n (List.mem_of_mem_filter hn))

/-- The relations of a row. -/
def Row.links (row : Row N K V) : (N → Option K) × (N → Finset K) := (row.key, row.many)

omit [DecidableEq M] [DecidableEq N] [DecidableEq K] in
theorem exists_row_of_links (h : ∀ m k, ((db' m).get k).map Row.links = ((db m).get k).map Row.links)
    {k : K} {row' : Row N K V} (hrow' : (db' m).get k = some row') :
    ∃ row, (db m).get k = some row ∧ row'.key = row.key ∧ row'.many = row.many := by
  have hlinks := h m k
  rw [hrow', Option.map_some, eq_comm, Option.map_eq_some_iff] at hlinks
  obtain ⟨row, hrow, heq⟩ := hlinks
  exact ⟨row, hrow, (Prod.ext_iff.mp heq).1.symm, (Prod.ext_iff.mp heq).2.symm⟩

omit [DecidableEq M] [DecidableEq N] in
/-- What a path leads to does not depend on the columns. -/
theorem next_congr (h : ∀ m k, ((db' m).get k).map Row.links = ((db m).get k).map Row.links)
    (hop : Hop M N) (x : K) : next db' m hop x = next db m hop x := by
  have h' : ∀ m k, ((db m).get k).map Row.links = ((db' m).get k).map Row.links := fun m k => (h m k).symm
  ext y
  cases hop with
  | forward isKey f target =>
    rw [mem_next_forward, mem_next_forward]
    constructor
    · rintro ⟨⟨row', hx, hmem⟩, rowy', hy⟩
      obtain ⟨row, hx, hkey, hmany⟩ := exists_row_of_links h hx
      obtain ⟨rowy, hy, -⟩ := exists_row_of_links h hy
      exact ⟨⟨row, hx, by rwa [Row.related, hkey, hmany] at hmem⟩, rowy, hy⟩
    · rintro ⟨⟨row, hx, hmem⟩, rowy, hy⟩
      obtain ⟨row', hx, hkey, hmany⟩ := exists_row_of_links h' hx
      obtain ⟨rowy', hy, -⟩ := exists_row_of_links h' hy
      exact ⟨⟨row', hx, by rwa [Row.related, hkey, hmany] at hmem⟩, rowy', hy⟩
  | reverse isKey model f =>
    rw [mem_next_reverse, mem_next_reverse]
    constructor
    · rintro ⟨row', hy, hmem⟩
      obtain ⟨row, hy, hkey, hmany⟩ := exists_row_of_links h hy
      exact ⟨row, hy, by rwa [Row.related, hkey, hmany] at hmem⟩
    · rintro ⟨row, hy, hmem⟩
      obtain ⟨row', hy, hkey, hmany⟩ := exists_row_of_links h' hy
      exact ⟨row', hy, by rwa [Row.related, hkey, hmany] at hmem⟩

omit [DecidableEq M] [DecidableEq K] in
theorem Refreshed.links (h : Refreshed S db db') (m : M) (k : K) :
    ((db' m).get k).map Row.links = ((db m).get k).map Row.links := by
  cases hk : (db m).get k with
  | none => rw [h.gone m k hk, Option.map_none]
  | some row =>
    obtain ⟨row', hrow', hkey, hmany, -⟩ := h.rows m k row hk
    rw [hrow', Option.map_some, Option.map_some, Row.links, Row.links, hkey, hmany]

/-- A watch fires on a refreshed row that a lookup over its path tells by the primary key. -/
def RefreshFires (S : Schema M N K V) (db' : Db M N K V) (r : K) (m₀ : M) (pks : Finset K) (names : Finset N)
    (w : Binding M N) : Prop :=
  w.watched = m₀ ∧ (w.triggers ∩ names).Nonempty ∧ ∃ x ∈ pks, Reaches db' w.field.1 r w.path w.watched x ∧
    S.compares db' w.field.1 w.path x x = true

/-- **A refresh is noticed**, where it is followed. -/
theorem detects_refresh {names : Finset N} (h : Updates S m₀ pks names db db') (hrefreshed : Refreshed S db db')
    (hnames : ∀ n ∈ names, S.isStored m₀ n = true) (hfollows : S.Follows db) (root : M × N) :
    Detects S root db db' r (RefreshFires S db' r m₀ pks names) where
  hop m path x name l hop _ _ _ _ _ := (next_congr hrefreshed.links hop x).symm
  value := by
    intro m path x f hends hx hx' hquiet
    refine h.value_eq fun hm hmem row row' hrow hrow' hchange => ?_
    subst hm
    have htarget : f.target = none := hends.target
    have hunnamed : ¬ (f.names ∩ names).Nonempty := by
      rintro ⟨n, hn⟩
      obtain ⟨hnf, hn⟩ := Finset.mem_inter.mp hn
      have hreads : ∃ n, S.isStored m n = true ∧ (f.name = n ∨ n ∈ f.inputs) :=
        ⟨n, hnames n hn, Field.reads_of_mem_names htarget hnf⟩
      have hcompares := hfollows.held root path m f hends hreads db' hrefreshed r x hx'
      exact hquiet ⟨rfl, ⟨n, Finset.mem_inter.mpr ⟨hnf, hn⟩⟩, x, hmem, hx', hcompares⟩
    have hkeys : KeysRead S m row row' := by
      obtain ⟨row₁, hrow₁, hkey, -⟩ := hrefreshed.rows m x row hrow
      obtain rfl := Option.some.inj (hrow'.symm.trans hrow₁)
      exact fun _ _ _ _ g _ _ => congrFun hkey g.name
    refine hchange.value_eq hkeys hends.mem hunnamed fun n hn hmem => ?_
    have hinput := hfollows.named root path m f hends n hn (hnames n hmem)
    exact hunnamed ⟨n, Finset.mem_inter.mpr ⟨Field.inputs_subset (.inr hinput), hmem⟩⟩

/-- A refresh of no field that a stored field reads. -/
theorem compute_eq_of_unwatched (hread : S.ReadsStored) (hb : build S = .ok reg) {names : Finset N}
    (h : Updates S m₀ pks names db db') (hrefreshed : Refreshed S db db')
    (hnames : ∀ n ∈ names, S.isStored m₀ n = true) (hfollows : S.Follows db) {n : N} {deps : List (List N)}
    (hn : (n, deps) ∈ S.stored m)
    (hun : ∀ b ∈ reg.bindings, b.field = (m, n) → b.watched = m₀ → ¬ (b.triggers ∩ names).Nonempty)
    (hr : (db m).get r ≠ none) : S.compute m n db r = S.compute m n db' r := by
  refine hread m n deps hn _ _ r hrefreshed hr
    (agree_of_quiet hb hn (detects_refresh h hrefreshed hnames hfollows (m, n)) ?_)
  rintro w ⟨b, hbmem, hincl⟩ hfield - ⟨hwatched, htr, -⟩
  obtain ⟨hbfield, hbwatched, -⟩ := hincl.key
  exact hun b hbmem (hbfield.trans hfield) (hbwatched.trans hwatched)
    (htr.mono (Finset.inter_subset_inter_right hincl.triggers))

omit [DecidableEq K] in
/-- A field that the fields of one level trigger is deeper. -/
theorem lt_depth_of_triggers (hb : build S = .ok reg) {level : ℕ}
    (hlevel : ∀ n ∈ names, S.isStored m₀ n = true ∧ reg.depthOf (m₀, n) = level) {b : Binding M N}
    (hbmem : b ∈ reg.bindings) (hwatched : b.watched = m₀) (htr : (b.triggers ∩ names.toFinset).Nonempty) :
    level < reg.depthOf b.field := by
  obtain ⟨n, hn⟩ := htr
  subst hwatched
  rw [Finset.mem_inter, List.mem_toFinset] at hn
  obtain ⟨hstored, hdepth⟩ := hlevel n hn.2
  have hlt := build_depth hb hbmem hn.1 hstored
  omega

omit [DecidableEq K] in
/-- The fields refreshed together read none of each other. -/
theorem unwatched_of_level (hb : build S = .ok reg) {level : ℕ}
    (hlevel : ∀ n ∈ names, S.isStored m₀ n = true ∧ reg.depthOf (m₀, n) = level) {f : M × N}
    (hf : reg.depthOf f = level) :
    ∀ b ∈ reg.bindings, b.field = f → b.watched = m₀ → ¬ (b.triggers ∩ names.toFinset).Nonempty := by
  rintro b hbmem rfl hwatched htr
  exact absurd hf (lt_depth_of_triggers hb hlevel hbmem hwatched htr).ne'

/-- A refreshed field equals its compute function on the database of the refresh. -/
theorem bulkRefreshFields_col (hread : S.ReadsStored) (hb : build S = .ok reg) (hfollows : S.Follows db)
    {level : ℕ} (hlevel : ∀ n ∈ names, S.isStored m n = true ∧ reg.depthOf (m, n) = level) {n : N}
    (hn : n ∈ names) {k : K} (hk : k ∈ pks) {row' : Row N K V}
    (hrow' : (bulkRefreshFields S db m pks names m).get k = some row') :
    row'.col n = S.compute m n (bulkRefreshFields S db m pks names) k := by
  obtain ⟨hstored, hdepth⟩ := hlevel n hn
  obtain ⟨deps, hdeps⟩ := Schema.isStored_iff.mp hstored
  have hun := unwatched_of_level hb hlevel hdepth
  have hstored' : ∀ n ∈ names, S.isStored m n = true := fun n hn => (hlevel n hn).1
  obtain ⟨row₁, hrow₁, -, -, hcol₁⟩ := writeComputed_row hrow'
  obtain ⟨row, hrow, -, -, hcol⟩ := writeComputed_row hrow₁
  have hne : (db m).get k ≠ none := by rw [hrow]; simp
  have hne₁ : (writeComputed S db m pks (names.filter fun n => !S.isPrefetch m n) m).get k ≠ none := by
    rw [hrow₁]; simp
  rw [hcol₁ n]
  cases hpre : S.isPrefetch m n with
  | true =>
    rw [if_pos ⟨rfl, hk, by simp [hn, hpre]⟩]
    -- python reads what the annotations have just written
    have hannotated : Refreshed S db (writeComputed S db m pks (names.filter fun n => !S.isPrefetch m n)) :=
      refreshed_writeComputed fun n hn => hstored' n (List.mem_of_mem_filter hn)
    refine compute_eq_of_unwatched hread hb (updates_writeComputed names.toFinset fun n hn => ?_)
      (refreshed_writeComputed fun n hn => hstored' n (List.mem_of_mem_filter hn))
      (by simpa using hstored') (hfollows.refreshed hannotated) hdeps hun hne₁
    exact List.mem_toFinset.mpr (List.mem_of_mem_filter hn)
  | false =>
    rw [if_neg (by simp [hpre]), hcol n, if_pos ⟨rfl, hk, by simp [hn, hpre]⟩]
    exact compute_eq_of_unwatched hread hb updates_bulkRefreshFields (refreshed_bulkRefreshFields hstored')
      (by simpa using hstored') hfollows hdeps hun hne

/-- **The refresh of one model**: its rows are right, and what they made stale is pending. -/
theorem Schema.ConsistentBut.refresh (hread : S.ReadsStored) (hb : build S = .ok reg) (hfollows : S.Follows db)
    {level : ℕ}
    (hlevel : ∀ n ∈ names, S.isStored m₀ n = true ∧ reg.depthOf (m₀, n) = level)
    (hc : S.ConsistentBut (fun f => p f ∪ q f) db) :
    S.ConsistentBut (fun f => modified S reg (bulkRefreshFields S db m₀ pks names) m₀ pks names.toFinset
        false p f ∪ if f.1 = m₀ ∧ f.2 ∈ names then q f \ pks else q f)
      (bulkRefreshFields S db m₀ pks names) := by
  intro m n deps hn k row' hrow' hk
  rw [Finset.mem_union, not_or] at hk
  obtain ⟨hkp, hkq⟩ := hk
  by_cases hfresh : (m = m₀ ∧ n ∈ names) ∧ k ∈ pks
  · obtain ⟨⟨rfl, hmem⟩, hkpks⟩ := hfresh
    exact bulkRefreshFields_col hread hb hfollows hlevel hmem hkpks hrow'
  · have hup : Updates S m₀ pks names.toFinset db (bulkRefreshFields S db m₀ pks names) :=
      updates_bulkRefreshFields
    obtain ⟨row, hrow, hsame, hchange⟩ := hup.row_of hrow'
    have hcol : row'.col n = row.col n := by
      by_cases hmk : m = m₀ ∧ k ∈ pks
      · refine hchange.col n fun hmem => hfresh ⟨⟨hmk.1, ?_⟩, hmk.2⟩
        rwa [List.mem_toFinset] at hmem
      · rw [hsame hmk]
    have hkold : k ∉ p (m, n) ∪ q (m, n) := by
      rw [Finset.mem_union, not_or]
      refine ⟨fun hmem => hkp (mem_modified.mpr (.inl hmem)), fun hmem => hkq ?_⟩
      split
      · rename_i hmn
        exact Finset.mem_sdiff.mpr ⟨hmem, fun hkpks => hfresh ⟨hmn, hkpks⟩⟩
      · exact hmem
    have hne : (db m).get k ≠ none := by rw [hrow]; simp
    have hne' : (bulkRefreshFields S db m₀ pks names m).get k ≠ none := by rw [hrow']; simp
    rw [hcol, hc m n deps hn k row hrow hkold]
    have hstored : ∀ n ∈ names, S.isStored m₀ n = true := fun n hn => (hlevel n hn).1
    have hrefreshed : Refreshed S db (bulkRefreshFields S db m₀ pks names) := refreshed_bulkRefreshFields hstored
    refine hread m n deps hn _ _ k hrefreshed hne (agree_of_quiet hb hn
      (detects_refresh hup hrefreshed (by simpa using hstored) hfollows (m, n)) ?_)
    rintro w ⟨b, hbmem, hincl⟩ hfield - ⟨hwatched, htr, x, hx, hreach, hcompares⟩
    obtain ⟨hbfield, hbwatched, hbpath⟩ := hincl.key
    rw [← hbfield] at hfield
    rw [← hbfield, ← hbpath, ← hbwatched] at hreach
    rw [← hbfield, ← hbpath] at hcompares
    have htr' := htr.mono (Finset.inter_subset_inter_right (u := names.toFinset) hincl.triggers)
    have hroots := mem_roots (by rw [hfield]; exact hne') hreach hx hcompares
    exact hkp (mem_modified.mpr (.inr ⟨b, hbmem, hbwatched.trans hwatched, hfield, htr', by simp, hroots⟩))

/-- A refresh only queues deeper fields. -/
theorem depth_of_mem_modified (hb : build S = .ok reg) {level : ℕ}
    (hlevel : ∀ n ∈ names, S.isStored m n = true ∧ reg.depthOf (m, n) = level) {f : M × N}
    (hr : r ∈ modified S reg db m pks names.toFinset false p f) : r ∈ p f ∨ level < reg.depthOf f := by
  refine (mem_modified.mp hr).imp_right ?_
  rintro ⟨b, hbmem, hwatched, rfl, htr, -, -⟩
  exact lt_depth_of_triggers hb hlevel hbmem hwatched htr

omit [DecidableEq M] [DecidableEq K] in
theorem mem_pendingFields {f : M × N} :
    f ∈ pendingFields S p ↔ S.isStored f.1 f.2 = true ∧ (p f).Nonempty := by
  simp only [pendingFields, List.mem_filter, List.mem_map, decide_eq_true_eq, Schema.isStored_iff]
  apply and_congr_left
  intro _
  constructor
  · rintro ⟨⟨⟨m, n⟩, deps⟩, hmem, rfl⟩
    obtain ⟨m', -, hm'⟩ := List.mem_flatMap.mp hmem
    obtain ⟨⟨n', deps'⟩, hstored, heq⟩ := List.mem_map.mp hm'
    cases heq
    exact ⟨_, hstored⟩
  · rintro ⟨deps, hmem⟩
    exact ⟨_, storedFields_mem hmem, rfl⟩

theorem refreshed_flushModel {fields : List (M × N)} {popped : Pending M N K}
    (hfields : ∀ f ∈ fields, S.isStored f.1 f.2 = true) (s : Db M N K V × Pending M N K) (m : M) :
    Refreshed S s.1 (flushModel S reg fields popped s m).1 := by
  have hnames : ∀ n ∈ (fields.filter fun f => decide (f.1 = m)).map Prod.snd, S.isStored m n = true := by
    intro n hn
    obtain ⟨f, hf, rfl⟩ := List.mem_map.mp hn
    obtain ⟨hf, hm⟩ := List.mem_filter.mp hf
    rw [decide_eq_true_eq] at hm
    exact hm ▸ hfields f hf
  exact (refreshed_writeComputed fun n hn => hnames n (List.mem_of_mem_filter hn)).trans
    (refreshed_writeComputed fun n hn => hnames n (List.mem_of_mem_filter hn))

theorem refreshed_flushLevel (level : ℕ) (s : Db M N K V × Pending M N K) :
    Refreshed S s.1 (flushLevel S reg level s).1 := by
  have hfields : ∀ f ∈ (pendingFields S s.2).filter (fun f => decide (reg.depthOf f = level)),
      S.isStored f.1 f.2 = true := by
    intro f hf
    exact (mem_pendingFields.mp (List.mem_of_mem_filter hf)).1
  have hfold : ∀ (ms : List M) (popped : Pending M N K) (t : Db M N K V × Pending M N K),
      Refreshed S t.1 (ms.foldl (flushModel S reg
        ((pendingFields S s.2).filter fun f => decide (reg.depthOf f = level)) popped) t).1 := by
    intro ms popped
    induction ms with
    | nil => exact fun t => .refl t.1
    | cons m ms ih => exact fun t => (refreshed_flushModel hfields t m).trans (ih _)
  exact hfold S.models s.2 (s.1, fun f =>
    if f ∈ (pendingFields S s.2).filter (fun f => decide (reg.depthOf f = level)) then ∅ else s.2 f)

/-- The models still to refresh in a round, with the rows popped for them. -/
def remaining (fields : List (M × N)) (popped : Pending M N K) (ms : List M) : Pending M N K :=
  fun f => if f ∈ fields ∧ f.1 ∈ ms then popped f else ∅

omit [DecidableEq M] [DecidableEq N] in
theorem mem_foldr_union {popped : Pending M N K} {ns : List N} {n : N} (hn : n ∈ ns) {k : K}
    (hk : k ∈ popped (m, n)) : k ∈ ns.foldr (fun n s => popped (m, n) ∪ s) ∅ := by
  induction ns with
  | nil => cases hn
  | cons n' ns ih =>
    rw [List.foldr_cons, Finset.mem_union]
    rcases List.mem_cons.mp hn with rfl | hn
    · exact .inl hk
    · exact .inr (ih hn)

/-- **A round**, one model after the other. -/
theorem flushModels_consistent (hread : S.ReadsStored) (hb : build S = .ok reg)
    {level : ℕ} {fields : List (M × N)} {popped : Pending M N K}
    (hfields : ∀ f ∈ fields, S.isStored f.1 f.2 = true ∧ reg.depthOf f = level) {ms : List M}
    {s : Db M N K V × Pending M N K} (hfollows : S.Follows s.1)
    (hc : S.ConsistentBut (fun f => s.2 f ∪ remaining fields popped ms f) s.1)
    (hdeep : ∀ f, S.isStored f.1 f.2 = true → (s.2 f).Nonempty → level < reg.depthOf f) :
    S.ConsistentBut (ms.foldl (flushModel S reg fields popped) s).2
        (ms.foldl (flushModel S reg fields popped) s).1 ∧
      ∀ f, S.isStored f.1 f.2 = true → ((ms.foldl (flushModel S reg fields popped) s).2 f).Nonempty →
        level < reg.depthOf f := by
  induction ms generalizing s with
  | nil =>
    refine ⟨hc.mono fun f => ?_, hdeep⟩
    simp [remaining]
  | cons m ms ih =>
    rw [List.foldl_cons]
    set names := (fields.filter fun f => decide (f.1 = m)).map Prod.snd with hnames
    have hmem : ∀ n, n ∈ names ↔ (m, n) ∈ fields := by
      intro n
      simp only [hnames, List.mem_map, List.mem_filter, decide_eq_true_eq]
      constructor
      · rintro ⟨⟨m', n'⟩, ⟨hf, rfl⟩, rfl⟩
        exact hf
      · intro hf
        exact ⟨(m, n), ⟨hf, rfl⟩, rfl⟩
    have hlevel : ∀ n ∈ names, S.isStored m n = true ∧ reg.depthOf (m, n) = level := fun n hn =>
      hfields (m, n) ((hmem n).mp hn)
    apply ih
    · exact hfollows.refreshed (refreshed_bulkRefreshFields fun n hn => (hlevel n hn).1)
    · refine (Schema.ConsistentBut.refresh hread hb hfollows hlevel hc).mono fun f => ?_
      refine Finset.union_subset_union_right ?_
      intro k hk
      split at hk
      · -- the rows popped for `m` are all refreshed
        rename_i hf
        obtain ⟨hpopped, hkpks⟩ := Finset.mem_sdiff.mp hk
        unfold remaining at hpopped
        split at hpopped
        · obtain ⟨m', n⟩ := f
          obtain ⟨rfl, hn⟩ := hf
          exact absurd (mem_foldr_union hn hpopped) hkpks
        · exact absurd hpopped (Finset.notMem_empty k)
      · rename_i hf
        unfold remaining at hk ⊢
        split at hk
        · rename_i hfm
          have hne : f.1 ≠ m := by
            intro hm
            refine hf ⟨hm, (hmem f.2).mpr ?_⟩
            rw [← hm]
            exact hfm.1
          rw [if_pos ⟨hfm.1, (List.mem_cons.mp hfm.2).resolve_left hne⟩]
          exact hk
        · exact absurd hk (Finset.notMem_empty k)
    · rintro f hstored ⟨k, hk⟩
      rcases depth_of_mem_modified hb hlevel hk with hk | hlt
      · exact hdeep f hstored ⟨k, hk⟩
      · exact hlt

theorem flushLevel_consistent (hread : S.ReadsStored) (hb : build S = .ok reg)
    {level : ℕ} {s : Db M N K V × Pending M N K} (hfollows : S.Follows s.1) (hc : S.ConsistentBut s.2 s.1)
    (hlow : ∀ f, S.isStored f.1 f.2 = true → (s.2 f).Nonempty → level ≤ reg.depthOf f) :
    S.ConsistentBut (flushLevel S reg level s).2 (flushLevel S reg level s).1 ∧
      ∀ f, S.isStored f.1 f.2 = true → ((flushLevel S reg level s).2 f).Nonempty →
        level < reg.depthOf f := by
  have hfields : ∀ f, f ∈ (pendingFields S s.2).filter (fun f => decide (reg.depthOf f = level)) ↔
      (S.isStored f.1 f.2 = true ∧ (s.2 f).Nonempty) ∧ reg.depthOf f = level := by
    intro f
    rw [List.mem_filter, mem_pendingFields, decide_eq_true_eq]
  apply flushModels_consistent hread hb
  · intro f hf
    obtain ⟨⟨hstored, -⟩, hdepth⟩ := (hfields f).mp hf
    exact ⟨hstored, hdepth⟩
  · exact hfollows
  · refine hc.mono fun f k hk => ?_
    by_cases hf : f ∈ (pendingFields S s.2).filter fun f => decide (reg.depthOf f = level)
    · simp [remaining, hf, hk, S.mem_models]
    · simp [hf, hk]
  · intro f hstored hne
    dsimp only at hne
    split at hne
    · exact absurd hne Finset.not_nonempty_empty
    · rename_i hf
      have hle := hlow f hstored hne
      refine lt_of_le_of_ne hle fun heq => hf ((hfields f).mpr ⟨⟨hstored, hne⟩, heq.symm⟩)

/-- With nothing pending there is nothing to refresh. -/
theorem flush_empty : flush S reg (db, Pending.empty) = some (db, Pending.empty) := by
  have hlowest : lowest S reg (Pending.empty : Pending M N K) = none := by
    simp [lowest, pendingFields, Pending.empty]
  unfold flush flushLoop
  rw [hlowest]

omit [DecidableEq M] in
theorem lowest_eq_none (h : lowest S reg p = none) {f : M × N} (hf : S.isStored f.1 f.2 = true) :
    p f = ∅ := by
  rw [lowest, List.min?_eq_none_iff, List.map_eq_nil_iff] at h
  by_contra hne
  have hmem : f ∈ pendingFields S p :=
    mem_pendingFields.mpr ⟨hf, Finset.nonempty_iff_ne_empty.mpr hne⟩
  rw [h] at hmem
  cases hmem

omit [DecidableEq M] [DecidableEq K] in
theorem lowest_eq_some {level : ℕ} (h : lowest S reg p = some level) :
    (∃ f, reg.depthOf f = level) ∧
      ∀ f, S.isStored f.1 f.2 = true → (p f).Nonempty → level ≤ reg.depthOf f := by
  obtain ⟨hmem, hle⟩ := List.min?_eq_some_iff.mp h
  obtain ⟨f, -, hf⟩ := List.mem_map.mp hmem
  exact ⟨⟨f, hf⟩, fun g hg hne => hle _ (List.mem_map_of_mem (mem_pendingFields.mpr ⟨hg, hne⟩))⟩

theorem flushLoop_consistent (hread : S.ReadsStored) (hb : build S = .ok reg)
    {fuel l : ℕ} {s : Db M N K V × Pending M N K} (hfollows : S.Follows s.1) (hc : S.ConsistentBut s.2 s.1)
    (hlow : ∀ f, S.isStored f.1 f.2 = true → (s.2 f).Nonempty → l ≤ reg.depthOf f)
    (hl : l ≤ S.storedFields.length + 1) (hfuel : S.storedFields.length + 2 ≤ fuel + l) :
    ∃ s', flushLoop S reg fuel s = some s' ∧ S.Consistent s'.1 := by
  induction fuel generalizing l s with
  | zero => omega
  | succ fuel ih =>
    unfold flushLoop
    split
    · rename_i hnone
      refine ⟨s, rfl, fun m n deps hn k row hrow => hc m n deps hn k row hrow ?_⟩
      rw [lowest_eq_none hnone (Schema.isStored_iff.mpr ⟨deps, hn⟩)]
      exact Finset.notMem_empty k
    · rename_i level hlevel
      obtain ⟨⟨f, hf⟩, hle⟩ := lowest_eq_some hlevel
      have hbound := build_depth_le hb f
      have hge : l ≤ level := by
        obtain ⟨hmem, -⟩ := List.min?_eq_some_iff.mp hlevel
        obtain ⟨g, hg, rfl⟩ := List.mem_map.mp hmem
        obtain ⟨hstored, hne⟩ := mem_pendingFields.mp hg
        exact hlow g hstored hne
      obtain ⟨hc', hdeep⟩ := flushLevel_consistent hread hb hfollows hc hle
      -- the next round is deeper, and there are no more depths than stored fields
      exact ih (hfollows.refreshed (refreshed_flushLevel level s)) hc' hdeep (by omega) (by omega)

/-- **The refresh ends, and leaves every stored field right.** -/
theorem flush_consistent (hread : S.ReadsStored) (hb : build S = .ok reg) (hfollows : S.Follows db)
    (hc : S.ConsistentBut p db) : ∃ s', flush S reg (db, p) = some s' ∧ S.Consistent s'.1 :=
  flushLoop_consistent hread hb (l := 0) hfollows hc (fun _ _ _ => Nat.zero_le _) (Nat.zero_le _)
    (Nat.le_refl _)

theorem refreshed_flushLoop {fuel : ℕ} {s s' : Db M N K V × Pending M N K}
    (h : flushLoop S reg fuel s = some s') : Refreshed S s.1 s'.1 := by
  induction fuel generalizing s with
  | zero => cases h
  | succ fuel ih =>
    unfold flushLoop at h
    split at h
    · obtain rfl := Option.some.inj h
      exact .refl s.1
    · exact (refreshed_flushLevel _ s).trans (ih h)

end Flush

/-! ## A unit of work -/

section Unit

variable {M N K V : Type*} [DecidableEq M] [DecidableEq N] [DecidableEq K]

/-- The database, and the context: what is pending and how many blocks are open. -/
structure State (M N K V : Type*) where
  db : Db M N K V
  pending : Pending M N K
  depth : ℕ

/-- What happens inside the outermost block. -/
inductive Event (M N K V : Type*)
  | enter
  /-- An inner block is left, by an exception or not. -/
  | leave (raised : Bool)
  | create (m : M) (rows : Table K (Row N K V))
  | update (m : M) (pks : Finset K) (names : Finset N) (values : K → Row N K V)
  | refresh (m : M) (pks : Finset K) (names : List N)

/-- The fields `names` of a row replaced by those of `new`. -/
def Schema.writeRow (S : Schema M N K V) (m : M) (names : Finset N) (new row : Row N K V) :
    Row N K V where
  col n := if n ∈ names then new.col n else row.col n
  key n :=
    if n ∈ names ∨ (S.fields m).any (fun f => decide (f.name = n ∧ f.attname ∈ names)) then new.key n
    else row.key n
  many n := if n ∈ names then new.many n else row.many n

/-- `queryset.update()`, and the many-to-many rows that go with it. -/
def Schema.updateRows (S : Schema M N K V) (db : Db M N K V) (m : M) (pks : Finset K)
    (names : Finset N) (values : K → Row N K V) : Db M N K V :=
  Function.update db m ((db m).map fun k row =>
    if k ∈ pks then S.writeRow m names (values k) row else row)

/-- An update that is noticed on the columns it changes. -/
def Event.Noticed (S : Schema M N K V) (s : State M N K V) : Event M N K V → Prop
  | .update m pks names values => S.Notices m pks names s.db (S.updateRows s.db m pks names values)
  | _ => True

/-- `__exit__`. -/
def State.exit (S : Schema M N K V) (reg : Registry M N) (raised : Bool) (s : State M N K V) :
    Option (State M N K V) :=
  if s.depth - 1 = 0 then
    if raised then some ⟨s.db, Pending.empty, 0⟩
    else (flush S reg (s.db, s.pending)).map fun x => ⟨x.1, x.2, 0⟩
  else some { s with depth := s.depth - 1 }

/-- A declared write, or the entry or exit of an inner block. -/
inductive Declares (S : Schema M N K V) (reg : Registry M N) :
    State M N K V → Event M N K V → State M N K V → Prop
  | enter (s : State M N K V) : Declares S reg s .enter { s with depth := s.depth + 1 }
  | leave {s s' : State M N K V} {raised : Bool} (hinner : 2 ≤ s.depth)
      (h : s.exit S reg raised = some s') : Declares S reg s (.leave raised) s'
  | create (s : State M N K V) (m : M) (rows : Table K (Row N K V))
      (hnew : ∀ k ∈ rows.keys, (s.db m).get k = none) :
      Declares S reg s (.create m rows)
        { s with
          db := insertRows s.db m rows
          pending := created S reg (insertRows s.db m rows) m rows s.pending }
  | update (s : State M N K V) (m : M) (pks : Finset K) (names : Finset N) (values : K → Row N K V)
      (hnames : S.Writable m names) :
      Declares S reg s (.update m pks names values)
        { s with
          db := S.updateRows s.db m pks names values
          pending := declareUpdate S reg s.db (S.updateRows s.db m pks names values) m pks names s.pending }
  | refresh (s : State M N K V) (m : M) (pks : Finset K) (names : List N) :
      Declares S reg s (.refresh m pks names) { s with pending := refresh m pks names s.pending }

variable {S : Schema M N K V} {reg : Registry M N} {m : M} {pks : Finset K} {names : Finset N}
variable {db : Db M N K V} {s s' : State M N K V}

theorem updates_updateRows {values : K → Row N K V} :
    Updates S m pks names db (S.updateRows db m pks names values) where
  others := fun m' hm' => by simp [Schema.updateRows, hm']
  gone := fun k hk => by simp [Schema.updateRows, hk]
  rows := by
    intro k row hrow
    refine ⟨if k ∈ pks then S.writeRow m names (values k) row else row,
      by simp [Schema.updateRows, hrow], fun hk => if_neg hk, ?_⟩
    split
    · refine ⟨fun n hn => if_neg hn, fun n hn hf => if_neg ?_, fun n hn => if_neg hn⟩
      rintro (hmem | hany)
      · exact hn hmem
      · obtain ⟨f, hfm, hf'⟩ := List.any_eq_true.mp hany
        rw [decide_eq_true_eq] at hf'
        exact hf f hfm hf'.1 hf'.2
    · exact .refl row

/-- A row after an update, and the row it was. -/
theorem updateRows_cases {m' : M} {values : K → Row N K V} {k : K} {row' : Row N K V}
    (hrow' : (S.updateRows db m pks names values m').get k = some row') :
    ∃ row, (db m').get k = some row ∧
      (row' = row ∨ m' = m ∧ k ∈ pks ∧ row' = S.writeRow m names (values k) row) := by
  obtain ⟨row, hrow, rfl⟩ := get_update_map hrow'
  refine ⟨row, hrow, ?_⟩
  by_cases hm : m' = m
  · by_cases hk : k ∈ pks <;> simp [hm, hk]
  · exact .inl (if_neg hm)

theorem mem_refresh {p : Pending M N K} {ns : List N} {f : M × N} {r : K} (hr : r ∈ p f) :
    r ∈ refresh m pks ns p f := by
  induction ns generalizing p with
  | nil => exact hr
  | cons n ns ih => exact ih (Pending.mem_add.mpr (.inl hr))

/-- **A declared write** leaves every stored field right where it is not pending. -/
theorem Declares.consistent (hread : S.ReadsOnly) (hprimary : S.PrimaryKeys) (hb : build S = .ok reg)
    {e : Event M N K V} (h : Declares S reg s e s') (hnotices : e.Noticed S s) (hc : S.ConsistentBut s.pending s.db) :
    S.ConsistentBut s'.pending s'.db := by
  cases h with
  | enter => exact hc
  | leave hinner h =>
    have hne : s.depth - 1 ≠ 0 := by omega
    unfold State.exit at h
    rw [if_neg hne] at h
    obtain rfl := Option.some.inj h
    exact hc
  | create m rows hnew => exact hc.create hread hprimary hb hnew
  | update m pks names values hnames =>
    exact hc.update hread hprimary hb updates_updateRows hnotices hnames fun _ _ _ _ _ hn => hn
  | refresh m pks names => exact hc.mono fun f r hr => mem_refresh hr

omit [DecidableEq M] [DecidableEq N] [DecidableEq K] in
theorem Schema.Consistent.but (h : S.Consistent db) (p : Pending M N K) : S.ConsistentBut p db :=
  fun m n deps hn k row hrow _ => h m n deps hn k row hrow

/-- **The exit of the outermost block** ends, and every stored field is right. -/
theorem exit_consistent (hread : S.ReadsStored) (hb : build S = .ok reg) (hfollows : S.Follows db)
    {p : Pending M N K} (hc : S.ConsistentBut p db) : ∃ s', State.exit S reg false ⟨db, p, 1⟩ = some s' ∧ s'.depth = 0 ∧
      S.Consistent s'.db := by
  obtain ⟨⟨db', p'⟩, hflush, hdb'⟩ := flush_consistent hread hb hfollows hc
  refine ⟨⟨db', p', 0⟩, ?_, rfl, hdb'⟩
  simp [State.exit, hflush]

/-- **The exit of a block** changes stored computed fields and nothing else. -/
theorem State.exit_refreshed {raised : Bool} (h : s.exit S reg raised = some s') :
    Refreshed S s.db s'.db := by
  unfold State.exit at h
  split_ifs at h
  · obtain rfl := Option.some.inj h
    exact .refl s.db
  · obtain ⟨x, hx, rfl⟩ := Option.map_eq_some_iff.mp h
    exact refreshed_flushLoop hx
  · obtain rfl := Option.some.inj h
    exact .refl s.db

/-- **Consistency over a unit of work.**  From a database in which every stored computed field equals its
compute function, after any declared writes that are noticed on the columns they change, and any inner blocks, the
exit of the outermost block ends and leaves one. -/
theorem consistent_on_exit (hread : S.ReadsOnly) (hplain : S.PlainInputs) (hprimary : S.PrimaryKeys)
    (hb : build S = .ok reg) (hc : S.Consistent db) {es : List (Event M N K V)}
    (hr : Run (fun s e s' => Declares S reg s e s' ∧ e.Noticed S s) ⟨db, Pending.empty, 1⟩ es s)
    (hdepth : s.depth = 1) : ∃ s', s.exit S reg false = some s' ∧ s'.depth = 0 ∧ S.Consistent s'.db := by
  have hinv : S.ConsistentBut s.pending s.db :=
    hr.invariant (fun s e s' hs h => h.1.consistent hread hprimary hb h.2 hs) (hc.but Pending.empty)
  obtain ⟨db', p, d⟩ := s
  obtain rfl : d = 1 := hdepth
  exact exit_consistent hread.stored hb (.of_plain hplain hprimary db') hinv

end Unit

section Sample

/-! ### Orders and lines -/

inductive Shop
  | order
  | line
deriving DecidableEq

/-- The total of an order is that of its lines, and a line copies the total of its order. -/
def shop : Schema Shop String ℕ ℤ where
  models := [.order, .line]
  fields
    | .order => [⟨"label", .column⟩, ⟨"total", .computed [["lines"], ["lines", "amount"]] true⟩]
    | .line => [⟨"order", .foreignKey .order "order_id" none .cascade (some "lines")⟩, ⟨"amount", .column⟩,
        ⟨"order_total", .computed [["order", "total"]] false⟩]
  maxHops := 4
  equals _ _ _ _ := false
  compute
    | .order, _, db, k => ∑ y ∈ next db .order (.reverse true .line "order") k,
        ((db .line).get y).elim 0 fun row => row.col "amount"
    | .line, _, db, k => ∑ y ∈ next db .line (.forward true "order" .order) k,
        ((db .order).get y).elim 0 fun row => row.col "total"
  mem_models m := by cases m <;> decide
  names_nodup m := by cases m <;> decide

theorem shop_readsOnly : shop.ReadsOnly := by
  intro m n deps hn db db' k _ _ hagree
  cases m with
  | order =>
    obtain ⟨rfl, rfl⟩ : n = "total" ∧ deps = [["lines"], ["lines", "amount"]] := by
      simpa [shop, Schema.stored, Field.dependsOn] using hn
    obtain ⟨hnext, hvalue⟩ := hagree ["lines", "amount"] (by simp)
    exact sum_next_congr hnext hvalue
  | line =>
    obtain ⟨rfl, rfl⟩ : n = "order_total" ∧ deps = [["order", "total"]] := by
      simpa [shop, Schema.stored, Field.dependsOn] using hn
    obtain ⟨hnext, hvalue⟩ := hagree ["order", "total"] (by simp)
    exact sum_next_congr hnext hvalue

theorem shop_inputs (m : Shop) : ∀ f ∈ shop.fields m, f.inputs = [] ∧ f.conditions = [] ∧ f.toField = none := by
  cases m <;> simp [shop, Field.inputs, Field.conditions, Field.toField]

theorem shop_plainInputs : shop.PlainInputs where
  columns m f hf n hn := by
    obtain ⟨hinputs, hconditions, -⟩ := shop_inputs m f hf
    rw [hinputs, hconditions] at hn
    cases hn
  conditions m f hf n hn := by
    rw [(shop_inputs m f hf).2.1] at hn
    cases hn

theorem shop_primaryKeys : shop.PrimaryKeys := fun m f hf => (shop_inputs m f hf).2.2

def shopOrder : Row String ℕ ℤ := ⟨fun _ => 0, fun _ => none, fun _ => ∅⟩

def shopLine (order : ℕ) (amount : ℤ) : Row String ℕ ℤ :=
  ⟨fun n => if n = "amount" then amount else 0, fun n => if n = "order" then some order else none,
    fun _ => ∅⟩

/-- Two orders, two lines of the first one; then, in an inner block, a line goes to the second order. -/
def shopEvents : List (Event Shop String ℕ ℤ) :=
  [.create .order ((Table.empty.insert 1 shopOrder).insert 2 shopOrder),
    .create .line ((Table.empty.insert 10 (shopLine 1 5)).insert 11 (shopLine 1 7)),
    .enter, .update .line {11} {"order_id"} (fun _ => shopLine 2 0), .leave true,
    .update .line {10} {"amount"} (fun _ => shopLine 0 6)]

theorem shop_noticed (s : State Shop String ℕ ℤ) (e : Event Shop String ℕ ℤ) : e.Noticed shop s := by
  cases e with
  | update m pks names values =>
    refine updates_updateRows.notices shop_plainInputs ?_
    rintro root path f hends ⟨n, hn, -⟩
    rw [(shop_inputs m f hends.mem).2.1] at hn
    cases hn
  | _ => exact True.intro

theorem consistent_on_exit_sample : ∃ reg s s', build shop = .ok reg ∧
    Run (fun s e s' => Declares shop reg s e s' ∧ e.Noticed shop s) ⟨fun _ => .empty, Pending.empty, 1⟩ shopEvents s ∧
    s.exit shop reg false = some s' ∧ s'.depth = 0 ∧ shop.Consistent s'.db := by
  obtain ⟨reg, hb⟩ : ∃ reg, build shop = .ok reg := ⟨_, rfl⟩
  have hempty : shop.Consistent (fun _ => .empty) := by
    intro m n deps _ k row hrow
    simp at hrow
  have hrun : ∃ s, Run (Declares shop reg) ⟨fun _ => .empty, Pending.empty, 1⟩ shopEvents s ∧
      s.depth = 1 := by
    refine ⟨_, .cons (.create _ _ _ ?_) (.cons (.create _ _ _ ?_) (.cons (.enter _)
      (.cons (.update _ _ _ _ _ ?_) (.cons (.leave ?_ rfl) (.cons (.update _ _ _ _ _ ?_) (.nil _)))))), ?_⟩
    · exact fun k _ => rfl
    · exact fun k _ => rfl
    · unfold Schema.Writable
      decide
    · exact Nat.le_refl 2
    · unfold Schema.Writable
      decide
    · rfl
  obtain ⟨s, hr, hdepth⟩ := hrun
  have hr' := hr.mono fun s e s' h => And.intro h (shop_noticed s e)
  obtain ⟨s', h⟩ := consistent_on_exit shop_readsOnly shop_plainInputs shop_primaryKeys hb hempty hr' hdepth
  exact ⟨reg, s, s', hb, hr', h⟩

/-! ### Clients and invoices -/

inductive Ledger
  | client
  | invoice
deriving DecidableEq

/-- Nothing is due once the status is 1, else the total. -/
def amountDue : List (ℤ ⊕ Option ℕ) → ℤ
  | [.inl total, .inl status] => if status = 1 then 0 else total
  | _ => 0

/-- The balance of a client is what is due of its invoices, `Case(When(status=1, then=0), default=F("total"))`. -/
def ledger : Schema Ledger String ℕ ℤ where
  models := [.client, .invoice]
  fields
    | .client => [⟨"balance", .computed [["invoices", "due"]] true⟩]
    | .invoice => [⟨"client", .foreignKey .client "client_id" none .cascade (some "invoices")⟩, ⟨"status", .column⟩,
        ⟨"total", .column⟩, ⟨"due", .generated ["total"] ["status"] amountDue⟩]
  maxHops := 4
  compute _ _ db k := ∑ y ∈ next db .client (.reverse true .invoice "client") k,
    ((db .invoice).get y).elim 0 fun row => amountDue [.inl (row.col "total"), .inl (row.col "status")]
  equals _ _ _ _ := false
  mem_models m := by cases m <;> decide
  names_nodup m := by cases m <;> decide

def ledgerInvoice : Row String ℕ ℤ :=
  ⟨fun n => if n = "total" then 5 else 0, fun n => if n = "client" then some 1 else none, fun _ => ∅⟩

def ledgerDb : Db Ledger String ℕ ℤ
  | .client => Table.empty.insert 1 ⟨fun _ => 5, fun _ => none, fun _ => ∅⟩
  | .invoice => Table.empty.insert 10 ledgerInvoice

/-- The invoice once it is paid. -/
def ledgerPaid : Row String ℕ ℤ := ⟨fun _ => 1, fun _ => none, fun _ => ∅⟩

theorem ledger_stored {m : Ledger} {n : String} {deps : List (List String)} (hn : (n, deps) ∈ ledger.stored m) :
    m = .client ∧ n = "balance" ∧ deps = [["invoices", "due"]] := by
  cases m with
  | client => simpa [ledger, Schema.stored, Field.dependsOn] using hn
  | invoice => simp [ledger, Schema.stored, Field.dependsOn] at hn

theorem ledger_readsOnly : ledger.ReadsOnly := by
  intro m n deps hn db db' k _ _ hagree
  obtain ⟨rfl, rfl, rfl⟩ := ledger_stored hn
  obtain ⟨hnext, hvalue⟩ := hagree ["invoices", "due"] (by simp)
  exact sum_next_congr hnext hvalue

/-- A generated column reads the total and the status. -/
theorem ledger_reads {m : Ledger} {f : Field Ledger String ℕ ℤ} (hf : f ∈ ledger.fields m) {n : String}
    (hn : n ∈ f.inputs ++ f.conditions) : m = .invoice ∧ (n = "total" ∨ n = "status") := by
  cases m with
  | client =>
    obtain rfl := List.mem_singleton.mp hf
    simp [Field.inputs, Field.conditions] at hn
  | invoice =>
    simp only [ledger, List.mem_cons, List.not_mem_nil, or_false] at hf
    rcases hf with rfl | rfl | rfl | rfl <;> simp_all [Field.inputs, Field.conditions]

theorem ledger_plainInputs : ledger.PlainInputs where
  columns m f hf n hn g hg := by
    obtain ⟨rfl, rfl | rfl⟩ := ledger_reads hf hn <;> cases hg <;> rfl
  conditions m f hf n hn hstored := by
    obtain ⟨rfl, -⟩ := ledger_reads hf (List.mem_append_right _ hn)
    obtain ⟨deps, hdeps⟩ := Schema.isStored_iff.mp hstored
    cases (ledger_stored hdeps).1

theorem ledger_primaryKeys : ledger.PrimaryKeys := by
  intro m f hf
  cases m <;> simp only [ledger, List.mem_cons, List.not_mem_nil, or_false] at hf
  · rw [hf]
    rfl
  · rcases hf with rfl | rfl | rfl | rfl <;> rfl

/-- **A write that leaves a stale balance.**  The status of an invoice is read in a condition only, and is not watched
for what is due. -/
theorem write_leaves_stale : ∃ reg s s', build ledger = .ok reg ∧ ledger.ReadsOnly ∧ ledger.PlainInputs ∧
    ledger.PrimaryKeys ∧ ledger.Consistent ledgerDb ∧
    Run (Declares ledger reg) ⟨ledgerDb, Pending.empty, 1⟩
      [.update .invoice {10} {"status"} fun _ => ledgerPaid] s ∧ s.depth = 1 ∧
    s.exit ledger reg false = some s' ∧ ¬ ledger.Consistent s'.db := by
  obtain ⟨reg, hb, hunwatched⟩ : ∃ reg, build ledger = .ok reg ∧
      reg.bindings.all (fun b => decide (b.watched = .invoice → ¬ (b.triggers ∩ {"status"}).Nonempty)) = true :=
    ⟨_, rfl, rfl⟩
  have hcons : ledger.Consistent ledgerDb := by
    intro m n deps hn k row hrow
    obtain ⟨rfl, rfl, -⟩ := ledger_stored hn
    obtain ⟨rfl, rfl⟩ := Table.get_insert_empty.mp hrow
    decide
  have hwrite : ∀ n ∈ ({"status"} : Finset String), ledger.isStored .invoice n = false := by decide
  set db' := ledger.updateRows ledgerDb .invoice {10} {"status"} fun _ => ledgerPaid with hdb'
  have hqueued : declareUpdate ledger reg ledgerDb db' .invoice {10} {"status"} Pending.empty = Pending.empty :=
    declareUpdate_of_unwatched fun b hb => of_decide_eq_true (List.all_eq_true.mp hunwatched b hb)
  refine ⟨reg, _, ⟨db', Pending.empty, 0⟩, hb, ledger_readsOnly, ledger_plainInputs, ledger_primaryKeys, hcons,
    .cons (.update _ _ _ _ _ hwrite) (.nil _), rfl, ?_, ?_⟩
  · simp [State.exit, ← hdb', hqueued, flush_empty]
  · intro h
    have hrow : (db' .client).get 1 = some ⟨fun _ => 5, fun _ => none, fun _ => ∅⟩ := rfl
    have hstale : (5 : ℤ) = 0 := h .client "balance" [["invoices", "due"]] List.mem_cons_self 1 _ hrow
    cases hstale

end Sample

end Totem.Computed
