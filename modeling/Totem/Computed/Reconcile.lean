import Totem.Computed.Flush

/-!
# Totem.Computed.Reconcile — `refresh_computed` on a database with stale columns

* `flush_stale`: a flush repairs what is queued, and leaves what else is stale as stale as it was.
* `refreshed_unique`: there is one way to have every stored field right.
* `refresh_computed_reconciles`: on all the rows of every model, in any order.
-/

namespace Totem.Computed

open Totem.Lib

section Reconcile

variable {M N K V : Type*} [DecidableEq M] [DecidableEq N] [DecidableEq K]

/-- What `refresh_computed` can raise; `endless` is a flush that does not end. -/
inductive RefreshError (M N : Type*)
  /-- `FieldError`: not a stored `ComputedField` on the model. -/
  | notStored (name : N) (model : M)
  | endless

/-- `names or tuple(registry)`: all the stored fields by default. -/
def refreshedNames (S : Schema M N K V) (m : M) (names : List N) : List N :=
  if names = [] then (S.stored m).map Prod.fst else names

/-- `refresh_computed`, on the rows `pks` of a queryset of `m`. -/
def refreshComputed (S : Schema M N K V) (reg : Registry M N) (db : Db M N K V) (m : M) (pks : Finset K)
    (names : List N) : Except (RefreshError M N) (Db M N K V) :=
  let names := refreshedNames S m names
  match names.find? fun n => !S.isStored m n with
  | some n => .error (.notStored n m)
  | none =>
    match (Queue.empty.refresh m pks names).flush S reg db with
    | none => .error .endless
    | some s => .ok s.db

/-- `refresh_computed()` on all the rows of the models, one after the other. -/
def refreshAll (S : Schema M N K V) (reg : Registry M N) (ms : List M) (db : Db M N K V) :
    Except (RefreshError M N) (Db M N K V) :=
  ms.foldlM (fun db m => refreshComputed S reg db m (db m).keys []) db

variable {S : Schema M N K V} {reg : Registry M N} {db db' db'' : Db M N K V} {m : M} {pks : Finset K}
variable {names : List N} {q : Queue M N K} {f : M × N} {k : K} {level : ℕ} {stale : Pending M N K}
variable {fields : List (M × N)} {popped : Pending M N K} {s : FlushState M N K V}

/-! ## Rounds -/

theorem flushModels_keys (hb : build S = .ok reg)
    (hfields : ∀ f ∈ fields, S.isStored f.1 f.2 = true ∧ reg.depthOf f = level) (ms : List M)
    (hdeep : ∀ f ∈ s.queue.keys, S.isStored f.1 f.2 = true ∧ level < reg.depthOf f) :
    ∀ f ∈ (ms.foldl (Queue.flushModel S reg fields popped) s).queue.keys,
      S.isStored f.1 f.2 = true ∧ level < reg.depthOf f := by
  induction ms generalizing s with
  | nil => exact hdeep
  | cons m ms ih => exact ih (flushModel_keys hb hfields hdeep)

theorem keys_flushLevel (hb : build S = .ok reg) (hkeys : ∀ f ∈ s.queue.keys, S.isStored f.1 f.2 = true)
    (hlevel : (s.queue.keys.map reg.depthOf).min? = some level) :
    ∀ f ∈ (Queue.flushLevel S reg level s).queue.keys, S.isStored f.1 f.2 = true := by
  have hlow : ∀ f ∈ s.queue.keys, S.isStored f.1 f.2 = true ∧ level ≤ reg.depthOf f := fun f hf =>
    ⟨hkeys f hf, (List.min?_eq_some_iff.mp hlevel).2 _ (List.mem_map_of_mem hf)⟩
  exact fun f hf => (flushModels_keys hb (levelFields_level hlow) _ (pop_keys hlow) f hf).1

/-- What every round keeps, the loop keeps. -/
theorem flushLoop_rule (hb : build S = .ok reg) {P : FlushState M N K V → Prop}
    (hround : ∀ s level, (∀ f ∈ s.queue.keys, S.isStored f.1 f.2 = true ∧ level ≤ reg.depthOf f) → P s →
      P (Queue.flushLevel S reg level s)) {fuel : ℕ} {s s' : FlushState M N K V}
    (hs' : Queue.flushLoop S reg fuel s = some s') (hkeys : ∀ f ∈ s.queue.keys, S.isStored f.1 f.2 = true)
    (h : P s) : P s' ∧ s'.queue.keys = [] := by
  induction fuel generalizing s with
  | zero => cases hs'
  | succ fuel ih =>
    unfold Queue.flushLoop at hs'
    split at hs'
    · rename_i hnone
      rw [List.min?_eq_none_iff, List.map_eq_nil_iff] at hnone
      obtain rfl := Option.some.inj hs'
      exact ⟨h, hnone⟩
    · rename_i level hlevel
      refine ih hs' (keys_flushLevel hb hkeys hlevel) (hround s level (fun f hf => ⟨hkeys f hf, ?_⟩) h)
      exact (List.min?_eq_some_iff.mp hlevel).2 _ (List.mem_map_of_mem hf)

namespace Queue

/-- A refresh changes stored fields and nothing else. -/
theorem refreshed_flushModel (hfields : ∀ f ∈ fields, S.isStored f.1 f.2 = true) (m : M) :
    Refreshed S s.db (flushModel S reg fields popped s m).db :=
  refreshed_bulkRefreshFields fun n hn => hfields (m, n) (mem_namesOf.mp hn)

theorem refreshed_flushModels (hfields : ∀ f ∈ fields, S.isStored f.1 f.2 = true) (ms : List M) :
    Refreshed S s.db (ms.foldl (flushModel S reg fields popped) s).db := by
  induction ms generalizing s with
  | nil => exact .refl s.db
  | cons m ms ih => exact (refreshed_flushModel hfields m).trans ih

theorem refreshed_flushLevel (hkeys : ∀ f ∈ s.queue.keys, S.isStored f.1 f.2 = true ∧ level ≤ reg.depthOf f) :
    Refreshed S s.db (flushLevel S reg level s).db :=
  refreshed_flushModels (s := { s with queue := s.queue.pop (levelFields reg level s.queue) })
    (fun f hf => (levelFields_level hkeys f hf).1) _

end Queue

/-! ## Repaired, or as stale as it was -/

/-- **The refresh of one model** in a round, with `stale` rows that nobody queued. -/
theorem flushModel_stale (hread : S.ReadsStored) (hb : build S = .ok reg) (hfollows : S.Follows s.db)
    (hfields : ∀ f ∈ fields, S.isStored f.1 f.2 = true ∧ reg.depthOf f = level) {ms : List M}
    (hm : m ∉ ms)
    (h : S.ConsistentBut (fun f => s.queue.rows f ∪ (remaining fields popped (m :: ms) f ∪ stale f)) s.db) :
    S.ConsistentBut
      (fun f => (Queue.flushModel S reg fields popped s m).queue.rows f ∪
        (remaining fields popped ms f ∪ stale f))
      (Queue.flushModel S reg fields popped s m).db := by
  unfold Queue.flushModel
  dsimp only
  rw [Queue.rows_modified]
  refine (Schema.ConsistentBut.refresh hread hb hfollows (namesOf_level hfields m) h).mono fun f => ?_
  apply Finset.union_subset_union_right
  rw [remaining_cons hm]
  intro k hk
  split_ifs at hk ⊢ with hf
  · -- the rows popped for the field are all refreshed
    obtain ⟨hk, hpks⟩ := Finset.mem_sdiff.mp hk
    refine Finset.mem_union_right _ ((Finset.mem_union.mp hk).resolve_left fun hpopped => hpks ?_)
    obtain ⟨m', n⟩ := f
    obtain ⟨rfl, hn⟩ := hf
    unfold remaining at hpopped
    split_ifs at hpopped
    · exact mem_poppedRows.mpr ⟨n, hn, hpopped⟩
    · exact absurd hpopped (Finset.notMem_empty k)
  · exact hk

theorem flushModels_stale (hread : S.ReadsStored) (hb : build S = .ok reg) (hfollows : S.Follows s.db)
    (hfields : ∀ f ∈ fields, S.isStored f.1 f.2 = true ∧ reg.depthOf f = level) {ms : List M}
    (hms : ms.Nodup)
    (h : S.ConsistentBut (fun f => s.queue.rows f ∪ (remaining fields popped ms f ∪ stale f)) s.db) :
    S.ConsistentBut (fun f => (ms.foldl (Queue.flushModel S reg fields popped) s).queue.rows f ∪ stale f)
      (ms.foldl (Queue.flushModel S reg fields popped) s).db := by
  induction ms generalizing s with
  | nil => exact h.mono fun f => by simp [remaining]
  | cons m ms ih =>
    obtain ⟨hm, hms⟩ := List.nodup_cons.mp hms
    have hfollows' : S.Follows (Queue.flushModel S reg fields popped s m).db :=
      hfollows.refreshed (Queue.refreshed_flushModel (fun f hf => (hfields f hf).1) m)
    exact ih hfollows' hms (flushModel_stale hread hb hfollows hfields hm h)

/-- **A round.** -/
theorem flushLevel_stale (hread : S.ReadsStored) (hb : build S = .ok reg) (hfollows : S.Follows s.db)
    (hkeys : ∀ f ∈ s.queue.keys, S.isStored f.1 f.2 = true ∧ level ≤ reg.depthOf f)
    (h : S.ConsistentBut (fun f => s.queue.rows f ∪ stale f) s.db) :
    S.ConsistentBut (fun f => (Queue.flushLevel S reg level s).queue.rows f ∪ stale f)
      (Queue.flushLevel S reg level s).db := by
  refine flushModels_stale (s := { s with queue := s.queue.pop (levelFields reg level s.queue) }) hread hb hfollows
    (levelFields_level hkeys) (nodup_firsts _) (h.mono fun f => ?_)
  rw [← Finset.union_assoc]
  exact Finset.union_subset_union_left (pop_rows_union reg level).ge

/-- **A flush** ends; what was queued is right after it, and what else was stale may still be. -/
theorem flush_stale (hread : S.ReadsStored) (hb : build S = .ok reg) (hfollows : S.Follows db)
    (hq : ∀ f ∈ q.keys, S.isStored f.1 f.2 = true) (hs : q.flush S reg db = some s)
    (h : S.ConsistentBut (fun f => q.rows f ∪ stale f) db) : S.ConsistentBut stale s.db := by
  obtain ⟨⟨hs, -⟩, hempty⟩ := flushLoop_rule hb
    (P := fun s => S.ConsistentBut (fun f => s.queue.rows f ∪ stale f) s.db ∧ S.Follows s.db)
    (fun s level hkeys hs =>
      ⟨flushLevel_stale hread hb hs.2 hkeys hs.1, hs.2.refreshed (Queue.refreshed_flushLevel hkeys)⟩)
    hs hq ⟨h, hfollows⟩
  refine hs.mono fun f => ?_
  rw [s.queue.rows_eq f (by simp [hempty]), Finset.empty_union]

/-! ## What a flush leaves as it is -/

/-- **A flush** changes stored fields and nothing else. -/
theorem flush_refreshed (hb : build S = .ok reg) (hq : ∀ f ∈ q.keys, S.isStored f.1 f.2 = true)
    (hs : q.flush S reg db = some s) : Refreshed S db s.db := by
  refine (flushLoop_rule hb (P := fun s => Refreshed S db s.db) (fun s level hkeys hs => ?_) hs hq
    (.refl db)).1
  exact hs.trans (Queue.refreshed_flushLevel hkeys)

/-- Where every stored field is right, writing it writes what is there. -/
theorem writeComputed_of_consistent (hc : S.Consistent db) (hnames : ∀ n ∈ names, S.isStored m n = true) :
    writeComputed S db m pks names = db := by
  unfold writeComputed
  rw [Function.update_eq_self_iff]
  ext1 k
  rw [Table.get_map]
  cases hrow : (db m).get k with
  | none => rfl
  | some row =>
    rw [Option.map_some]
    split_ifs with hk
    · obtain ⟨col, key, many⟩ := row
      congr 2
      funext n
      split_ifs with hn
      · obtain ⟨deps, hdeps⟩ := Schema.isStored_iff.mp (hnames n hn)
        exact (hc m n deps hdeps k _ hrow).symm
      · rfl
    · rfl

theorem flushModels_of_consistent (hfields : ∀ f ∈ fields, S.isStored f.1 f.2 = true) (ms : List M)
    (hc : S.Consistent s.db) : (ms.foldl (Queue.flushModel S reg fields popped) s).db = s.db := by
  induction ms generalizing s with
  | nil => rfl
  | cons m ms ih =>
    have hnames : ∀ n ∈ namesOf fields m, S.isStored m n = true := fun n hn =>
      hfields (m, n) (mem_namesOf.mp hn)
    have hstep : (Queue.flushModel S reg fields popped s m).db = s.db := by
      show bulkRefreshFields S s.db m _ _ = s.db
      unfold bulkRefreshFields
      dsimp only
      rw [writeComputed_of_consistent hc fun n hn => hnames n (List.mem_of_mem_filter hn),
        writeComputed_of_consistent hc fun n hn => hnames n (List.mem_of_mem_filter hn)]
    exact (ih (hstep.symm ▸ hc)).trans hstep

/-- **A flush** of a database in which every stored field is right changes nothing. -/
theorem flush_of_consistent (hb : build S = .ok reg) (hq : ∀ f ∈ q.keys, S.isStored f.1 f.2 = true)
    (hs : q.flush S reg db = some s) (hc : S.Consistent db) : s.db = db := by
  refine (flushLoop_rule hb (P := fun s => s.db = db) (fun s level hkeys hs => ?_) hs hq rfl).1
  exact (flushModels_of_consistent (s := { s with queue := s.queue.pop (levelFields reg level s.queue) })
    (fun f hf => (levelFields_level hkeys f hf).1) _ (hs.symm ▸ hc)).trans hs

/-! ## One result -/

variable {db₁ db₂ : Db M N K V}

omit [DecidableEq M] [DecidableEq K] in
theorem Refreshed.keys (h : Refreshed S db db') (m : M) : (db' m).keys = (db m).keys := by
  ext k
  have hlinks := congrArg Option.isSome (h.links m k)
  rw [Option.isSome_map, Option.isSome_map] at hlinks
  rw [(db' m).mem_keys, (db m).mem_keys, hlinks]

/-- Two refreshes of one database agree on a dependency, where they do on the stored fields it reads. -/
theorem agree_of_refreshed (hb : build S = .ok reg) (hfollows : S.Follows db) (h₁ : Refreshed S db db₁)
    (h₂ : Refreshed S db db₂) {root : M × N} {deps : List (List N)} (hdeps : (root.2, deps) ∈ S.stored root.1)
    {dep rest : List N} (hdep : dep ∈ deps)
    {path : List (Hop M N)} {x : K} (hcross : S.Crosses root.1 dep path m rest)
    (hcol : ∀ g, S.PathReads m rest g → ∀ k row₁ row₂, (db₁ g.1).get k = some row₁ →
      (db₂ g.1).get k = some row₂ → row₁.col g.2 = row₂.col g.2) : S.Agree db₁ db₂ m x rest := by
  induction rest generalizing m x path with
  | nil => trivial
  | cons name rest ih =>
    unfold Schema.Agree
    unfold Schema.PathReads at hcol
    cases hl : S.getField m name with
    | none => trivial
    | some l =>
      dsimp only
      rw [hl] at hcol
      dsimp only at hcol
      cases hhop : l.hop with
      | some h =>
        rw [hhop] at hcol
        refine ⟨next_congr (fun m k => (h₁.links m k).trans (h₂.links m k).symm) h x, fun y _ => ?_⟩
        exact ih (hcross.hop hl hhop) hcol
      | none =>
        rw [hhop] at hcol
        cases hrow : (db m).get x with
        | none => rw [h₁.gone m x hrow, h₂.gone m x hrow]
        | some row =>
          obtain ⟨row₁, hrow₁, hkey₁, -, hcol₁⟩ := h₁.rows m x row hrow
          obtain ⟨row₂, hrow₂, hkey₂, -, hcol₂⟩ := h₂.rows m x row hrow
          rw [hrow₁, hrow₂, Option.map_some, Option.map_some]
          have hends := hcross.endsOn hb hdeps hdep hl hhop
          have hread : ∀ n, l.field.name = n ∨ n ∈ l.field.inputs ++ l.field.conditions → row₁.col n = row₂.col n := by
            intro n hn
            cases hstored : S.isStored m n with
            | false => rw [hcol₁ n hstored, hcol₂ n hstored]
            | true =>
              have hinputs : l.field.name = n ∨ n ∈ l.field.inputs := hn.imp_right fun hn =>
                (List.mem_append.mp hn).elim id fun hn => hfollows.named root path m _ hends n hn hstored
              exact hcol (m, n) ⟨rfl, hstored, hinputs⟩ x row₁ row₂ hrow₁ hrow₂
          refine congrArg some (Schema.value_congr (hread _ (.inl rfl)) fun n hn => ?_)
          exact Schema.cell_congr (fun g _ _ => by rw [hkey₁, hkey₂]) (hread n (.inr hn))

/-- **One result.**  A database has one refresh in which every stored field is right. -/
theorem refreshed_unique (hread : S.ReadsStored) (hb : build S = .ok reg) (hfollows : S.Follows db)
    (h₁ : Refreshed S db db₁) (h₂ : Refreshed S db db₂) (hc₁ : S.Consistent db₁) (hc₂ : S.Consistent db₂) :
    db₁ = db₂ := by
  have hstored : ∀ d f, reg.depthOf f = d → S.isStored f.1 f.2 = true → ∀ k row₁ row₂,
      (db₁ f.1).get k = some row₁ → (db₂ f.1).get k = some row₂ → row₁.col f.2 = row₂.col f.2 := by
    intro d
    induction d using Nat.strong_induction_on with
    | _ d ih =>
      intro f hf hst k row₁ row₂ hrow₁ hrow₂
      obtain ⟨deps, hdeps⟩ := Schema.isStored_iff.mp hst
      rw [hc₁ f.1 f.2 deps hdeps k row₁ hrow₁, hc₂ f.1 f.2 deps hdeps k row₂ hrow₂]
      refine hread f.1 f.2 deps hdeps db₁ db₂ k (h₁.symm.trans h₂) (by simp [hrow₁]) fun dep hdep => ?_
      refine agree_of_refreshed hb hfollows h₁ h₂ hdeps hdep .start fun g hg => ?_
      have hlt := depth_of_reads hb (f := f) ⟨deps, hdeps, dep, hdep, hg⟩
      exact ih (reg.depthOf g) (hf ▸ hlt) g rfl hg.isStored
  funext m
  ext1 k
  cases hrow : (db m).get k with
  | none => rw [h₁.gone m k hrow, h₂.gone m k hrow]
  | some row =>
    obtain ⟨⟨col₁, key₁, many₁⟩, hrow₁, rfl, rfl, hcol₁⟩ := h₁.rows m k row hrow
    obtain ⟨⟨col₂, key₂, many₂⟩, hrow₂, rfl, rfl, hcol₂⟩ := h₂.rows m k row hrow
    rw [hrow₁, hrow₂]
    congr 2
    funext n
    cases hst : S.isStored m n with
    | true => exact hstored _ (m, n) rfl hst k _ _ hrow₁ hrow₂
    | false => exact (hcol₁ n hst).trans (hcol₂ n hst).symm

/-- **The same flush**: with nothing stale but what is queued, the order of the models does not matter, nor
do the entries without rows. -/
theorem queue_flush_eq (hread : S.ReadsStored) (hb : build S = .ok reg) (hfollows : S.Follows db)
    (hq : ∀ f ∈ q.keys, S.isStored f.1 f.2 = true) (h : S.ConsistentBut q.rows db) :
    (q.flush S reg db).map FlushState.db = (flush S reg (db, q.rows)).map Prod.fst := by
  obtain ⟨s, -, hs, -⟩ := flush_progress hb db hq
  obtain ⟨s', hs', hc'⟩ := flush_consistent hread hb hfollows h
  have hc : S.ConsistentBut Pending.empty s.db :=
    flush_stale hread hb hfollows hq hs (h.mono fun f => by simp [Pending.empty])
  have heq : s.db = s'.1 := refreshed_unique hread hb hfollows (flush_refreshed hb hq hs) (refreshed_flushLoop hs')
    (fun m n deps hn k row hrow => hc m n deps hn k row hrow (Finset.notMem_empty k)) hc'
  rw [hs, hs', Option.map_some, Option.map_some, heq]

/-! ## `refresh_computed` -/

theorem mem_keys_refresh : f ∈ (q.refresh m pks names).keys ↔ f ∈ q.keys ∨ f.1 = m ∧ f.2 ∈ names := by
  unfold Queue.refresh
  induction names generalizing q with
  | nil => simp
  | cons n names ih =>
    rw [List.foldl_cons, ih, Queue.mem_keys_update, or_assoc]
    apply or_congr_right
    rw [List.mem_cons, and_or_left, Prod.ext_iff]

theorem mem_rows_refresh :
    k ∈ (q.refresh m pks names).rows f ↔ k ∈ q.rows f ∨ (f.1 = m ∧ f.2 ∈ names) ∧ k ∈ pks := by
  unfold Queue.refresh
  induction names generalizing q with
  | nil => simp
  | cons n names ih =>
    rw [List.foldl_cons, ih]
    show k ∈ q.rows.add (m, n) pks f ∨ _ ↔ _
    rw [Pending.mem_add, or_assoc]
    apply or_congr_right
    rw [← or_and_right, List.mem_cons, and_or_left, Prod.ext_iff]

omit [DecidableEq M] [DecidableEq K] in
theorem refreshedNames_stored (h : ∀ n ∈ names, S.isStored m n = true) :
    ∀ n ∈ refreshedNames S m names, S.isStored m n = true := by
  intro n hn
  unfold refreshedNames at hn
  split_ifs at hn
  · obtain ⟨x, hx, rfl⟩ := List.mem_map.mp hn
    exact Schema.isStored_iff.mpr ⟨x.2, hx⟩
  · exact h n hn

/-- **One call** ends in the flush of what it queued. -/
theorem refreshComputed_eq (hb : build S = .ok reg) (db : Db M N K V) (pks : Finset K) (names : List N)
    (h : ∀ n ∈ names, S.isStored m n = true) :
    ∃ s, (Queue.empty.refresh m pks (refreshedNames S m names)).flush S reg db = some s ∧
      (∀ f ∈ (Queue.empty.refresh m pks (refreshedNames S m names)).keys, S.isStored f.1 f.2 = true) ∧
      refreshComputed S reg db m pks names = .ok s.db := by
  have hnames := refreshedNames_stored h
  have hq : ∀ f ∈ (Queue.empty.refresh m pks (refreshedNames S m names)).keys,
      S.isStored f.1 f.2 = true := by
    intro f hf
    rcases mem_keys_refresh.mp hf with hf | ⟨rfl, hn⟩
    · cases hf
    · exact hnames f.2 hn
  obtain ⟨s, -, hs, -⟩ := flush_progress hb db hq
  have hfind : (refreshedNames S m names).find? (fun n => !S.isStored m n) = none :=
    List.find?_eq_none.mpr fun n hn => by simp [hnames n hn]
  refine ⟨s, hs, hq, ?_⟩
  unfold refreshComputed
  dsimp only
  rw [hfind, hs]

/-- The rows of the models `ms`. -/
def rowsOf (db : Db M N K V) (ms : List M) : Pending M N K := fun f => if f.1 ∈ ms then (db f.1).keys else ∅

/-- **One model repaired**, and those before it still right. -/
theorem refreshComputed_stale (hread : S.ReadsStored) (hb : build S = .ok reg) (hfollows : S.Follows db) {ms : List M}
    (h : S.ConsistentBut (rowsOf db (m :: ms)) db) :
    ∃ db', refreshComputed S reg db m (db m).keys [] = .ok db' ∧ Refreshed S db db' ∧
      S.ConsistentBut (rowsOf db' ms) db' := by
  obtain ⟨s, hs, hq, heq⟩ := refreshComputed_eq hb db (db m).keys [] (by simp)
  have hrefreshed := flush_refreshed hb hq hs
  have hrows : rowsOf s.db ms = rowsOf db ms := by
    funext f
    unfold rowsOf
    rw [hrefreshed.keys]
  refine ⟨s.db, heq, hrefreshed, ?_⟩
  rw [hrows]
  refine flush_stale hread hb hfollows hq hs fun m' n deps hn k row hrow hk =>
    h m' n deps hn k row hrow fun hmem => hk ?_
  have hkeys : k ∈ (db m').keys := Table.mem_keys_of_get hrow
  rw [Finset.mem_union, mem_rows_refresh]
  unfold rowsOf at hmem ⊢
  split_ifs at hmem with hms
  · rcases List.mem_cons.mp hms with rfl | hms
    · exact .inl (.inr ⟨⟨rfl, List.mem_map.mpr ⟨_, hn, rfl⟩⟩, hkeys⟩)
    · exact .inr (by rwa [if_pos hms])
  · exact absurd hmem (Finset.notMem_empty k)

theorem refreshAll_consistent (hread : S.ReadsStored) (hb : build S = .ok reg) (hfollows : S.Follows db) {ms : List M}
    (h : S.ConsistentBut (rowsOf db ms) db) :
    ∃ db', refreshAll S reg ms db = .ok db' ∧ Refreshed S db db' ∧ S.Consistent db' := by
  induction ms generalizing db with
  | nil => exact ⟨db, rfl, .refl db, fun m n deps hn k row hrow => h m n deps hn k row hrow (by simp [rowsOf])⟩
  | cons m ms ih =>
    obtain ⟨db₁, hdb₁, hrefreshed₁, h₁⟩ := refreshComputed_stale hread hb hfollows h
    obtain ⟨db₂, hdb₂, hrefreshed₂, hc⟩ := ih (hfollows.refreshed hrefreshed₁) h₁
    refine ⟨db₂, ?_, hrefreshed₁.trans hrefreshed₂, hc⟩
    unfold refreshAll at hdb₂ ⊢
    rw [List.foldlM_cons, hdb₁]
    exact hdb₂

omit [DecidableEq N] [DecidableEq K] in
/-- Any database is right but for the rows of the models with stored fields. -/
theorem consistentBut_rowsOf {ms : List M} (hms : ∀ m, S.stored m ≠ [] → m ∈ ms) (db : Db M N K V) :
    S.ConsistentBut (rowsOf db ms) db := by
  intro m n deps hn k row hrow hk
  refine absurd ?_ hk
  unfold rowsOf
  rw [if_pos (hms m (List.ne_nil_of_mem hn))]
  exact Table.mem_keys_of_get hrow

/-- **The order does not matter.** -/
theorem refreshAll_order (hread : S.ReadsStored) (hb : build S = .ok reg) (hfollows : S.Follows db) {ms ms' : List M}
    (hms : ∀ m, S.stored m ≠ [] → m ∈ ms) (hms' : ∀ m, S.stored m ≠ [] → m ∈ ms') :
    refreshAll S reg ms db = refreshAll S reg ms' db := by
  obtain ⟨db₁, hdb₁, hr₁, hc₁⟩ := refreshAll_consistent hread hb hfollows (consistentBut_rowsOf hms db)
  obtain ⟨db₂, hdb₂, hr₂, hc₂⟩ := refreshAll_consistent hread hb hfollows (consistentBut_rowsOf hms' db)
  rw [hdb₁, hdb₂, refreshed_unique hread hb hfollows hr₁ hr₂ hc₁ hc₂]

/-- **Reconciliation.**  From any database in which a refresh is followed, with whatever in its stored columns,
`refresh_computed()` on all the rows of every model with stored fields, in any order, leaves every stored column equal
to its function of the result, and nothing else changed; called again, on any rows and fields, it changes no row. -/
theorem refresh_computed_reconciles (hread : S.ReadsStored) (hb : build S = .ok reg) (hfollows : S.Follows db)
    {ms : List M} (hms : ∀ m, S.stored m ≠ [] → m ∈ ms) :
    ∃ db', refreshAll S reg ms db = .ok db' ∧ Refreshed S db db' ∧ S.Consistent db' ∧
      ∀ m pks names, (∀ n ∈ names, S.isStored m n = true) →
        refreshComputed S reg db' m pks names = .ok db' := by
  obtain ⟨db', hdb', hrefreshed, hc⟩ := refreshAll_consistent hread hb hfollows (consistentBut_rowsOf hms db)
  refine ⟨db', hdb', hrefreshed, hc, fun m pks names hnames => ?_⟩
  obtain ⟨s, hs, hq, heq⟩ := refreshComputed_eq hb db' pks names hnames
  rw [heq, flush_of_consistent hb hq hs hc]

end Reconcile

section Sample

/-- The lines first, then the orders that their totals are copied from. -/
theorem refresh_computed_reconciles_sample : ∃ reg db', build shop = .ok reg ∧
    refreshAll shop reg [.line, .order] staleShop = .ok db' ∧ shop.Consistent db' ∧ ¬ shop.Consistent staleShop := by
  obtain ⟨reg, hb⟩ : ∃ reg, build shop = .ok reg := ⟨_, rfl⟩
  obtain ⟨db', hdb', -, hc, -⟩ := refresh_computed_reconciles shop_readsOnly.stored hb
    (.of_plain shop_plainInputs shop_primaryKeys staleShop) fun m _ => show m ∈ [Shop.line, .order] by cases m <;> simp
  refine ⟨reg, db', hb, hdb', hc, fun hstale => ?_⟩
  have htotal := hstale .order "total" [["lines"], ["lines", "amount"]] (by decide) 1 _ rfl
  revert htotal
  decide

theorem Shop.mem_models (m : Shop) : m ∈ [Shop.order, .line] := by cases m <;> decide

/-- The shop with lines that refer to the number of their order. -/
def numbered : Schema Shop String ℕ ℤ where
  models := [.order, .line]
  fields
    | .order => [⟨"number", .column⟩, ⟨"total", .computed [["lines"], ["lines", "amount"]] true⟩]
    | .line => [⟨"order", .foreignKey .order "order_id" (some "number") .cascade (some "lines")⟩, ⟨"amount", .column⟩,
        ⟨"order_total", .computed [["order", "total"]] false⟩]
  maxHops := 4
  compute := shop.compute
  equals _ _ held k := decide (held = .inl (k : ℤ))
  mem_models := Shop.mem_models
  names_nodup m := by cases m <;> decide

/-- The order 1 has the number 500. -/
def numberedDb : Db Shop String ℕ ℤ
  | .order => Table.empty.insert 1 ⟨fun n => if n = "number" then 500 else 0, fun _ => none, fun _ => ∅⟩
  | .line => Table.empty.insert 10 (shopLine 1 5)

/-- **A total that is not reconciled.**  The line copies a total that is still 0; when it is refreshed to 5, the lines of
the order 1 are looked for under the number 1. -/
theorem refresh_leaves_stale : ∃ reg db', build numbered = .ok reg ∧ numbered.ReadsOnly ∧
    (∀ m, numbered.stored m ≠ [] → m ∈ [Shop.line, .order]) ∧
    refreshAll numbered reg [.line, .order] numberedDb = .ok db' ∧ ¬ numbered.Consistent db' := by
  have hread : numbered.ReadsOnly := by
    intro m n deps hn db db' k _ _ hagree
    cases m with
    | order =>
      obtain ⟨rfl, rfl⟩ : n = "total" ∧ deps = [["lines"], ["lines", "amount"]] := by
        simpa [numbered, Schema.stored, Field.dependsOn] using hn
      obtain ⟨hnext, hvalue⟩ := hagree ["lines", "amount"] (by simp)
      exact sum_next_congr hnext hvalue
    | line =>
      obtain ⟨rfl, rfl⟩ : n = "order_total" ∧ deps = [["order", "total"]] := by
        simpa [numbered, Schema.stored, Field.dependsOn] using hn
      obtain ⟨hnext, hvalue⟩ := hagree ["order", "total"] (by simp)
      exact sum_next_congr hnext hvalue
  refine ⟨_, _, rfl, hread, fun m _ => by cases m <;> simp, rfl, fun hc => ?_⟩
  have hstale := hc .line "order_total" [["order", "total"]] (by decide) 10 _ rfl
  revert hstale
  decide

end Sample

end Totem.Computed
