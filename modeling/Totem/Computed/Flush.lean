import Totem.Computed.Consistency

/-!
# Totem.Computed.Flush — the order of the refreshes

`RefreshComputedFieldsContext.flush` with its `_pending` as the dictionary it is, and a log of what it
refreshes.

* `Queue`: the stored fields queued, in the order they were; an entry may hold no row.
* `Queue.flush`: the loop, every call of `bulk_refresh_fields` added to the log.
* `flush_in_order`: it ends, refreshes a field at most once, and after all that the field reads.
-/

namespace Totem.Computed

open Totem.Lib

/-! ## The dictionary -/

section Queue

variable {M N K V : Type*} [DecidableEq M] [DecidableEq N] [DecidableEq K]

/-- `_pending`: the fields queued, in the order they were, and the rows of each. -/
structure Queue (M N K : Type*) where
  keys : List (M × N)
  rows : Pending M N K
  nodup : keys.Nodup
  rows_eq : ∀ f, f ∉ keys → rows f = ∅

namespace Queue

def empty : Queue M N K where
  keys := []
  rows := Pending.empty
  nodup := List.nodup_nil
  rows_eq _ _ := rfl

/-- `_pending[field].update(pks)`. -/
def update (q : Queue M N K) (f : M × N) (pks : Finset K) : Queue M N K where
  keys := if f ∈ q.keys then q.keys else q.keys ++ [f]
  rows := q.rows.add f pks
  nodup := by
    split_ifs with hf
    · exact q.nodup
    · exact List.nodup_append.mpr ⟨q.nodup, List.nodup_singleton f, by grind⟩
  rows_eq g hg := by
    have hne : g ≠ f := by
      rintro rfl
      split_ifs at hg with hf
      · exact hg hf
      · exact hg (by simp)
    have hkeys : g ∉ q.keys := by
      split_ifs at hg
      · exact hg
      · exact fun h => hg (List.mem_append_left _ h)
    rw [Pending.add, Function.update_of_ne hne, q.rows_eq g hkeys]

/-- `_add`: nothing is queued on no row. -/
def add (q : Queue M N K) (f : M × N) (pks : Finset K) : Queue M N K :=
  if pks = ∅ then q else q.update f pks

/-- `modified`, called after the write. -/
def modified (S : Schema M N K V) (reg : Registry M N) (db : Db M N K V) (m : M) (pks : Finset K)
    (updateFields : Finset N) (q : Queue M N K) : Queue M N K :=
  if pks = ∅ ∨ updateFields = ∅ then q
  else
    ((bindingsFor reg.bindings m).filter fun b =>
      decide (b.triggers ∩ updateFields).Nonempty).foldl
        (fun q b => q.add b.field (roots S db b pks none)) q

/-- `refresh`: an entry is made even on no row. -/
def refresh (m : M) (pks : Finset K) (names : List N) (q : Queue M N K) : Queue M N K :=
  names.foldl (fun q n => q.update (m, n) pks) q

/-- `_pending.pop(field)` for the fields of a round. -/
def pop (q : Queue M N K) (fields : List (M × N)) : Queue M N K where
  keys := q.keys.filter fun f => decide (f ∉ fields)
  rows f := if f ∈ fields then ∅ else q.rows f
  nodup := q.nodup.filter _
  rows_eq f hf := by
    split_ifs with hmem
    · rfl
    · exact q.rows_eq f fun h => hf (List.mem_filter.mpr ⟨h, by simpa using hmem⟩)

end Queue

/-! ## The loop -/

/-- A call of `bulk_refresh_fields`, and the rows that `modified` then queues. -/
structure Refresh (M N K : Type*) where
  model : M
  names : List N
  pks : Finset K
  queued : Pending M N K

def Refresh.fields {M N K : Type*} (c : Refresh M N K) : List (M × N) := c.names.map (Prod.mk c.model)

structure FlushState (M N K V : Type*) where
  db : Db M N K V
  queue : Queue M N K
  log : List (Refresh M N K)

/-- The keys of a dictionary filled in this order. -/
def firsts : List M → List M
  | [] => []
  | m :: ms => m :: (firsts ms).filter fun m' => decide (m' ≠ m)

/-- The fields of a round: those queued, of its depth. -/
def levelFields (reg : Registry M N) (level : ℕ) (q : Queue M N K) : List (M × N) :=
  q.keys.filter fun f => decide (reg.depthOf f = level)

/-- The fields of one model in a round. -/
def namesOf (fields : List (M × N)) (m : M) : List N := (fields.filter fun f => decide (f.1 = m)).map Prod.snd

/-- The rows popped for one of the fields `names` of a model. -/
def poppedRows (popped : Pending M N K) (m : M) (names : List N) : Finset K :=
  names.foldr (fun n s => popped (m, n) ∪ s) ∅

namespace Queue

/-- One model of a round: `fields` are those of the round, `popped` the rows each had. -/
def flushModel (S : Schema M N K V) (reg : Registry M N) (fields : List (M × N)) (popped : Pending M N K)
    (s : FlushState M N K V) (m : M) : FlushState M N K V :=
  let names := namesOf fields m
  let pks := poppedRows popped m names
  let db' := bulkRefreshFields S s.db m pks names
  { db := db'
    queue := s.queue.modified S reg db' m pks names.toFinset
    log := s.log ++ [⟨m, names, pks,
      Totem.Computed.modified S reg db' m pks names.toFinset false Pending.empty⟩] }

/-- One round: the fields queued of the smallest depth, one batch for each model. -/
def flushLevel (S : Schema M N K V) (reg : Registry M N) (level : ℕ) (s : FlushState M N K V) :
    FlushState M N K V :=
  let fields := levelFields reg level s.queue
  (firsts (fields.map Prod.fst)).foldl (flushModel S reg fields s.queue.rows)
    { s with queue := s.queue.pop fields }

def flushLoop (S : Schema M N K V) (reg : Registry M N) :
    ℕ → FlushState M N K V → Option (FlushState M N K V)
  | 0, _ => none
  | fuel + 1, s =>
    match (s.queue.keys.map reg.depthOf).min? with
    | none => some s
    | some level => flushLoop S reg fuel (flushLevel S reg level s)

/-- `flush`; `none` only if the loop did not end. -/
def flush (S : Schema M N K V) (reg : Registry M N) (db : Db M N K V) (q : Queue M N K) :
    Option (FlushState M N K V) :=
  flushLoop S reg (S.storedFields.length + 2) ⟨db, q, []⟩

end Queue

/-! ## What a path reads -/

/-- The stored fields a dependency of `m` reads: the last field of the path, or an input of it outside the conditions. -/
def Schema.PathReads (S : Schema M N K V) (m : M) : List N → M × N → Prop
  | [], _ => False
  | name :: dep, g =>
    match S.getField m name with
    | none => False
    | some l =>
      match l.hop with
      | none => g.1 = m ∧ S.isStored m g.2 = true ∧ (l.field.name = g.2 ∨ g.2 ∈ l.field.inputs)
      | some h => S.PathReads h.target dep g

/-- The stored field `f` reads the stored field `g`. -/
def Schema.Reads (S : Schema M N K V) (f g : M × N) : Prop :=
  ∃ deps, (f.2, deps) ∈ S.stored f.1 ∧ ∃ dep ∈ deps, S.PathReads f.1 dep g

variable {S : Schema M N K V} {reg : Registry M N} {db : Db M N K V} {m : M} {pks : Finset K}
variable {names : List N} {q q₀ : Queue M N K} {f g : M × N} {k : K} {level : ℕ}

omit [DecidableEq K] in
/-- What a path reads is watched. -/
theorem exists_watch_of_pathReads {root : M × N} {dep rest : List N} {left : ℕ} {path : List (Hop M N)}
    {ws : List (Binding M N)} (hws : watches S root dep left m path rest = .ok ws)
    (h : S.PathReads m rest g) : ∃ w ∈ ws, w.watched = g.1 ∧ g.2 ∈ w.triggers := by
  induction rest generalizing left m path ws with
  | nil => exact h.elim
  | cons name rest ih =>
    unfold watches at hws
    unfold Schema.PathReads at h
    split at h
    · exact h.elim
    · rename_i l hl
      rw [hl] at hws
      dsimp only at hws
      split at h
      · rename_i hhop
        rw [hhop] at hws
        dsimp only at hws
        split_ifs at hws
        obtain rfl := Except.ok.inj hws
        obtain ⟨hm, -, hinputs⟩ := h
        exact ⟨_, List.mem_singleton_self _, hm.symm, Field.inputs_subset hinputs⟩
      · rename_i hop hhop
        rw [hhop] at hws
        cases left with
        | zero => cases hws
        | succ left =>
          obtain ⟨ws', hws', hws⟩ := bind_eq_ok.mp hws
          obtain rfl := Except.ok.inj hws
          obtain ⟨w, hw, hwatched⟩ := ih hws' h
          exact ⟨w, List.mem_append_right _ hw, hwatched⟩

omit [DecidableEq K] in
theorem Schema.PathReads.isStored {dep : List N} (h : S.PathReads m dep g) : S.isStored g.1 g.2 = true := by
  induction dep generalizing m with
  | nil => exact h.elim
  | cons name dep ih =>
    unfold PathReads at h
    split at h
    · exact h.elim
    · split at h
      · obtain ⟨hm, hstored, -⟩ := h
        rw [hm]
        exact hstored
      · exact ih h

omit [DecidableEq K] in
/-- **A field is deeper than the stored fields its paths read.** -/
theorem depth_of_reads (hb : build S = .ok reg) (h : S.Reads f g) : reg.depthOf g < reg.depthOf f := by
  obtain ⟨deps, hdeps, dep, hdep, hpath⟩ := h
  obtain ⟨ws, hws, hhas⟩ := build_has hb hdeps dep hdep
  obtain ⟨w, hw, hwatched, htr⟩ := exists_watch_of_pathReads hws hpath
  obtain ⟨b, hbmem, hincl⟩ := hhas w hw
  have hfield : w.field = f := (watches_sane hws w hw).1
  obtain ⟨hbfield, hbwatched, -⟩ := hincl.key
  have hg : (b.watched, g.2) = g := by rw [hbwatched, hwatched]
  have hdepth := build_depth hb hbmem (hincl.triggers htr) (by rw [hbwatched, hwatched]; exact hpath.isStored)
  rwa [hg, hbfield, hfield] at hdepth

omit [DecidableEq K] in
theorem exists_of_mem_merge {bs : List (Binding M N)} {b : Binding M N} (h : b ∈ merge bs) :
    ∃ b' ∈ bs, b'.field = b.field :=
  merge_induct (P := fun b => ∃ b' ∈ bs, b'.field = b.field) (fun _ _ hb _ _ => hb) (fun b hb => ⟨b, hb, rfl⟩) b h

omit [DecidableEq K] in
/-- The registry has bindings of stored fields only. -/
theorem build_stored (hb : build S = .ok reg) {b : Binding M N} (h : b ∈ reg.bindings) :
    S.isStored b.field.1 b.field.2 = true := by
  refine build_induct (P := fun b => S.isStored b.field.1 b.field.2 = true) (fun bs hall b hb => ?_)
    (fun root deps hroot dep _ ws hws b hb => ?_) hb b h
  · obtain ⟨c, hc, hfield⟩ := exists_of_mem_merge hb
    rw [← hfield]
    exact hall c hc
  · obtain ⟨w, hw, hfield⟩ := exists_of_mem_merge hb
    obtain ⟨m, -, hm⟩ := List.mem_flatMap.mp hroot
    obtain ⟨x, hx, hx'⟩ := List.mem_map.mp hm
    obtain ⟨rfl, rfl⟩ := Prod.mk.inj hx'
    rw [← hfield, (watches_sane hws w hw).1]
    exact Schema.isStored_iff.mpr ⟨x.2, hx⟩

/-! ## What an operation of the dictionary does -/

namespace Queue

theorem mem_keys_update : f ∈ (q.update g pks).keys ↔ f ∈ q.keys ∨ f = g := by
  unfold update
  dsimp only
  split_ifs with hg
  · constructor
    · exact .inl
    · rintro (h | rfl)
      · exact h
      · exact hg
  · simp

theorem rows_add (q : Queue M N K) (f : M × N) (pks : Finset K) :
    (q.add f pks).rows = q.rows.add f pks := by
  unfold add
  split_ifs with hpks
  · subst hpks
    rw [Pending.add, Finset.union_empty, Function.update_eq_self]
  · rfl

theorem mem_keys_add (h : f ∈ (q.add g pks).keys) : f ∈ q.keys ∨ f = g ∧ pks.Nonempty := by
  unfold add at h
  split_ifs at h with hpks
  · exact .inl h
  · rcases mem_keys_update.mp h with h | rfl
    · exact .inl h
    · exact .inr ⟨rfl, Finset.nonempty_iff_ne_empty.mpr hpks⟩

theorem rows_foldl_add (bs : List (Binding M N)) (q : Queue M N K) :
    (bs.foldl (fun q b => q.add b.field (roots S db b pks none)) q).rows =
      resolve S db bs pks none q.rows := by
  induction bs generalizing q with
  | nil => rfl
  | cons b bs ih =>
    rw [List.foldl_cons, ih, rows_add]
    rfl

theorem mem_keys_foldl_add {bs : List (Binding M N)}
    (h : f ∈ (bs.foldl (fun q b => q.add b.field (roots S db b pks none)) q).keys) :
    f ∈ q.keys ∨ ∃ b ∈ bs, b.field = f ∧ (roots S db b pks none).Nonempty := by
  induction bs generalizing q with
  | nil => exact .inl h
  | cons b bs ih =>
    rcases ih h with h | ⟨b', hb', hfield⟩
    · rcases mem_keys_add h with h | ⟨rfl, hroots⟩
      · exact .inl h
      · exact .inr ⟨b, List.mem_cons_self, rfl, hroots⟩
    · exact .inr ⟨b', List.mem_cons_of_mem b hb', hfield⟩

/-- The rows queued are those that `modified` finds. -/
theorem rows_modified (q : Queue M N K) (names : Finset N) :
    (q.modified S reg db m pks names).rows =
      Totem.Computed.modified S reg db m pks names false q.rows := by
  unfold modified Totem.Computed.modified
  split_ifs with hempty
  · rfl
  · rw [rows_foldl_add]
    simp

/-- A modification makes an entry for what it queues rows of. -/
theorem mem_keys_modified {names : Finset N} (h : f ∈ (q.modified S reg db m pks names).keys) :
    f ∈ q.keys ∨ (∃ b ∈ reg.bindings, b.field = f) ∧
      (Totem.Computed.modified S reg db m pks names false Pending.empty f).Nonempty := by
  unfold modified at h
  split_ifs at h with hempty
  · exact .inl h
  · refine (mem_keys_foldl_add h).imp_right ?_
    rintro ⟨b, hb, hfield, r, hr⟩
    rw [List.mem_filter, mem_bindingsFor, decide_eq_true_eq] at hb
    obtain ⟨⟨hb, hm⟩, htr⟩ := hb
    exact ⟨⟨b, hb, hfield⟩, r, mem_modified.mpr (.inr ⟨b, hb, hm, hfield, htr, by simp, hr⟩)⟩

end Queue

theorem modified_eq_union {names : Finset N} {p : Pending M N K} :
    modified S reg db m pks names false p f = p f ∪ modified S reg db m pks names false Pending.empty f := by
  ext k
  simp only [Finset.mem_union, mem_modified, Pending.empty, Finset.notMem_empty, false_or]

/-- A refresh queues deeper fields only. -/
theorem depth_of_queued (hb : build S = .ok reg)
    (hlevel : ∀ n ∈ names, S.isStored m n = true ∧ reg.depthOf (m, n) = level)
    (h : (modified S reg db m pks names.toFinset false Pending.empty f).Nonempty) :
    level < reg.depthOf f := by
  obtain ⟨r, hr⟩ := h
  rcases depth_of_mem_modified hb hlevel hr with hr | hlt
  · exact absurd hr (Finset.notMem_empty r)
  · exact hlt

omit [DecidableEq N] [DecidableEq K] in
theorem mem_firsts {ms : List M} : m ∈ firsts ms ↔ m ∈ ms := by
  induction ms with
  | nil => rfl
  | cons m' ms ih =>
    rw [firsts, List.mem_cons, List.mem_cons, List.mem_filter, ih, decide_eq_true_eq]
    by_cases hm : m = m' <;> simp [hm]

omit [DecidableEq N] [DecidableEq K] in
theorem nodup_firsts (ms : List M) : (firsts ms).Nodup := by
  induction ms with
  | nil => exact List.nodup_nil
  | cons m ms ih =>
    rw [firsts, List.nodup_cons]
    exact ⟨fun h => by simp at h, ih.filter _⟩

/-! ## The log -/

/-- All the rows of a field that were queued: before the flush, or by one of its refreshes. -/
def queuedRows (q : Queue M N K) (log : List (Refresh M N K)) (f : M × N) : Finset K :=
  log.foldr (fun c s => c.queued f ∪ s) (q.rows f)

variable {log : List (Refresh M N K)} {todo : Pending M N K} {c : Refresh M N K}

omit [DecidableEq M] [DecidableEq N] in
theorem mem_queuedRows : k ∈ queuedRows q log f ↔ k ∈ q.rows f ∨ ∃ c ∈ log, k ∈ c.queued f := by
  unfold queuedRows
  induction log with
  | nil => simp
  | cons c log ih =>
    rw [List.foldr_cons, Finset.mem_union, ih, List.exists_mem_cons_iff]
    tauto

omit [DecidableEq M] [DecidableEq N] in
theorem queuedRows_concat (q : Queue M N K) (log : List (Refresh M N K)) (c : Refresh M N K) (f : M × N) :
    queuedRows q (log ++ [c]) f = queuedRows q log f ∪ c.queued f := by
  ext k
  rw [Finset.mem_union, mem_queuedRows, mem_queuedRows, or_assoc]
  simp only [List.mem_append, List.mem_singleton, or_and_right, exists_or, exists_eq_left]

omit [DecidableEq M] [DecidableEq N] [DecidableEq K] in
theorem Refresh.mem_fields : f ∈ c.fields ↔ f.1 = c.model ∧ f.2 ∈ c.names := by
  unfold fields
  rw [List.mem_map]
  constructor
  · rintro ⟨n, hn, rfl⟩
    exact ⟨rfl, hn⟩
  · rintro ⟨hm, hn⟩
    exact ⟨f.2, hn, by rw [← hm]⟩

/-- What the log says, up to the depth `level`; `todo` is what is still to refresh. -/
structure Progress (S : Schema M N K V) (reg : Registry M N) (q₀ : Queue M N K) (level : ℕ)
    (todo : Pending M N K) (log : List (Refresh M N K)) : Prop where
  fresh : ∀ f, (∀ c ∈ log, f ∉ c.fields) → todo f = queuedRows q₀ log f
  done : ∀ c ∈ log, ∀ f ∈ c.fields, todo f = ∅
  depth : ∀ c ∈ log, ∀ f ∈ c.fields, reg.depthOf f ≤ level
  pks : ∀ c ∈ log, ∀ k, k ∈ c.pks ↔ ∃ f ∈ c.fields, k ∈ queuedRows q₀ log f
  order : log.Pairwise fun c c' =>
    ∀ f ∈ c.fields, ∀ f' ∈ c'.fields, reg.depthOf f ≤ reg.depthOf f' ∧ f ≠ f'
  names : ∀ c ∈ log, c.names.Nodup ∧ ∀ f ∈ c.fields, ∀ f' ∈ c.fields, reg.depthOf f = reg.depthOf f'

omit [DecidableEq M] [DecidableEq N] in
theorem Progress.init (q : Queue M N K) : Progress S reg q level q.rows [] where
  fresh _ _ := rfl
  done := by simp
  depth := by simp
  pks := by simp
  order := .nil
  names := by simp

omit [DecidableEq M] [DecidableEq N] [DecidableEq K] in
theorem Refresh.exists_mem_fields {p : M × N → Prop} :
    (∃ f ∈ c.fields, p f) ↔ ∃ n ∈ c.names, p (c.model, n) := by
  constructor
  · rintro ⟨f, hf, hp⟩
    obtain ⟨hm, hn⟩ := mem_fields.mp hf
    exact ⟨f.2, hn, by rwa [← hm]⟩
  · rintro ⟨n, hn, hp⟩
    exact ⟨(c.model, n), mem_fields.mpr ⟨rfl, hn⟩, hp⟩

/-- **One refresh**: its fields have the depth of the round, and their rows are still to do. -/
theorem Progress.refresh (hb : build S = .ok reg) (db : Db M N K V) {p : Pending M N K}
    (h : Progress S reg q₀ level (fun f => p f ∪ todo f) log)
    (hnames : names.Nodup)
    (hlevel : ∀ n ∈ names, S.isStored m n = true ∧ reg.depthOf (m, n) = level)
    (hdeep : ∀ f, (p f).Nonempty → level < reg.depthOf f)
    (hnew : ∀ n ∈ names, ∀ c ∈ log, (m, n) ∉ c.fields)
    (hpks : ∀ k, k ∈ pks ↔ ∃ n ∈ names, k ∈ todo (m, n)) :
    Progress S reg q₀ level
      (fun f => modified S reg db m pks names.toFinset false p f ∪
        if f.1 = m ∧ f.2 ∈ names then ∅ else todo f)
      (log ++ [⟨m, names, pks, modified S reg db m pks names.toFinset false Pending.empty⟩]) := by
  set c₀ : Refresh M N K := ⟨m, names, pks, modified S reg db m pks names.toFinset false Pending.empty⟩ with hc₀
  have hfields : ∀ f, f ∈ c₀.fields ↔ f.1 = m ∧ f.2 ∈ names := fun f => Refresh.mem_fields
  have hdepth₀ : ∀ f ∈ c₀.fields, reg.depthOf f = level := by
    intro f hf
    obtain ⟨hm, hn⟩ := (hfields f).mp hf
    rw [← (hlevel f.2 hn).2, ← hm]
  have hle : ∀ c ∈ log ++ [c₀], ∀ f ∈ c.fields, reg.depthOf f ≤ level := by
    intro c hc f hf
    rcases List.mem_append.mp hc with hc | hc
    · exact h.depth c hc f hf
    · obtain rfl := List.mem_singleton.mp hc
      exact (hdepth₀ f hf).le
  -- nothing more is queued on a field as deep as the round, or less
  have hquiet : ∀ f, reg.depthOf f ≤ level → c₀.queued f = ∅ ∧ p f = ∅ := by
    intro f hf
    refine ⟨Finset.not_nonempty_iff_eq_empty.mp fun hne => ?_,
      Finset.not_nonempty_iff_eq_empty.mp fun hne => ?_⟩
    · have hlt := depth_of_queued hb hlevel hne
      omega
    · have hlt := hdeep f hne
      omega
  have hmod : ∀ f, modified S reg db m pks names.toFinset false p f = p f ∪ c₀.queued f :=
    fun _ => modified_eq_union
  have htotal : ∀ c ∈ log ++ [c₀], ∀ f ∈ c.fields, queuedRows q₀ (log ++ [c₀]) f = queuedRows q₀ log f := by
    intro c hc f hf
    rw [queuedRows_concat, (hquiet f (hle c hc f hf)).1, Finset.union_empty]
  have htodo : ∀ f ∈ c₀.fields, todo f = queuedRows q₀ log f := by
    intro f hf
    obtain ⟨hm, hn⟩ := (hfields f).mp hf
    have hfresh := h.fresh f fun c hc hfc => hnew f.2 hn c hc (by rwa [← hm])
    rw [(hquiet f (hdepth₀ f hf).le).2, Finset.empty_union] at hfresh
    exact hfresh
  refine ⟨fun f hf => ?_, fun c hc f hf => ?_, hle, fun c hc k => ?_, ?_, fun c hc => ?_⟩
  · have hf₀ : ¬ (f.1 = m ∧ f.2 ∈ names) := fun hmn => hf c₀ (by simp) ((hfields f).mpr hmn)
    rw [if_neg hf₀, hmod, queuedRows_concat, ← h.fresh f fun c hc => hf c (by simp [hc])]
    ext k
    simp only [Finset.mem_union]
    tauto
  · have hq := hquiet f (hle c hc f hf)
    rw [hmod, hq.1, hq.2, Finset.empty_union, Finset.empty_union]
    split_ifs with hmn
    · rfl
    · rcases List.mem_append.mp hc with hc | hc
      · have hdone := h.done c hc f hf
        rwa [hq.2, Finset.empty_union] at hdone
      · obtain rfl := List.mem_singleton.mp hc
        exact absurd ((hfields f).mp hf) hmn
  · have hiff : k ∈ c.pks ↔ ∃ f ∈ c.fields, k ∈ queuedRows q₀ log f := by
      rcases List.mem_append.mp hc with hc | hc
      · exact h.pks c hc k
      · obtain rfl := List.mem_singleton.mp hc
        rw [Refresh.exists_mem_fields, hpks]
        refine exists_congr fun n => and_congr_right fun hn => ?_
        rw [htodo (m, n) ((hfields (m, n)).mpr ⟨rfl, hn⟩)]
    rw [hiff]
    refine exists_congr fun f => and_congr_right fun hf => ?_
    rw [htotal c hc f hf]
  · refine List.pairwise_append.mpr ⟨h.order, List.pairwise_singleton _ _, fun c hc c' hc' f hf f' hf' => ?_⟩
    obtain rfl := List.mem_singleton.mp hc'
    refine ⟨(h.depth c hc f hf).trans (hdepth₀ f' hf').ge, ?_⟩
    rintro rfl
    obtain ⟨hm, hn⟩ := (hfields f).mp hf'
    exact hnew f.2 hn c hc (by rwa [← hm])
  · rcases List.mem_append.mp hc with hc | hc
    · exact h.names c hc
    · obtain rfl := List.mem_singleton.mp hc
      exact ⟨hnames, fun f hf f' hf' => (hdepth₀ f hf).trans (hdepth₀ f' hf').symm⟩

omit [DecidableEq M] [DecidableEq N] in
theorem Progress.mono {level' : ℕ} (h : Progress S reg q₀ level todo log) {todo' : Pending M N K}
    (htodo : ∀ f, todo' f = todo f) (hlevel : level ≤ level') : Progress S reg q₀ level' todo' log where
  fresh f hf := (htodo f).trans (h.fresh f hf)
  done c hc f hf := (htodo f).trans (h.done c hc f hf)
  depth c hc f hf := (h.depth c hc f hf).trans hlevel
  pks := h.pks
  order := h.order
  names := h.names

/-! ## A round -/

omit [DecidableEq N] in
theorem mem_namesOf {fields : List (M × N)} {n : N} : n ∈ namesOf fields m ↔ (m, n) ∈ fields := by
  simp only [namesOf, List.mem_map, List.mem_filter, decide_eq_true_eq]
  constructor
  · rintro ⟨⟨m', n'⟩, ⟨hf, rfl⟩, rfl⟩
    exact hf
  · intro hf
    exact ⟨(m, n), ⟨hf, rfl⟩, rfl⟩

omit [DecidableEq N] in
theorem nodup_namesOf {fields : List (M × N)} (h : fields.Nodup) (m : M) : (namesOf fields m).Nodup := by
  refine List.Nodup.map_on ?_ (h.filter _)
  rintro ⟨m₁, n₁⟩ h₁ ⟨m₂, n₂⟩ h₂ rfl
  simp only [List.mem_filter, decide_eq_true_eq] at h₁ h₂
  rw [h₁.2, h₂.2]

omit [DecidableEq M] [DecidableEq N] in
theorem mem_poppedRows {popped : Pending M N K} :
    k ∈ poppedRows popped m names ↔ ∃ n ∈ names, k ∈ popped (m, n) := by
  unfold poppedRows
  induction names with
  | nil => simp
  | cons n ns ih => rw [List.foldr_cons, Finset.mem_union, ih, List.exists_mem_cons_iff]

omit [DecidableEq K] in
/-- The rows popped for the models still to refresh, the next one apart. -/
theorem remaining_cons {fields : List (M × N)} {popped : Pending M N K} {ms : List M} (hm : m ∉ ms) :
    remaining fields popped ms f =
      if f.1 = m ∧ f.2 ∈ namesOf fields m then ∅ else remaining fields popped (m :: ms) f := by
  unfold remaining
  by_cases hf : f ∈ fields
  · by_cases hfm : f.1 = m
    · have hn : f.2 ∈ namesOf fields m := mem_namesOf.mpr (by rwa [← hfm])
      have hms : ¬ (f ∈ fields ∧ f.1 ∈ ms) := fun h => hm (hfm ▸ h.2)
      rw [if_neg hms, if_pos ⟨hfm, hn⟩]
    · simp [hf, hfm]
  · simp [hf]

section Round

variable {fields : List (M × N)} {popped : Pending M N K} {s : FlushState M N K V}

omit [DecidableEq K] in
theorem namesOf_level (hfields : ∀ f ∈ fields, S.isStored f.1 f.2 = true ∧ reg.depthOf f = level) (m : M) :
    ∀ n ∈ namesOf fields m, S.isStored m n = true ∧ reg.depthOf (m, n) = level :=
  fun n hn => hfields (m, n) (mem_namesOf.mp hn)

/-- A refresh leaves stored fields queued that are deeper than the round. -/
theorem flushModel_keys (hb : build S = .ok reg)
    (hfields : ∀ f ∈ fields, S.isStored f.1 f.2 = true ∧ reg.depthOf f = level)
    (hdeep : ∀ f ∈ s.queue.keys, S.isStored f.1 f.2 = true ∧ level < reg.depthOf f) :
    ∀ f ∈ (Queue.flushModel S reg fields popped s m).queue.keys,
      S.isStored f.1 f.2 = true ∧ level < reg.depthOf f := by
  intro f hf
  rcases Queue.mem_keys_modified hf with hf | ⟨⟨b, hbmem, rfl⟩, hne⟩
  · exact hdeep f hf
  · exact ⟨build_stored hb hbmem, depth_of_queued hb (namesOf_level hfields m) hne⟩

/-- **The models of a round**, one after the other. -/
theorem flushModels_progress (hb : build S = .ok reg)
    (hfields : ∀ f ∈ fields, S.isStored f.1 f.2 = true ∧ reg.depthOf f = level) (hnodup : fields.Nodup)
    {ms : List M} (hms : ms.Nodup)
    (h : Progress S reg q₀ level (fun f => s.queue.rows f ∪ remaining fields popped ms f) s.log)
    (hdeep : ∀ f ∈ s.queue.keys, S.isStored f.1 f.2 = true ∧ level < reg.depthOf f)
    (hnew : ∀ f ∈ fields, f.1 ∈ ms → ∀ c ∈ s.log, f ∉ c.fields) :
    Progress S reg q₀ level (ms.foldl (Queue.flushModel S reg fields popped) s).queue.rows
        (ms.foldl (Queue.flushModel S reg fields popped) s).log ∧
      ∀ f ∈ (ms.foldl (Queue.flushModel S reg fields popped) s).queue.keys,
        S.isStored f.1 f.2 = true ∧ level < reg.depthOf f := by
  induction ms generalizing s with
  | nil => exact ⟨h.mono (fun f => by simp [remaining]) le_rfl, hdeep⟩
  | cons m ms ih =>
    rw [List.foldl_cons]
    obtain ⟨hm, hms⟩ := List.nodup_cons.mp hms
    have hrows : ∀ f, (s.queue.rows f).Nonempty → level < reg.depthOf f := by
      rintro f ⟨k, hk⟩
      by_contra hlt
      rw [s.queue.rows_eq f fun hf => hlt (hdeep f hf).2] at hk
      exact Finset.notMem_empty k hk
    have hnames : ∀ n ∈ namesOf fields m, ∀ c ∈ s.log, (m, n) ∉ c.fields := fun n hn =>
      hnew (m, n) (mem_namesOf.mp hn) List.mem_cons_self
    have hpks : ∀ k, k ∈ poppedRows popped m (namesOf fields m) ↔
        ∃ n ∈ namesOf fields m, k ∈ remaining fields popped (m :: ms) (m, n) := by
      intro k
      rw [mem_poppedRows]
      refine exists_congr fun n => and_congr_right fun hn => ?_
      rw [remaining, if_pos ⟨mem_namesOf.mp hn, List.mem_cons_self⟩]
    have hstep := h.refresh hb
      (bulkRefreshFields S s.db m (poppedRows popped m (namesOf fields m)) (namesOf fields m))
      (nodup_namesOf hnodup m) (namesOf_level hfields m) hrows hnames hpks
    apply ih hms
    · refine hstep.mono (fun f => ?_) le_rfl
      rw [remaining_cons hm]
      unfold Queue.flushModel
      dsimp only
      rw [Queue.rows_modified]
    · exact flushModel_keys hb hfields hdeep
    · intro f hf hfm c hc
      rcases List.mem_append.mp hc with hc | hc
      · exact hnew f hf (List.mem_cons_of_mem m hfm) c hc
      · obtain rfl := List.mem_singleton.mp hc
        intro hfc
        have heq : f.1 = m := (Refresh.mem_fields.mp hfc).1
        exact hm (heq ▸ hfm)

omit [DecidableEq M] [DecidableEq N] [DecidableEq K] in
theorem mem_levelFields : f ∈ levelFields reg level q ↔ f ∈ q.keys ∧ reg.depthOf f = level := by
  rw [levelFields, List.mem_filter, decide_eq_true_eq]

omit [DecidableEq M] [DecidableEq K] in
theorem levelFields_level (hkeys : ∀ f ∈ q.keys, S.isStored f.1 f.2 = true ∧ level ≤ reg.depthOf f) :
    ∀ f ∈ levelFields reg level q, S.isStored f.1 f.2 = true ∧ reg.depthOf f = level := by
  intro f hf
  obtain ⟨hf, hdepth⟩ := mem_levelFields.mp hf
  exact ⟨(hkeys f hf).1, hdepth⟩

omit [DecidableEq K] in
theorem pop_keys (hkeys : ∀ f ∈ q.keys, S.isStored f.1 f.2 = true ∧ level ≤ reg.depthOf f) :
    ∀ f ∈ (q.pop (levelFields reg level q)).keys, S.isStored f.1 f.2 = true ∧ level < reg.depthOf f := by
  intro f hf
  obtain ⟨hf, hnot⟩ := List.mem_filter.mp hf
  rw [decide_eq_true_eq] at hnot
  obtain ⟨hstored, hle⟩ := hkeys f hf
  exact ⟨hstored, lt_of_le_of_ne hle fun heq => hnot (mem_levelFields.mpr ⟨hf, heq.symm⟩)⟩

/-- What is popped is what is still to refresh in the round. -/
theorem pop_rows_union (reg : Registry M N) (level : ℕ) : (q.pop (levelFields reg level q)).rows f ∪
    remaining (levelFields reg level q) q.rows (firsts ((levelFields reg level q).map Prod.fst)) f =
      q.rows f := by
  unfold Queue.pop
  by_cases hf : f ∈ levelFields reg level q
  · have hfm : f.1 ∈ firsts ((levelFields reg level q).map Prod.fst) :=
      mem_firsts.mpr (List.mem_map_of_mem hf)
    simp [remaining, hf, hfm]
  · simp [remaining, hf]

/-- **A round.** -/
theorem flushLevel_progress (hb : build S = .ok reg) {level' : ℕ} (hlt : level' ≤ level)
    (h : Progress S reg q₀ level' s.queue.rows s.log)
    (hkeys : ∀ f ∈ s.queue.keys, S.isStored f.1 f.2 = true ∧ level ≤ reg.depthOf f)
    (hlog : ∀ c ∈ s.log, ∀ f ∈ c.fields, reg.depthOf f < level) :
    Progress S reg q₀ level (Queue.flushLevel S reg level s).queue.rows
        (Queue.flushLevel S reg level s).log ∧
      ∀ f ∈ (Queue.flushLevel S reg level s).queue.keys,
        S.isStored f.1 f.2 = true ∧ level < reg.depthOf f := by
  refine flushModels_progress hb (levelFields_level hkeys) (s.queue.nodup.filter _) (nodup_firsts _)
    (h.mono (fun f => ?_) hlt) (pop_keys hkeys) (fun f hf _ c hc hfc => ?_)
  · exact pop_rows_union reg level
  · have hlt := hlog c hc f hfc
    have heq := (mem_levelFields.mp hf).2
    omega

/-- **The loop** ends with nothing queued. -/
theorem flushLoop_progress (hb : build S = .ok reg) {fuel l level : ℕ} (hle : level ≤ l)
    (h : Progress S reg q₀ level s.queue.rows s.log)
    (hkeys : ∀ f ∈ s.queue.keys, S.isStored f.1 f.2 = true ∧ l ≤ reg.depthOf f)
    (hlog : ∀ c ∈ s.log, ∀ f ∈ c.fields, reg.depthOf f < l)
    (hl : l ≤ S.storedFields.length + 1) (hfuel : S.storedFields.length + 2 ≤ fuel + l) :
    ∃ s' level', Queue.flushLoop S reg fuel s = some s' ∧ s'.queue.keys = [] ∧
      Progress S reg q₀ level' s'.queue.rows s'.log := by
  induction fuel generalizing l level s with
  | zero => omega
  | succ fuel ih =>
    unfold Queue.flushLoop
    split
    · rename_i hnone
      rw [List.min?_eq_none_iff, List.map_eq_nil_iff] at hnone
      exact ⟨s, level, rfl, hnone, h⟩
    · rename_i next hnext
      obtain ⟨hmem, hmin⟩ := List.min?_eq_some_iff.mp hnext
      obtain ⟨f, hf, hdepth⟩ := List.mem_map.mp hmem
      have hbound := build_depth_le hb f
      have hge := (hkeys f hf).2
      have hlow : ∀ f ∈ s.queue.keys, S.isStored f.1 f.2 = true ∧ next ≤ reg.depthOf f := fun g hg =>
        ⟨(hkeys g hg).1, hmin _ (List.mem_map_of_mem hg)⟩
      obtain ⟨hnew, hdeep⟩ := flushLevel_progress hb (by omega) h hlow fun c hc g hg => by
        have hlt := hlog c hc g hg
        omega
      -- the next round is deeper, and there are no more depths than stored fields
      exact ih (l := next + 1) (Nat.le_succ next) hnew hdeep
        (fun c hc g hg => Nat.lt_succ_of_le (hnew.depth c hc g hg)) (by omega) (by omega)

end Round

theorem flush_progress (hb : build S = .ok reg) (db : Db M N K V)
    (hq : ∀ f ∈ q.keys, S.isStored f.1 f.2 = true) :
    ∃ s level, q.flush S reg db = some s ∧ s.queue.keys = [] ∧
      Progress S reg q level s.queue.rows s.log :=
  flushLoop_progress (l := 0) (s := ⟨db, q, []⟩) hb le_rfl (.init q)
    (fun f hf => ⟨hq f hf, Nat.zero_le _⟩) (by simp) (Nat.zero_le _) (Nat.le_refl _)

/-- **The order of the refreshes.**  The flush of any queue of stored fields ends with nothing queued.  A
stored field is refreshed at most once; with it, in the same call, the fields of its model and depth that
are queued, on all the rows queued for one of them, before the flush or by a refresh of it.  No queued row
is left out, and what a field reads has been refreshed before it, on all its queued rows. -/
theorem flush_in_order (hb : build S = .ok reg) (db : Db M N K V) (q : Queue M N K)
    (hq : ∀ f ∈ q.keys, S.isStored f.1 f.2 = true) :
    ∃ s, q.flush S reg db = some s ∧ s.queue.keys = [] ∧
      (s.log.flatMap Refresh.fields).Nodup ∧
      (∀ c ∈ s.log, ∀ f ∈ c.fields, ∀ f' ∈ c.fields, f.1 = f'.1 ∧ reg.depthOf f = reg.depthOf f') ∧
      (∀ c ∈ s.log, ∀ k, k ∈ c.pks ↔ ∃ f ∈ c.fields, k ∈ queuedRows q s.log f) ∧
      (∀ f, (queuedRows q s.log f).Nonempty → ∃ c ∈ s.log, f ∈ c.fields) ∧
      ∀ before c after, s.log = before ++ c :: after → ∀ f ∈ c.fields, ∀ g, S.Reads f g →
        (∀ c' ∈ c :: after, g ∉ c'.fields) ∧
        ∀ k ∈ queuedRows q s.log g, ∃ c' ∈ before, g ∈ c'.fields ∧ k ∈ c'.pks := by
  obtain ⟨s, level, hs, hempty, h⟩ := flush_progress hb db hq
  have hall : ∀ f, (queuedRows q s.log f).Nonempty → ∃ c ∈ s.log, f ∈ c.fields := by
    rintro f hne
    by_contra hnone
    push Not at hnone
    rw [← h.fresh f hnone, s.queue.rows_eq f (by simp [hempty])] at hne
    exact Finset.not_nonempty_empty hne
  refine ⟨s, hs, hempty, ?_, fun c hc f hf f' hf' => ⟨?_, (h.names c hc).2 f hf f' hf'⟩, h.pks, hall, ?_⟩
  · rw [List.nodup_flatMap]
    refine ⟨fun c hc => (h.names c hc).1.map (Prod.mk_right_injective c.model), h.order.imp ?_⟩
    intro c c' hcc' f hf hf'
    exact (hcc' f hf f hf').2 rfl
  · rw [(Refresh.mem_fields.mp hf).1, (Refresh.mem_fields.mp hf').1]
  · intro before c after hlog f hf g hg
    have hlt := depth_of_reads hb hg
    have horder := h.order
    rw [hlog, List.pairwise_append, List.pairwise_cons] at horder
    obtain ⟨-, ⟨hafter, -⟩, -⟩ := horder
    have hnot : ∀ c' ∈ c :: after, g ∉ c'.fields := by
      intro c' hc' hgc'
      rcases List.mem_cons.mp hc' with rfl | hc'
      · have heq := (h.names c' (by simp [hlog])).2 f hf g hgc'
        omega
      · have hle := (hafter c' hc' f hf g hgc').1
        omega
    refine ⟨hnot, fun k hk => ?_⟩
    obtain ⟨c', hc', hgc'⟩ := hall g ⟨k, hk⟩
    refine ⟨c', ?_, hgc', (h.pks c' hc' k).mpr ⟨g, hgc', hk⟩⟩
    rw [hlog] at hc'
    exact (List.mem_append.mp hc').resolve_right fun hc' => hnot c' hc' hgc'

end Queue

section Sample

/-- Two stored fields of one model, on one column of it. -/
def pair : Schema Unit String ℕ ℤ where
  models := [()]
  fields _ := [⟨"label", .column⟩, ⟨"a", .computed [["label"]] true⟩, ⟨"b", .computed [["label"]] true⟩]
  maxHops := 4
  compute _ _ _ _ := 0
  equals _ _ _ _ := false
  mem_models m := by simp
  names_nodup m := by simp

/-- Field `a` queued on the row 1, field `b` on the row 2: the statement they share refreshes both on
both rows. -/
theorem refreshed_on_rows_of_others : ∃ (reg : Registry Unit String) (q : Queue Unit String ℕ)
    (s : FlushState Unit String ℕ ℤ), build pair = .ok reg ∧
      (∀ f ∈ q.keys, pair.isStored f.1 f.2 = true) ∧ q.flush pair reg (fun _ => .empty) = some s ∧
      ∃ c ∈ s.log, ∃ f ∈ c.fields, c.pks ≠ queuedRows q s.log f :=
  ⟨_, (Queue.empty.update ((), "a") {1}).update ((), "b") {2}, _, rfl, by decide, rfl, _,
    List.mem_singleton_self _, ((), "a"), by decide, by decide⟩

/-- An order with two lines; nothing of it is computed yet. -/
def staleShop : Db Shop String ℕ ℤ
  | .order => Table.empty.insert 1 shopOrder
  | .line => (Table.empty.insert 10 (shopLine 1 5)).insert 11 (shopLine 1 7)

/-- The lines of the order 1 are queued, and its total: the total is refreshed before the lines copy it. -/
theorem flush_in_order_sample : ∃ (reg : Registry Shop String) (q : Queue Shop String ℕ)
    (s : FlushState Shop String ℕ ℤ), build shop = .ok reg ∧ q.keys = [(.line, "order_total"), (.order, "total")] ∧
      q.flush shop reg staleShop = some s ∧ s.queue.keys = [] ∧
      ∃ before c after, s.log = before ++ c :: after ∧ (.line, "order_total") ∈ c.fields ∧ 10 ∈ c.pks ∧
        ∃ c' ∈ before, (.order, "total") ∈ c'.fields ∧ 1 ∈ c'.pks := by
  let q : Queue Shop String ℕ :=
    (Queue.empty.update (.line, "order_total") {10, 11}).update (.order, "total") {1}
  obtain ⟨reg, hb⟩ : ∃ reg, build shop = .ok reg := ⟨_, rfl⟩
  obtain ⟨s, hs, hempty, -, -, hpks, hall, horder⟩ := flush_in_order hb staleShop q (by decide)
  have hlines : 10 ∈ queuedRows q s.log (.line, "order_total") := mem_queuedRows.mpr (.inl (by decide))
  have horders : 1 ∈ queuedRows q s.log (.order, "total") := mem_queuedRows.mpr (.inl (by decide))
  have hreads : shop.Reads (.line, "order_total") (.order, "total") :=
    ⟨[["order", "total"]], by decide, ["order", "total"], List.mem_cons_self, rfl, by decide, .inl rfl⟩
  obtain ⟨c, hc, hfc⟩ := hall _ ⟨10, hlines⟩
  obtain ⟨before, after, hlog⟩ := List.append_of_mem hc
  obtain ⟨c', hc', hfc', hk⟩ := (horder before c after hlog _ hfc _ hreads).2 1 horders
  exact ⟨reg, q, s, hb, rfl, hs, hempty, before, c, after, hlog, hfc, (hpks c hc 10).mpr ⟨_, hfc, hlines⟩, c', hc',
    hfc', hk⟩

end Sample

end Totem.Computed
