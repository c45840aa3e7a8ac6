import Totem.Lib.Run
import Totem.Lib.Table

/-!
# Totem.Website.Published — the publication date of a document, and those who write it

`WebsitePublishedQuerySet` and `WebsitePublishedMixin`, over `Model.save` and the statements that Django makes.

* `bulkCreate`, `update`: the writers of the service; `save`: that of the admin and of scripts.
* `Keeps`: every published document has a date, and one that gets published has that of the write, or a given one.
* `published_dates_iff`: the runs of writes that keep it.
-/

namespace Totem.Website.Published

open Totem.Lib

variable {K T : Type*} [DecidableEq K]

/-! ## Documents -/

/-- The columns of a document. -/
structure Row (T : Type*) where
  isPublished : Bool
  datePublished : Option T
  deriving DecidableEq

/-- An attribute of an instance: left out on loading, as it was loaded or last saved, or assigned since. -/
inductive Attr (α : Type*)
  | deferred
  | loaded (v : α)
  | assigned (v : α)

def Attr.get? {α : Type*} : Attr α → Option α
  | .deferred => none
  | .loaded v => some v
  | .assigned v => some v

/-- What is saved of an attribute: one that is deferred is read from the row then. -/
def Attr.value {α : Type*} (a : Attr α) (stored : α) : α := a.get?.getD stored

/-- An instance, new or loaded at any time before.  A new one has all its attributes. -/
structure Instance (K T : Type*) where
  pk : K
  adding : Bool
  isPublished : Attr Bool
  datePublished : Attr (Option T)
  othersDeferred : Bool
  complete : adding = true → isPublished.get?.isSome ∧ datePublished.get?.isSome

/-- `update_fields`: a list, or names that cannot be appended to. -/
inductive UpdateFields
  | list (names : List String)
  | other (names : List String)

def UpdateFields.names : UpdateFields → List String
  | .list names => names
  | .other names => names

/-- The arguments of `save`. -/
structure SaveOptions where
  forceInsert : Bool
  forceUpdate : Bool
  updateFields : Option UpdateFields

/-- The names in `update_fields`, if it is given. -/
def SaveOptions.names? (o : SaveOptions) : Option (List String) := o.updateFields.map UpdateFields.names

inductive SaveError
  /-- `update_fields` cannot be appended to. -/
  | attributeError
  /-- What Django or the database raises. -/
  | raised
  deriving DecidableEq

/-! ## What Django does -/

/-- The names that `update_fields` may have, and whether a new instance is inserted even with some. -/
structure Django where
  concreteFields : List String
  addingInserts : Bool

/-- What `Model.save` comes to. -/
inductive Plan
  | raises
  | nothing
  | insert
  | update
  deriving DecidableEq

/-- `Model.save` and `_save_table`, up to the statement.  Only the loaded fields of an instance with deferred ones are
saved, as if they were named. -/
def plan (D : Django) (adding deferred forceInsert forceUpdate : Bool) (updateFields : Option (List String))
    (stored : Bool) : Plan :=
  let named := updateFields.isSome || (deferred && !forceInsert)
  if forceInsert && (forceUpdate || updateFields.any fun names => !names.isEmpty) then .raises
  else if updateFields = some [] then .nothing
  else if (updateFields.getD []).any fun name => !D.concreteFields.contains name then .raises
  else if forceInsert || (adding && !forceUpdate && (D.addingInserts || !named)) then
    if stored then .raises else .insert
  else if stored then .update
  else if forceUpdate || named then .raises
  else .insert

/-- A column is saved: it is named, or nothing is. -/
def writes (updateFields : Option (List String)) (name : String) : Bool :=
  updateFields.all fun names => names.contains name

/-- `super().save()`. -/
def modelSave (D : Django) (pk : K) (adding deferred : Bool) (isPublished : Attr Bool) (datePublished : Attr (Option T))
    (forceInsert forceUpdate : Bool) (updateFields : Option (List String)) (rows : Table K (Row T)) :
    Except SaveError (Table K (Row T)) :=
  match plan D adding deferred forceInsert forceUpdate updateFields (rows.get pk).isSome with
  | .raises => .error .raised
  | .nothing => .ok rows
  | .insert =>
    match isPublished.get?, datePublished.get? with
    | some isPublished, some datePublished => .ok (rows.insert pk ⟨isPublished, datePublished⟩)
    | _, _ => .error .raised
  | .update =>
    .ok (rows.map fun k r =>
      if k = pk then
        { isPublished := if writes updateFields "is_published" then isPublished.value r.isPublished else r.isPublished
          datePublished :=
            if writes updateFields "date_published" then datePublished.value r.datePublished else r.datePublished }
      else r)

/-! ## The writers -/

/-- `obj.is_published and obj.date_published is None`: the object gets the time. -/
def stamp (now : T) (r : Row T) : Row T :=
  if r.isPublished && r.datePublished.isNone then { r with datePublished := some now } else r

/-- `WebsitePublishedQuerySet.bulk_create`, of new objects. -/
def bulkCreate (now : T) (objs : List (K × Row T)) (rows : Table K (Row T)) : Except SaveError (Table K (Row T)) :=
  if (objs.map Prod.fst).Nodup ∧ ∀ obj ∈ objs, rows.get obj.1 = none then
    .ok (objs.foldl (fun rows obj => rows.insert obj.1 (stamp now obj.2)) rows)
  else .error .raised

/-- `WebsitePublishedQuerySet.update` of the rows it matches, with the columns it is given. -/
def update (now : T) (matching : K → Bool) (isPublished : Option Bool) (datePublished : Option (Option T))
    (rows : Table K (Row T)) : Table K (Row T) :=
  let datePublished := if isPublished.isSome then datePublished.or (some (some now)) else datePublished
  rows.map fun k r =>
    if matching k then ⟨isPublished.getD r.isPublished, datePublished.getD r.datePublished⟩ else r

namespace Instance

/-- Some field is deferred. -/
def deferred (i : Instance K T) : Bool :=
  i.othersDeferred || i.isPublished.get?.isNone || i.datePublished.get?.isNone

/-- `self.is_published and self.date_published is None`. -/
def undated (i : Instance K T) : Bool :=
  i.isPublished.get?.any (fun isPublished => isPublished) && i.datePublished.get?.any Option.isNone

end Instance

/-- `WebsitePublishedMixin.save`. -/
def save (D : Django) (now : T) (i : Instance K T) (o : SaveOptions) (rows : Table K (Row T)) :
    Except SaveError (Table K (Row T)) :=
  if i.adding then
    modelSave D i.pk true i.deferred i.isPublished (if i.undated then .loaded (some now) else i.datePublished)
      o.forceInsert o.forceUpdate o.names? rows
  else if "is_published" ∈ o.names?.getD [] then
    match o.updateFields with
    | some (.list names) =>
      modelSave D i.pk false i.deferred i.isPublished (.loaded (some now)) o.forceInsert o.forceUpdate
        (some (names ++ ["date_published"])) rows
    | _ => .error .attributeError
  else
    modelSave D i.pk false i.deferred i.isPublished i.datePublished o.forceInsert o.forceUpdate o.names? rows

/-! ## Runs -/

inductive Write (K T : Type*)
  | bulkCreate (objs : List (K × Row T))
  | update (matching : K → Bool) (isPublished : Option Bool) (datePublished : Option (Option T))
  | save (i : Instance K T) (o : SaveOptions)

/-- A write at a time.  The database may refuse it, for another column. -/
structure Event (K T : Type*) where
  now : T
  write : Write K T
  refused : Bool

def Write.apply (D : Django) (now : T) (rows : Table K (Row T)) : Write K T → Except SaveError (Table K (Row T))
  | .bulkCreate objs => Published.bulkCreate now objs rows
  | .update matching isPublished datePublished => .ok (Published.update now matching isPublished datePublished rows)
  | .save i o => Published.save D now i o rows

/-- A write that raises leaves the rows. -/
def settle (rows : Table K (Row T)) : Except SaveError (Table K (Row T)) → Table K (Row T)
  | .ok rows' => rows'
  | .error _ => rows

def step (D : Django) (rows : Table K (Row T)) (e : Event K T) : Table K (Row T) :=
  if e.refused then rows else settle rows (e.write.apply D e.now rows)

/-- The date that a write gives itself. -/
def Write.Gives : Write K T → K → T → Prop
  | .bulkCreate objs, k, d => ∃ r, (k, r) ∈ objs ∧ r.datePublished = some d
  | .update matching _ datePublished, k, d => matching k = true ∧ datePublished = some (some d)
  | .save i o, k, d => k = i.pk ∧ writes o.names? "date_published" = true ∧ i.datePublished = .assigned (some d)

/-- Every published document has a date. -/
def Dated (rows : Table K (Row T)) : Prop :=
  ∀ k r, rows.get k = some r → r.isPublished = true → ∃ d, r.datePublished = some d

/-- Afterwards every published document has a date, and one that the write published has the time of the write or a
date that it gives. -/
structure Keeps (now : T) (gives : K → T → Prop) (rows rows' : Table K (Row T)) : Prop where
  dated : Dated rows'
  stamped : ∀ k r r', rows.get k = some r → r.isPublished = false → rows'.get k = some r' → r'.isPublished = true →
    ∃ d, r'.datePublished = some d ∧ (d = now ∨ gives k d)

/-! ## When it is kept -/

/-- What an instance and its row say: whether the document is published once it is saved, and since when. -/
def Instance.published (i : Instance K T) (names : Option (List String)) (r : Row T) : Bool :=
  if writes names "is_published" then i.isPublished.value r.isPublished else r.isPublished

def Instance.date (i : Instance K T) (names : Option (List String)) (r : Row T) : Option T :=
  if writes names "date_published" then i.datePublished.value r.datePublished else r.datePublished

/-- A row that is updated from an instance: it is not published then, or its date is that of a new instance without
one, or it has a date; and if it was not published, then that is the time, or one the caller assigned. -/
def Covered (now : T) (i : Instance K T) (names : Option (List String)) (r : Row T) : Prop :=
  i.published names r = true →
    (i.adding = true ∧ i.undated = true ∧ writes names "date_published" = true) ∨
      ∃ d, i.date names r = some d ∧ (r.isPublished = true ∨ d = now ∨
        writes names "date_published" = true ∧ i.datePublished = .assigned (some d))

/-- The writes that keep it: all of `bulk_create`; an update that does not take the date of a document that is or gets
published; a save that names `is_published`, or inserts a new instance; and another that is covered. -/
def Meets (D : Django) (now : T) (rows : Table K (Row T)) : Write K T → Prop
  | .bulkCreate _ => True
  | .update matching isPublished datePublished =>
    datePublished = some none →
      ∀ k r, rows.get k = some r → matching k = true → isPublished.getD r.isPublished = false
  | .save i o =>
    (i.adding = false → "is_published" ∉ o.names?.getD []) →
      match plan D i.adding i.deferred o.forceInsert o.forceUpdate o.names? (rows.get i.pk).isSome with
      | .raises => True
      | .nothing => True
      | .insert => i.adding = true ∨ i.undated = false
      | .update => ∀ r, rows.get i.pk = some r → Covered now i o.names? r

/-! ## One write -/

section Writes

variable {D : Django} {now : T} {gives : K → T → Prop} {rows : Table K (Row T)} {k : K} {r r' : Row T}
  {i : Instance K T} {o : SaveOptions} {names : Option (List String)}

/-- A row before and after a write that keeps it. -/
def RowKept (now : T) (gives : T → Prop) (r r' : Row T) : Prop :=
  r'.isPublished = true → ∃ d, r'.datePublished = some d ∧ (r.isPublished = true ∨ d = now ∨ gives d)

omit [DecidableEq K] in
theorem keeps_refl (h : Dated rows) : Keeps now gives rows rows :=
  ⟨h, fun k r r' hr hnot hr' hpublished => by
    obtain rfl := Option.some.inj (hr.symm.trans hr')
    rw [hnot] at hpublished
    cases hpublished⟩

omit [DecidableEq K] in
theorem keeps_map_iff {f : K → Row T → Row T} :
    Keeps now gives rows (rows.map f) ↔ ∀ k r, rows.get k = some r → RowKept now (gives k) r (f k r) := by
  have hget (k : K) : (rows.map f).get k = (rows.get k).map (f k) := rfl
  constructor
  · intro h k r hr hpublished
    have hr' : (rows.map f).get k = some (f k r) := by rw [hget, hr, Option.map_some]
    cases hbefore : r.isPublished with
    | true =>
      obtain ⟨d, hd⟩ := h.dated k _ hr' hpublished
      exact ⟨d, hd, .inl rfl⟩
    | false =>
      obtain ⟨d, hd, hgiven⟩ := h.stamped k r _ hr hbefore hr' hpublished
      exact ⟨d, hd, .inr hgiven⟩
  · intro h
    have hrow : ∀ k r', (rows.map f).get k = some r' → ∃ r, rows.get k = some r ∧ r' = f k r := by
      intro k r' hr'
      rw [hget, Option.map_eq_some_iff] at hr'
      obtain ⟨r, hr, rfl⟩ := hr'
      exact ⟨r, hr, rfl⟩
    constructor
    · intro k r' hr' hpublished
      obtain ⟨r, hr, rfl⟩ := hrow k r' hr'
      obtain ⟨d, hd, -⟩ := h k r hr hpublished
      exact ⟨d, hd⟩
    · intro k r r' hr hnot hr' hpublished
      obtain ⟨r₁, hr₁, rfl⟩ := hrow k r' hr'
      obtain rfl := Option.some.inj (hr.symm.trans hr₁)
      obtain ⟨d, hd, hbefore | hgiven⟩ := h k r hr hpublished
      · rw [hnot] at hbefore
        cases hbefore
      · exact ⟨d, hd, hgiven⟩

theorem keeps_insert_iff (h : Dated rows) (hnone : rows.get k = none) :
    Keeps now gives rows (rows.insert k r) ↔ (r.isPublished = true → ∃ d, r.datePublished = some d) := by
  constructor
  · exact fun hkeeps => hkeeps.dated k r (Table.get_insert_self k r rows)
  · intro hr
    have hother : ∀ k' r', (rows.insert k r).get k' = some r' → k' = k ∧ r' = r ∨ rows.get k' = some r' := by
      intro k' r' hr'
      by_cases hk : k' = k
      · subst hk
        rw [Table.get_insert_self] at hr'
        exact .inl ⟨rfl, (Option.some.inj hr').symm⟩
      · rw [Table.get_insert_of_ne hk] at hr'
        exact .inr hr'
    constructor
    · intro k' r' hr' hpublished
      rcases hother k' r' hr' with ⟨rfl, rfl⟩ | hr'
      · exact hr hpublished
      · exact h k' r' hr' hpublished
    · intro k' r₁ r' hr₁ hnot hr' hpublished
      rcases hother k' r' hr' with ⟨rfl, rfl⟩ | hr'
      · rw [hnone] at hr₁
        cases hr₁
      · exact (keeps_refl h).stamped k' r₁ r' hr₁ hnot hr' hpublished

omit [DecidableEq K] in
theorem Keeps.of_kept {rows' rows'' : Table K (Row T)} (h : Keeps now gives rows' rows'')
    (hkept : ∀ k r, rows.get k = some r → rows'.get k = some r) : Keeps now gives rows rows'' :=
  ⟨h.dated, fun k r r'' hr hnot => h.stamped k r r'' (hkept k r hr) hnot⟩

/-- **`bulk_create`** dates what it publishes. -/
theorem keeps_bulkCreate (h : Dated rows) (objs : List (K × Row T)) :
    Keeps now gives rows (settle rows (bulkCreate now objs rows)) := by
  unfold bulkCreate
  split_ifs with hnew
  · obtain ⟨hnodup, hnew⟩ := hnew
    rw [settle]
    induction objs generalizing rows with
    | nil => exact keeps_refl h
    | cons obj objs ih =>
      rw [List.map_cons, List.nodup_cons] at hnodup
      obtain ⟨hobj, hobjs⟩ := List.forall_mem_cons.mp hnew
      have hdated : (stamp now obj.2).isPublished = true → ∃ d, (stamp now obj.2).datePublished = some d := by
        rw [stamp]
        split_ifs with hundated
        · exact fun _ => ⟨now, rfl⟩
        · intro hpublished
          cases hdate : obj.2.datePublished with
          | none => exact absurd (by rw [hpublished, hdate]; rfl) hundated
          | some d => exact ⟨d, rfl⟩
      have hfirst : Keeps now gives rows (rows.insert obj.1 (stamp now obj.2)) := (keeps_insert_iff h hobj).mpr hdated
      have hfresh (k : K) (hk : k ≠ obj.1) : (rows.insert obj.1 (stamp now obj.2)).get k = rows.get k :=
        Table.get_insert_of_ne hk _ _
      refine (ih hfirst.dated hnodup.2 fun other hother => ?_).of_kept fun k r hr => ?_
      · rw [hfresh other.1 fun heq => hnodup.1 (heq ▸ List.mem_map_of_mem hother)]
        exact hobjs other hother
      · rw [hfresh k fun heq => by rw [heq, hobj] at hr; cases hr]
        exact hr
  · exact keeps_refl h

omit [DecidableEq K] in
/-- **`update`** keeps the rule unless it takes the date of a document that is or gets published. -/
theorem keeps_update_iff (h : Dated rows) (matching : K → Bool) (isPublished : Option Bool)
    (datePublished : Option (Option T)) :
    Keeps now (Write.Gives (.update matching isPublished datePublished)) rows
        (update now matching isPublished datePublished rows) ↔
      (datePublished = some none →
        ∀ k r, rows.get k = some r → matching k = true → isPublished.getD r.isPublished = false) := by
  unfold update
  rw [keeps_map_iff]
  constructor
  · intro hkeeps hnull k r hr hmatch
    have hrow := hkeeps k r hr
    rw [if_pos hmatch] at hrow
    by_contra hpublished
    obtain ⟨d, hd, -⟩ := hrow (Bool.eq_true_of_not_eq_false hpublished)
    rw [hnull] at hd
    cases isPublished <;> cases hd
  · intro hnull k r hr
    cases hmatch : matching k with
    | false =>
      intro hpublished
      obtain ⟨d, hd⟩ := h k r hr hpublished
      exact ⟨d, hd, .inl hpublished⟩
    | true =>
      rw [if_pos rfl]
      intro hpublished
      match datePublished, isPublished with
      | some (some d), some p => exact ⟨d, rfl, .inr (.inr ⟨hmatch, rfl⟩)⟩
      | some (some d), none => exact ⟨d, rfl, .inr (.inr ⟨hmatch, rfl⟩)⟩
      | some none, isPublished =>
        have hfalse := hnull rfl k r hr hmatch
        rw [hfalse] at hpublished
        cases hpublished
      | none, some p => exact ⟨now, rfl, .inr (.inl rfl)⟩
      | none, none =>
        obtain ⟨d, hd⟩ := h k r hr hpublished
        exact ⟨d, hd, .inl hpublished⟩

theorem not_stored_of_insert {adding deferred forceInsert forceUpdate stored : Bool}
    (h : plan D adding deferred forceInsert forceUpdate names stored = .insert) : stored = false := by
  unfold plan at h
  dsimp only at h
  split_ifs at h with _ _ _ _ hstored hstored
  · exact Bool.eq_false_iff.mpr hstored
  · exact Bool.eq_false_iff.mpr hstored

/-- **`super().save()`** keeps the rule if what it inserts has a date when it is published, and what it updates keeps
it. -/
theorem keeps_modelSave_iff (h : Dated rows) {pk : K} {adding deferred forceInsert forceUpdate : Bool}
    {isPublished : Attr Bool} {datePublished : Attr (Option T)} :
    Keeps now gives rows (settle rows
        (modelSave D pk adding deferred isPublished datePublished forceInsert forceUpdate names rows)) ↔
      match plan D adding deferred forceInsert forceUpdate names (rows.get pk).isSome with
      | .raises => True
      | .nothing => True
      | .insert => ¬ (isPublished.get? = some true ∧ datePublished.get? = some none)
      | .update => ∀ r, rows.get pk = some r → RowKept now (gives pk) r
          { isPublished := if writes names "is_published" then isPublished.value r.isPublished else r.isPublished
            datePublished :=
              if writes names "date_published" then datePublished.value r.datePublished else r.datePublished } := by
  unfold modelSave
  cases hplan : plan D adding deferred forceInsert forceUpdate names (rows.get pk).isSome with
  | raises => exact iff_of_true (keeps_refl h) trivial
  | nothing => exact iff_of_true (keeps_refl h) trivial
  | insert =>
    have hnone : rows.get pk = none := by simpa using not_stored_of_insert hplan
    dsimp only
    cases isPublished.get? with
    | none => exact iff_of_true (keeps_refl h) fun hundated => by cases hundated.1
    | some p =>
      cases datePublished.get? with
      | none => exact iff_of_true (keeps_refl h) fun hundated => by cases hundated.2
      | some d =>
        dsimp only
        rw [settle, keeps_insert_iff h hnone]
        cases d with
        | none => simp
        | some d => simp
  | update =>
    dsimp only
    rw [settle, keeps_map_iff]
    constructor
    · intro hrows r hr
      have hrow := hrows pk r hr
      rwa [if_pos rfl] at hrow
    · intro hrow k r hr
      by_cases hk : k = pk
      · subst hk
        rw [if_pos rfl]
        exact hrow r hr
      · rw [if_neg hk]
        intro hpublished
        obtain ⟨d, hd⟩ := h k r hr hpublished
        exact ⟨d, hd, .inl hpublished⟩

omit [DecidableEq K] in
theorem undated_iff : i.undated = true ↔ i.isPublished.get? = some true ∧ i.datePublished.get? = some none := by
  rw [Instance.undated, Bool.and_eq_true]
  refine and_congr ?_ ?_
  · cases i.isPublished.get? <;> simp
  · cases i.datePublished.get? <;> simp

omit [DecidableEq K] in
/-- What is written of an instance that no time is put on. -/
theorem rowKept_iff_covered
    (h : ¬ (i.adding = true ∧ i.undated = true ∧ writes o.names? "date_published" = true)) :
    RowKept now (Write.Gives (.save i o) i.pk) r ⟨i.published o.names? r, i.date o.names? r⟩ ↔
      Covered now i o.names? r := by
  have hgives (d : T) : Write.Gives (.save i o) i.pk d ↔
      writes o.names? "date_published" = true ∧ i.datePublished = .assigned (some d) := and_iff_right rfl
  rw [RowKept, Covered, or_iff_right h]
  simp only [hgives]

omit [DecidableEq K] in
/-- A row that gets the time of the write. -/
theorem rowKept_stamped {date : Option T} {published : Bool} (h : date = some now) :
    RowKept now (gives k) r ⟨published, date⟩ := fun _ => ⟨now, h, .inr (.inl rfl)⟩

/-- **A new instance** is dated when it is inserted. -/
theorem keeps_save_new_iff (h : Dated rows) (hadding : i.adding = true) :
    Keeps now (Write.Gives (.save i o)) rows (settle rows (save D now i o rows)) ↔ Meets D now rows (.save i o) := by
  have hmeets : i.adding = false → "is_published" ∉ o.names?.getD [] := fun hfalse => by
    rw [hadding] at hfalse
    cases hfalse
  rw [save, if_pos hadding, keeps_modelSave_iff h, Meets, forall_prop_of_true hmeets, hadding]
  cases plan D true i.deferred o.forceInsert o.forceUpdate o.names? (rows.get i.pk).isSome with
  | raises => exact Iff.rfl
  | nothing => exact Iff.rfl
  | insert =>
    refine iff_of_true ?_ (.inl rfl)
    rintro ⟨hpublished, hdate⟩
    split_ifs at hdate with hundated
    · cases hdate
    · exact hundated (undated_iff.mpr ⟨hpublished, hdate⟩)
  | update =>
    refine forall₂_congr fun r _ => ?_
    by_cases hundated : i.undated = true
    · by_cases hwrites : writes o.names? "date_published" = true
      · refine iff_of_true (rowKept_stamped ?_) fun _ => .inl ⟨hadding, hundated, hwrites⟩
        rw [if_pos hwrites, if_pos hundated]
        rfl
      · rw [if_neg hwrites, ← rowKept_iff_covered fun hstamps => hwrites hstamps.2.2, Instance.date, if_neg hwrites]
        rfl
    · rw [if_neg hundated, ← rowKept_iff_covered fun hstamps => hundated hstamps.2.1]
      rfl

/-- **A loaded instance** is dated when `is_published` is named. -/
theorem keeps_save_loaded_iff (h : Dated rows) (hadding : i.adding = false) :
    Keeps now (Write.Gives (.save i o)) rows (settle rows (save D now i o rows)) ↔ Meets D now rows (.save i o) := by
  have hnew : ¬ i.adding = true := Bool.eq_false_iff.mp hadding
  rw [save, if_neg hnew]
  by_cases hnamed : "is_published" ∈ o.names?.getD []
  · rw [if_pos hnamed]
    refine iff_of_true ?_ fun hmeets => absurd hnamed (hmeets hadding)
    cases hfields : o.updateFields with
    | none => exact keeps_refl h
    | some fields =>
      cases fields with
      | other names => exact keeps_refl h
      | list names =>
        dsimp only
        rw [keeps_modelSave_iff h]
        cases plan D false i.deferred o.forceInsert o.forceUpdate (some (names ++ ["date_published"]))
            (rows.get i.pk).isSome with
        | raises => trivial
        | nothing => trivial
        | insert => exact fun hundated => by cases hundated.2
        | update =>
          have hwrites : writes (some (names ++ ["date_published"])) "date_published" = true := by simp [writes]
          exact fun r _ => rowKept_stamped (if_pos hwrites)
  · rw [if_neg hnamed, keeps_modelSave_iff h, Meets, forall_prop_of_true fun _ => hnamed, hadding]
    cases plan D false i.deferred o.forceInsert o.forceUpdate o.names? (rows.get i.pk).isSome with
    | raises => exact Iff.rfl
    | nothing => exact Iff.rfl
    | insert =>
      dsimp only
      rw [← undated_iff, or_iff_right Bool.false_ne_true, Bool.not_eq_true]
    | update =>
      refine forall₂_congr fun r _ => ?_
      rw [← rowKept_iff_covered fun hstamps => hnew hstamps.1]
      rfl

/-- **One write** keeps the rule exactly if the database refuses it or it is one of those. -/
theorem keeps_step_iff (h : Dated rows) (e : Event K T) :
    Keeps e.now e.write.Gives rows (step D rows e) ↔ (e.refused = false → Meets D e.now rows e.write) := by
  obtain ⟨now, write, refused⟩ := e
  cases refused with
  | true => exact iff_of_true (keeps_refl h) Bool.noConfusion
  | false =>
    rw [step, if_neg Bool.false_ne_true, forall_prop_of_true rfl]
    cases write with
    | bulkCreate objs => exact iff_of_true (keeps_bulkCreate h objs) trivial
    | update matching isPublished datePublished => exact keeps_update_iff h matching isPublished datePublished
    | save i o =>
      cases hadding : i.adding with
      | true => exact keeps_save_new_iff h hadding
      | false => exact keeps_save_loaded_iff h hadding

end Writes

/-- **The runs of writes that keep the rule**: from rows that do, those whose every write, on the rows before it, is
refused by the database, or dates what it publishes itself, or has a date given by its caller. -/
theorem published_dates_iff (D : Django) (rows rows' : Table K (Row T)) (h : Dated rows) (es : List (Event K T)) :
    Run (fun s e s' => step D s e = s' ∧ Keeps e.now e.write.Gives s s') rows es rows' ↔
      Run (fun s e s' => step D s e = s' ∧ (e.refused = false → Meets D e.now s e.write)) rows es rows' := by
  refine Run.congr_of_invariant (fun s e s' hs => and_congr_right ?_) (fun s e s' _ hstep => hstep.2.dated) h
  rintro rfl
  exact keeps_step_iff hs e

section Sample

def pageFields : Django where
  concreteFields := ["title", "slug", "content", "layout", "update_date", "user", "is_published", "date_published"]
  addingInserts := true

/-- A page as it was loaded before it was published, and now is. -/
def publishedPage : Instance ℕ ℕ where
  pk := 1
  adding := false
  isPublished := .assigned true
  datePublished := .loaded none
  othersDeferred := false
  complete := Bool.noConfusion

/-- A draft of the service, which a script publishes. -/
def scriptRun : List (Event ℕ ℕ) :=
  [⟨10, .bulkCreate [(1, ⟨false, none⟩)], false⟩,
    ⟨20, .save publishedPage ⟨false, false, some (.list ["is_published"])⟩, false⟩]

/-- A draft of the service, which the admin publishes. -/
def adminRun : List (Event ℕ ℕ) :=
  [⟨10, .bulkCreate [(1, ⟨false, none⟩)], false⟩, ⟨20, .save publishedPage ⟨false, false, none⟩, false⟩]

omit [DecidableEq K] in
theorem dated_empty : Dated (.empty : Table K (Row T)) := fun k r h => by cases h

theorem published_dates_iff_sample : ∃ rows', Run (fun s e s' => step pageFields s e = s' ∧
    Keeps e.now e.write.Gives s s') .empty scriptRun rows' ∧ rows'.get 1 = some ⟨true, some 20⟩ := by
  refine ⟨_, (published_dates_iff pageFields .empty _ dated_empty scriptRun).mpr
    (.cons ⟨rfl, fun _ => trivial⟩ (.cons ⟨rfl, fun _ hnamed => ?_⟩ (.nil _))), by decide⟩
  exact absurd (by decide) (hnamed rfl)

/-- The admin publishes a draft without a date. -/
theorem admin_publishes_undated : ∃ rows', Run (fun s e s' => step pageFields s e = s') .empty adminRun rows' ∧
    ¬ Dated rows' ∧
    ¬ Run (fun s e s' => step pageFields s e = s' ∧ Keeps e.now e.write.Gives s s') .empty adminRun rows' := by
  have hrun : Run (fun s e s' => step pageFields s e = s') .empty adminRun
      (step pageFields (step pageFields .empty ⟨10, .bulkCreate [(1, ⟨false, none⟩)], false⟩)
        ⟨20, .save publishedPage ⟨false, false, none⟩, false⟩) := .cons rfl (.cons rfl (.nil _))
  have hundated : ¬ Dated (step pageFields (step pageFields .empty ⟨10, .bulkCreate [(1, ⟨false, none⟩)], false⟩)
      ⟨20, .save publishedPage ⟨false, false, none⟩, false⟩) := by
    intro h
    obtain ⟨d, hd⟩ := h 1 ⟨true, none⟩ (by decide) rfl
    cases hd
  refine ⟨_, hrun, hundated, fun hkeeps => hundated ?_⟩
  exact hkeeps.invariant (fun s e s' _ hstep => hstep.2.dated) dated_empty

end Sample

end Totem.Website.Published
