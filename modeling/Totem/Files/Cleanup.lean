import Totem.Lib.Run
import Totem.Lib.Table
import Mathlib.Data.Finset.Lattice.Fold
import Mathlib.Data.Finset.Union
import Mathlib.Data.Finset.Option
import Mathlib.Order.Lattice.Nat

/-!
# Totem.Files.Cleanup — the files of the rows that are saved and deleted

The mixins of `base.models.mixins`: `CleanupFileModelMixin` is to delete the files an instance no longer names when it
is saved, and those it names when it is deleted; `CleanupFileQuerysetMixin` reads the names before an update or a
deletion of many rows, and deletes the files after it.

* `getDirtyFileFields_eq_nil`: a save never finds a field that has changed.
* `cleaned_iff_tidy`: the steps after which the files are those they should be.
-/

namespace Totem.Files

open Lib

/-! ## Instances -/

/-- What the `__dict__` of an instance has under a file field. -/
inductive Value
  /-- A path, as it was loaded or assigned; empty for `None` too. -/
  | str (path : String)
  /-- A `FieldFile`, which names a file of the storage. -/
  | fieldFile (name : String)
  /-- A file, or the `FieldFile` made of it, that is not in the storage yet. -/
  | upload (name : String)
deriving DecidableEq

/-- `getattr(instance, fname).name`. -/
def Value.name : Value → String
  | .str path => path
  | .fieldFile name => name
  | .upload name => name

/-- What the descriptor leaves in the `__dict__` once it is read. -/
def Value.read : Value → Value
  | .str path => .fieldFile path
  | v => v

/-- A file that `pre_save` saves. -/
def Value.Uploaded (value : Value) : Prop := ∃ name, value = .upload name ∧ name ≠ ""

theorem Value.not_uploaded_str (path : String) : ¬ (Value.str path).Uploaded := by
  rintro ⟨_, h, -⟩
  cases h

theorem Value.not_uploaded_fieldFile (name : String) : ¬ (Value.fieldFile name).Uploaded := by
  rintro ⟨_, h, -⟩
  cases h

theorem Value.not_uploaded_empty : ¬ (Value.upload "").Uploaded := by
  rintro ⟨_, h, hne⟩
  obtain rfl := Value.upload.inj h
  exact hne rfl

theorem Value.read_name (value : Value) : value.read.name = value.name := by
  cases value <;> rfl

theorem Value.read_ne_str (value : Value) (path : String) : value.read ≠ .str path := by
  cases value <;> simp [Value.read]

structure Instance (M K F : Type) where
  model : M
  pk : Option K
  /-- `_state.adding`. -/
  adding : Bool
  dict : F → Value
  /-- `_initial_file_state`. -/
  initialFileState : F → Option Value

/-- The database, by file fields, the files of the storages, and the instances in memory. -/
structure CleanupState (M K F S I : Type) where
  rows : Table (M × K) (F → String)
  files : Finset (S × String)
  memory : I → Instance M K F

/-- The models with the mixins, and what they use of django. -/
structure CleanupModels (M K F S : Type) where
  fileFields : M → List F
  fileFields_nodup : ∀ model, (fileFields model).Nodup
  storage : F → S
  /-- The name under which a storage saves a file. -/
  availableName : Finset (S × String) → S → String → String
  available : ∀ files s name, (s, availableName files s name) ∉ files
  available_ne : ∀ files s name, availableName files s name ≠ ""
  pkHasDefault : M → Bool
  /-- The rows a deletion takes with it; `none` if it is protected. -/
  collect : Table (M × K) (F → String) → Finset (M × K) → Option (Finset (M × K))

/-- The steps.  The database may refuse a write; `cached` are the instances of a queryset that was evaluated. -/
inductive CleanupEvent (M K F I : Type)
  /-- `Model(**values)`, or a row as it is loaded. -/
  | construct (i : I) (model : M) (pk : Option K) (adding : Bool) (values : F → Value)
  | assign (i : I) (f : F) (value : Value)
  | save (i : I) (updateFields : Option (List F)) (newPk : K) (refused : Bool)
  | delete (i : I)
  | querysetUpdate (model : M) (pks : Finset K) (cached : Option (List I)) (kwargs : F → Option String) (refused : Bool)
  | querysetDelete (model : M) (pks : Finset K) (cached : Option (List I))

namespace Instance

variable {M K F : Type} [DecidableEq F]

def set (self : Instance M K F) (f : F) (value : Value) : Instance M K F :=
  { self with dict := Function.update self.dict f value }

/-- `__setattr__`. -/
def setattr (fileFields : List F) (self : Instance M K F) (f : F) (value : Value) : Instance M K F :=
  let self' := self.set f value
  if f ∈ fileFields ∧ self'.initialFileState f = none then
    { self' with initialFileState := Function.update self'.initialFileState f (some value) }
  else self'

/-- `getattr` of the fields. -/
def read (fields : List F) (self : Instance M K F) : Instance M K F :=
  { self with dict := fun f => if f ∈ fields then (self.dict f).read else self.dict f }

/-- `_get_dirty_file_fields`. -/
def getDirtyFileFields (fileFields : List F) (self : Instance M K F) : List F :=
  fileFields.filter fun fname =>
    match self.initialFileState fname with
    | some val =>
      -- `current_val` is read from the initial state too
      let currentVal := self.initialFileState fname
      decide (currentVal ≠ some val)
    | none => false

/-- The end of `save`: the initial state is that of the `__dict__`.  A path that is not empty has no `name`. -/
def recordInitial : List F → Instance M K F → Bool × Instance M K F
  | [], self => (false, self)
  | fname :: fileFields, self =>
    match self.dict fname with
    | .str path =>
      if path = "" then
        recordInitial fileFields
          { self with initialFileState := Function.update self.initialFileState fname (some (.str "")) }
      else (true, self)
    | value =>
      recordInitial fileFields
        { self with initialFileState := Function.update self.initialFileState fname (some (.str value.name)) }

end Instance

/-! ## The mixins -/

namespace CleanupModels

variable {M K F S I : Type} [DecidableEq M] [DecidableEq K] [DecidableEq F] [DecidableEq S] [DecidableEq I]
variable (models : CleanupModels M K F S)

/-- `delete_files`. -/
def deleteFiles (fieldName : F) (filePaths : Finset String) (files : Finset (S × String)) : Finset (S × String) :=
  files \ (filePaths.erase "").image fun item => (models.storage fieldName, item)

/-- `delete_files` of each field. -/
def deleteEach (fields : List F) (fileToDelete : F → Finset String) (files : Finset (S × String)) :
    Finset (S × String) :=
  fields.foldl (fun files fname => models.deleteFiles fname (fileToDelete fname) files) files

/-- `FileField.pre_save`: the uploads are saved.  `FieldFile.save` leaves the path of the file in the `__dict__`. -/
def preSave : List F → Instance M K F × Finset (S × String) → Instance M K F × Finset (S × String)
  | [], x => x
  | f :: fields, (self, files) =>
    match self.dict f with
    | .upload name =>
      if name = "" then preSave fields (self, files)
      else
        let stored := models.availableName files (models.storage f) name
        preSave fields (self.setattr (models.fileFields self.model) f (.str stored),
          insert (models.storage f, stored) files)
    | value => preSave fields (self.set f value.read, files)

/-- `pre_save` of the fields, for each statement that a save tries. -/
def commit (fields : List F) (twice : Bool) (x : Instance M K F × Finset (S × String)) :
    Instance M K F × Finset (S × String) :=
  if twice = true then models.preSave fields (models.preSave fields x) else models.preSave fields x

/-- The file fields a save writes. -/
def saved (updateFields : Option (List F)) (self : Instance M K F) : List F :=
  (models.fileFields self.model).filter fun f => updateFields.all fun fields => decide (f ∈ fields)

/-- An INSERT without an UPDATE before it: the primary key is not set, or is the default of a new instance. -/
def forcesInsert (updateFields : Option (List F)) (self : Instance M K F) : Bool :=
  updateFields.isNone && (self.pk.isNone || self.adding && models.pkHasDefault self.model)

/-- An UPDATE that finds no row, and an INSERT after it. -/
def triesTwice (updateFields : Option (List F)) (self : Instance M K F) (row : Option (F → String)) : Bool :=
  updateFields.isNone && !models.forcesInsert updateFields self && row.isNone

/-- The database has no row to update, or one in the place of the row to insert. -/
def refuses (updateFields : Option (List F)) (self : Instance M K F) (row : Option (F → String)) : Bool :=
  (updateFields.isSome && (self.pk.isNone || row.isNone)) || (models.forcesInsert updateFields self && row.isSome)

/-- `save()`. -/
def save (s : CleanupState M K F S I) (i : I) (updateFields : Option (List F)) (newPk : K) (refused : Bool) :
    Bool × CleanupState M K F S I :=
  let self := s.memory i
  let fields := models.saved updateFields self
  let files := models.deleteEach (self.getDirtyFileFields (models.fileFields self.model))
    (fun f => ((self.initialFileState f).map Value.name).toFinset) s.files
  if updateFields = some [] then
    let (raised, self) := self.recordInitial (models.fileFields self.model)
    (raised, ⟨s.rows, files, Function.update s.memory i self⟩)
  else
    let key := (self.model, self.pk.getD newPk)
    let row := s.rows.get key
    let (self', files) := models.commit fields (models.triesTwice updateFields self row) (self, files)
    if refused || models.refuses updateFields self row then
      (true, ⟨s.rows, files, Function.update s.memory i self'⟩)
    else
      let old := row.getD fun _ => ""
      let rows := s.rows.insert key fun f => if f ∈ fields then (self'.dict f).name else old f
      let (raised, self') := { self' with pk := some key.2, adding := false }.recordInitial
        (models.fileFields self.model)
      (raised, ⟨rows, files, Function.update s.memory i self'⟩)

/-- `delete()` of an instance: the files first. -/
def delete (s : CleanupState M K F S I) (i : I) : Bool × CleanupState M K F S I :=
  let self := (s.memory i).read (models.fileFields (s.memory i).model)
  let files := models.deleteEach (models.fileFields self.model) (fun f => {(self.dict f).name}) s.files
  match self.pk.bind fun pk => models.collect s.rows {(self.model, pk)} with
  | none => (true, ⟨s.rows, files, Function.update s.memory i self⟩)
  | some rows =>
    (false, ⟨s.rows.filter fun key _ => decide (key ∉ rows), files, Function.update s.memory i { self with pk := none }⟩)

/-- The names a queryset reads under a field: those of the rows, or those of the instances it has. -/
def namesRead (s : CleanupState M K F S I) (model : M) (pks : Finset K) (cached : Option (List I)) (f : F) :
    Finset String :=
  match cached with
  | none => pks.biUnion fun pk => ((s.rows.get (model, pk)).map fun row => row f).toFinset
  | some instances => (instances.map fun i => ((s.memory i).dict f).name).toFinset

/-- The instances of a queryset once they are read. -/
def readCached (fields : List F) (cached : Option (List I)) (memory : I → Instance M K F) (i : I) : Instance M K F :=
  if i ∈ cached.getD [] then (memory i).read fields else memory i

/-- `update()` of a queryset. -/
def querysetUpdate (s : CleanupState M K F S I) (model : M) (pks : Finset K) (cached : Option (List I))
    (kwargs : F → Option String) (refused : Bool) : Bool × CleanupState M K F S I :=
  let updated := (models.fileFields model).filter fun f => (kwargs f).isSome
  let memory := readCached updated cached s.memory
  if refused then (true, { s with memory := memory })
  else
    (false,
      { rows := s.rows.map fun key row =>
          if key.1 = model ∧ key.2 ∈ pks then fun f => if f ∈ updated then (kwargs f).getD "" else row f else row
        files := models.deleteEach updated (namesRead s model pks cached) s.files
        memory := memory })

/-- `delete()` of a queryset. -/
def querysetDelete (s : CleanupState M K F S I) (model : M) (pks : Finset K) (cached : Option (List I)) :
    Bool × CleanupState M K F S I :=
  let fields := models.fileFields model
  let memory := readCached fields cached s.memory
  match models.collect s.rows (pks.image (Prod.mk model)) with
  | none => (true, { s with memory := memory })
  | some rows =>
    (false,
      { rows := s.rows.filter fun key _ => decide (key ∉ rows)
        files := models.deleteEach fields (namesRead s model pks cached) s.files
        memory := memory })

/-- A step, and whether it raises. -/
def step (s : CleanupState M K F S I) : CleanupEvent M K F I → Bool × CleanupState M K F S I
  | .construct i model pk adding values =>
    (false, { s with
      memory := Function.update s.memory i
        ⟨model, pk, adding, values, fun f => if f ∈ models.fileFields model then some (values f) else none⟩ })
  | .assign i f value =>
    (false, { s with
      memory := Function.update s.memory i ((s.memory i).setattr (models.fileFields (s.memory i).model) f value) })
  | .save i updateFields newPk refused => models.save s i updateFields newPk refused
  | .delete i => models.delete s i
  | .querysetUpdate model pks cached kwargs refused => models.querysetUpdate s model pks cached kwargs refused
  | .querysetDelete model pks cached => models.querysetDelete s model pks cached

/-! ## What the files should be -/

/-- The name `path` under the field `f` is that of the file. -/
def Names (f : F) (path : String) (file : S × String) : Prop := path ≠ "" ∧ file = (models.storage f, path)

/-- A field of a row names the file; `cells` says which fields of which rows. -/
def HeldBy (rows : Table (M × K) (F → String)) (cells : M × K → F → Prop) (file : S × String) : Prop :=
  ∃ key row f, rows.get key = some row ∧ f ∈ models.fileFields key.1 ∧ cells key f ∧ models.Names f (row f) file

/-- Some row references the file. -/
def Referenced (rows : Table (M × K) (F → String)) (file : S × String) : Prop :=
  models.HeldBy rows (fun _ _ => True) file

/-- A step has left the files as it should: after one that raises, none is gone; after any other, those that rows
reference are there, and those that no row references any more are not. -/
structure Cleaned (s : CleanupState M K F S I) (raised : Bool) (s' : CleanupState M K F S I) : Prop where
  atomic : raised = true → s.files ⊆ s'.files
  kept : raised = false → ∀ file ∈ s.files, models.Referenced s'.rows file → file ∈ s'.files
  collected : raised = false → ∀ file ∈ s.files, models.Referenced s.rows file → ¬ models.Referenced s'.rows file →
    file ∉ s'.files

/-! ### The steps that do -/

/-- The `__dict__` has a path under the field when the save is done: one that was never read, or that of an upload
which a single statement has saved. -/
def LeavesPath (s : CleanupState M K F S I) (i : I) (updateFields : Option (List F)) (newPk : K) (f : F) : Prop :=
  let self := s.memory i
  if f ∈ models.saved updateFields self then
    (self.dict f).Uploaded ∧
      models.triesTwice updateFields self (s.rows.get (self.model, self.pk.getD newPk)) = false
  else ∃ path, self.dict f = .str path ∧ path ≠ ""

/-- A save raises: the database refuses what it has to write, or a field has a path at the end, which has no
`name`. -/
def SaveRaises (s : CleanupState M K F S I) (i : I) (updateFields : Option (List F)) (newPk : K) (refused : Bool) :
    Prop :=
  let self := s.memory i
  (updateFields ≠ some [] ∧ (refused = true ∨
      models.refuses updateFields self (s.rows.get (self.model, self.pk.getD newPk)) = true)) ∨
    ∃ f ∈ models.fileFields self.model, models.LeavesPath s i updateFields newPk f

/-- Every file a save would replace is named again, by a field that is saved or by another one. -/
def SaveReplacesNone (s : CleanupState M K F S I) (i : I) (updateFields : Option (List F)) (newPk : K) : Prop :=
  let self := s.memory i
  let cells := fun (key : M × K) f => key = (self.model, self.pk.getD newPk) ∧ f ∈ models.saved updateFields self
  ∀ file ∈ s.files, models.HeldBy s.rows cells file →
    models.HeldBy s.rows (fun key f => ¬ cells key f) file ∨
      ∃ f ∈ models.saved updateFields self, ∃ path,
        (self.dict f = .str path ∨ self.dict f = .fieldFile path) ∧ models.Names f path file

/-- The instance names the file in memory. -/
def InMemory (self : Instance M K F) (file : S × String) : Prop :=
  ∃ f ∈ models.fileFields self.model, models.Names f (self.dict f).name file

/-- The queryset has read the name of the file. -/
def Read (s : CleanupState M K F S I) (model : M) (pks : Finset K) (cached : Option (List I)) (fields : List F)
    (file : S × String) : Prop :=
  ∃ f ∈ fields, ∃ path ∈ namesRead s model pks cached f, models.Names f path file

/-- The files read are those of the rows deleted that no other row names. -/
def DeletesItsOwn (s : CleanupState M K F S I) (deleted : Finset (M × K)) (read : S × String → Prop) : Prop :=
  ∀ file ∈ s.files,
    (read file → ¬ models.HeldBy s.rows (fun key _ => key ∉ deleted) file) ∧
      (models.HeldBy s.rows (fun key _ => key ∈ deleted) file →
        models.HeldBy s.rows (fun key _ => key ∉ deleted) file ∨ read file)

/-- The files read are those of the fields updated that are not named by another field or by the new values. -/
def UpdatesItsOwn (s : CleanupState M K F S I) (model : M) (pks : Finset K) (cached : Option (List I))
    (kwargs : F → Option String) : Prop :=
  let updated := (models.fileFields model).filter fun f => (kwargs f).isSome
  let cells := fun (key : M × K) f => (key.1 = model ∧ key.2 ∈ pks) ∧ f ∈ updated
  let left := fun file => models.HeldBy s.rows (fun key f => ¬ cells key f) file ∨
    ∃ key row f path, s.rows.get key = some row ∧ cells key f ∧ kwargs f = some path ∧ models.Names f path file
  ∀ file ∈ s.files,
    (models.Read s model pks cached updated file → ¬ left file) ∧
      (models.HeldBy s.rows cells file → left file ∨ models.Read s model pks cached updated file)

/-- The step deletes the files it should. -/
def Tidy (s : CleanupState M K F S I) : CleanupEvent M K F I → Prop
  | .construct .. => True
  | .assign .. => True
  | .save i updateFields newPk refused =>
    models.SaveRaises s i updateFields newPk refused ∨ models.SaveReplacesNone s i updateFields newPk
  | .delete i =>
    match (s.memory i).pk.bind fun pk => models.collect s.rows {((s.memory i).model, pk)} with
    | none => ∀ file ∈ s.files, ¬ models.InMemory (s.memory i) file
    | some deleted => models.DeletesItsOwn s deleted (models.InMemory (s.memory i))
  | .querysetUpdate model pks cached kwargs refused =>
    refused = true ∨ models.UpdatesItsOwn s model pks cached kwargs
  | .querysetDelete model pks cached =>
    match models.collect s.rows (pks.image (Prod.mk model)) with
    | none => True
    | some deleted => models.DeletesItsOwn s deleted (models.Read s model pks cached (models.fileFields model))

/-! ## Files deleted and saved -/

variable {models} {s s' : CleanupState M K F S I} {file : S × String}

omit [DecidableEq F] [DecidableEq M] [DecidableEq K] in
theorem mem_deleteFiles {f : F} {paths : Finset String} {files : Finset (S × String)} :
    file ∈ models.deleteFiles f paths files ↔ file ∈ files ∧ ∀ path ∈ paths, ¬ models.Names f path file := by
  rw [deleteFiles, Finset.mem_sdiff, Finset.mem_image]
  refine and_congr_right fun _ => ⟨fun h path hpath hnames => ?_, ?_⟩
  · exact h ⟨path, Finset.mem_erase.mpr ⟨hnames.1, hpath⟩, hnames.2.symm⟩
  · rintro h ⟨path, hpath, heq⟩
    obtain ⟨hne, hpath⟩ := Finset.mem_erase.mp hpath
    exact h path hpath ⟨hne, heq.symm⟩

omit [DecidableEq F] [DecidableEq M] [DecidableEq K] in
theorem mem_deleteEach {fields : List F} {paths : F → Finset String} {files : Finset (S × String)} :
    file ∈ models.deleteEach fields paths files ↔
      file ∈ files ∧ ¬ ∃ f ∈ fields, ∃ path ∈ paths f, models.Names f path file := by
  unfold deleteEach
  induction fields generalizing files with
  | nil => simp
  | cons f fields ih =>
    rw [List.foldl_cons, ih, mem_deleteFiles]
    simp only [List.exists_mem_cons_iff, not_or, not_exists, not_and, and_assoc]

omit [DecidableEq M] [DecidableEq K] [DecidableEq F] in
/-- **A save finds no field that has changed**, whatever was assigned: it deletes no file. -/
theorem getDirtyFileFields_eq_nil (fileFields : List F) (self : Instance M K F) :
    self.getDirtyFileFields fileFields = [] := by
  refine List.filter_eq_nil_iff.mpr fun fname _ => ?_
  cases h : self.initialFileState fname with
  | none => simp
  | some val => simp

/-- What `pre_save` makes of a value, with these files in the storages. -/
def Committed (models : CleanupModels M K F S) (files : Finset (S × String)) (f : F) (value value' : Value) : Prop :=
  (value.Uploaded → ∃ path, value' = .str path ∧ path ≠ "" ∧ (models.storage f, path) ∉ files) ∧
    (¬ value.Uploaded → value' = value.read)

omit [DecidableEq M] [DecidableEq K] [DecidableEq F] [DecidableEq S] in
theorem Committed.mono {files files' : Finset (S × String)} (hsub : files ⊆ files') {f : F} {value value' : Value}
    (h : Committed models files' f value value') : Committed models files f value value' := by
  refine ⟨fun hupload => ?_, h.2⟩
  obtain ⟨path, hvalue, hne, hnew⟩ := h.1 hupload
  exact ⟨path, hvalue, hne, fun hmem => hnew (hsub hmem)⟩

omit [DecidableEq M] [DecidableEq K] in
theorem setattr_dict (fileFields : List F) (self : Instance M K F) (f : F) (value : Value) :
    (self.setattr fileFields f value).dict = Function.update self.dict f value := by
  unfold Instance.setattr
  dsimp only
  split_ifs <;> rfl

omit [DecidableEq M] [DecidableEq K] in
theorem setattr_model (fileFields : List F) (self : Instance M K F) (f : F) (value : Value) :
    (self.setattr fileFields f value).model = self.model := by
  unfold Instance.setattr
  dsimp only
  split_ifs <;> rfl

variable (models) in
omit [DecidableEq M] [DecidableEq K] in
/-- `pre_save` of a field first commits it, then goes on. -/
theorem preSave_cons (g : F) (fields : List F) (self : Instance M K F) (files : Finset (S × String)) :
    ∃ self' files', models.preSave (g :: fields) (self, files) = models.preSave fields (self', files') ∧
      files ⊆ files' ∧ self'.model = self.model ∧ Committed models files g (self.dict g) (self'.dict g) ∧
      ∀ f, f ≠ g → self'.dict f = self.dict f := by
  have hread : ∀ value, self.dict g = value → ¬ value.Uploaded →
      Committed models files g (self.dict g) ((self.set g value.read).dict g) ∧
        ∀ f, f ≠ g → (self.set g value.read).dict f = self.dict f := by
    intro value hdict hnot
    refine ⟨⟨fun hupload => absurd (hdict ▸ hupload) hnot, fun _ => ?_⟩, fun f hf => Function.update_of_ne hf _ _⟩
    rw [hdict]
    exact Function.update_self ..
  cases hdict : self.dict g with
  | str path =>
    obtain ⟨hcommitted, hother⟩ := hread _ hdict (Value.not_uploaded_str path)
    rw [hdict] at hcommitted
    exact ⟨self.set g (.fieldFile path), files, by simp only [preSave, hdict, Value.read], subset_rfl, rfl,
      hcommitted, hother⟩
  | fieldFile name =>
    obtain ⟨hcommitted, hother⟩ := hread _ hdict (Value.not_uploaded_fieldFile name)
    rw [hdict] at hcommitted
    exact ⟨self.set g (.fieldFile name), files, by simp only [preSave, hdict, Value.read], subset_rfl, rfl,
      hcommitted, hother⟩
  | upload name =>
    by_cases hname : name = ""
    · subst hname
      refine ⟨self, files, by simp only [preSave, hdict, if_true], subset_rfl, rfl, ?_, fun f _ => rfl⟩
      exact ⟨fun hupload => absurd hupload Value.not_uploaded_empty, fun _ => hdict⟩
    · refine ⟨_, _, by simp only [preSave, hdict, if_neg hname]; rfl, Finset.subset_insert _ _,
        setattr_model .., ⟨fun _ => ?_, fun hnot => absurd ⟨name, rfl, hname⟩ hnot⟩, fun f hf => ?_⟩
      · rw [setattr_dict, Function.update_self]
        exact ⟨_, rfl, models.available_ne _ _ _, models.available _ _ _⟩
      · rw [setattr_dict, Function.update_of_ne hf]

variable (models) in
omit [DecidableEq M] [DecidableEq K] in
/-- `pre_save` adds files, commits the fields it is given, and leaves the others. -/
theorem preSave_spec {fields : List F} (hnodup : fields.Nodup) (self : Instance M K F) (files : Finset (S × String)) :
    files ⊆ (models.preSave fields (self, files)).2 ∧
      (models.preSave fields (self, files)).1.model = self.model ∧
      (∀ f ∈ fields, Committed models files f (self.dict f) ((models.preSave fields (self, files)).1.dict f)) ∧
      (∀ f ∉ fields, (models.preSave fields (self, files)).1.dict f = self.dict f) := by
  induction fields generalizing self files with
  | nil => exact ⟨subset_rfl, rfl, fun f hf => (List.not_mem_nil hf).elim, fun f _ => rfl⟩
  | cons g fields ih =>
    obtain ⟨hg, hnodup⟩ := List.nodup_cons.mp hnodup
    obtain ⟨self', files', heq, hsub, hmodel, hcommitted, hother⟩ := preSave_cons models g fields self files
    obtain ⟨hfiles, hmodel', hmem, hothers⟩ := ih hnodup self' files'
    rw [heq]
    refine ⟨hsub.trans hfiles, hmodel'.trans hmodel, fun f hf => ?_, fun f hf => ?_⟩
    · by_cases hfg : f = g
      · subst hfg
        rwa [hothers f hg]
      · have hdone := hmem f ((List.mem_cons.mp hf).resolve_left hfg)
        rw [hother f hfg] at hdone
        exact hdone.mono hsub
    · rw [List.mem_cons, not_or] at hf
      rw [hothers f hf.2, hother f hf.1]

omit [DecidableEq M] [DecidableEq K] [DecidableEq F] [DecidableEq S] in
theorem Committed.not_uploaded {files : Finset (S × String)} {f : F} {value value' : Value}
    (h : Committed models files f value value') : ¬ value'.Uploaded := by
  by_cases hupload : value.Uploaded
  · obtain ⟨path, rfl, -⟩ := h.1 hupload
    exact Value.not_uploaded_str path
  · rw [h.2 hupload]
    cases value with
    | str path => exact Value.not_uploaded_fieldFile path
    | fieldFile name => exact Value.not_uploaded_fieldFile name
    | upload name => exact hupload

omit [DecidableEq M] [DecidableEq K] [DecidableEq F] [DecidableEq S] in
/-- A path is left by an upload alone. -/
theorem Committed.leaves_path {files : Finset (S × String)} {f : F} {value value' : Value}
    (h : Committed models files f value value') : (∃ path, value' = .str path ∧ path ≠ "") ↔ value.Uploaded := by
  by_cases hupload : value.Uploaded
  · obtain ⟨path, hvalue, hne, -⟩ := h.1 hupload
    exact iff_of_true ⟨path, hvalue, hne⟩ hupload
  · refine iff_of_false ?_ hupload
    rintro ⟨path, hvalue, -⟩
    exact value.read_ne_str path ((h.2 hupload).symm.trans hvalue)

omit [DecidableEq M] [DecidableEq K] [DecidableEq F] [DecidableEq S] in
/-- A field that is committed names a file that was there if it already did. -/
theorem names_committed {files : Finset (S × String)} {f : F} {value value' : Value}
    (h : Committed models files f value value') (hfile : file ∈ files) :
    models.Names f value'.name file ↔
      ∃ path, (value = .str path ∨ value = .fieldFile path) ∧ models.Names f path file := by
  cases value with
  | str path =>
    rw [h.2 (Value.not_uploaded_str path)]
    simp [Value.read, Value.name]
  | fieldFile name =>
    rw [h.2 (Value.not_uploaded_fieldFile name)]
    simp [Value.read, Value.name]
  | upload name =>
    refine iff_of_false (fun hnames => ?_) (by simp)
    by_cases hupload : (Value.upload name).Uploaded
    · obtain ⟨path, rfl, -, hnew⟩ := h.1 hupload
      refine hnew ?_
      rwa [← show file = (models.storage f, path) from hnames.2]
    · rw [h.2 hupload] at hnames
      exact hupload ⟨name, rfl, hnames.1⟩

/-- What a save makes of the values of its fields: a path is left where a single statement has saved an upload. -/
structure Saved (models : CleanupModels M K F S) (fields : List F) (twice : Bool) (files : Finset (S × String))
    (before : Instance M K F) (x : Instance M K F × Finset (S × String)) : Prop where
  stored : files ⊆ x.2
  model : x.1.model = before.model
  path : ∀ f ∈ fields, (∃ path, x.1.dict f = .str path ∧ path ≠ "") ↔ (before.dict f).Uploaded ∧ twice = false
  names : ∀ f ∈ fields, ∀ file ∈ files, models.Names f (x.1.dict f).name file ↔
    ∃ path, (before.dict f = .str path ∨ before.dict f = .fieldFile path) ∧ models.Names f path file
  other : ∀ f ∉ fields, x.1.dict f = before.dict f

variable (models) in
omit [DecidableEq M] [DecidableEq K] in
theorem commit_saved {fields : List F} (hnodup : fields.Nodup) (twice : Bool) (self : Instance M K F)
    (files : Finset (S × String)) :
    Saved models fields twice files self (models.commit fields twice (self, files)) := by
  obtain ⟨hsub, hmodel, hcommitted, hother⟩ := preSave_spec models hnodup self files
  unfold commit
  generalize models.preSave fields (self, files) = pre at *
  obtain ⟨self', files'⟩ := pre
  cases twice with
  | false =>
    rw [if_neg Bool.false_ne_true]
    exact {
      stored := hsub
      model := hmodel
      path := fun f hf => (hcommitted f hf).leaves_path.trans (by simp)
      names := fun f hf file hfile => names_committed (hcommitted f hf) hfile
      other := hother }
  | true =>
    obtain ⟨hsub', hmodel', hcommitted', hother'⟩ := preSave_spec models hnodup self' files'
    rw [if_pos rfl]
    -- nothing is left to upload: the second time the paths are read
    have hread : ∀ f ∈ fields, (models.preSave fields (self', files')).1.dict f = (self'.dict f).read :=
      fun f hf => (hcommitted' f hf).2 (hcommitted f hf).not_uploaded
    exact {
      stored := hsub.trans hsub'
      model := hmodel'.trans hmodel
      path := fun f hf => iff_of_false
        (fun ⟨path, hvalue, _⟩ => Value.read_ne_str _ path ((hread f hf).symm.trans hvalue)) (by simp)
      names := fun f hf file hfile => by
        rw [hread f hf, Value.read_name]
        exact names_committed (hcommitted f hf) hfile
      other := fun f hf => (hother' f hf).trans (hother f hf) }

omit [DecidableEq M] [DecidableEq K] in
theorem recordInitial_raises (fields : List F) (self : Instance M K F) :
    (self.recordInitial fields).1 = true ↔ ∃ f ∈ fields, ∃ path, self.dict f = .str path ∧ path ≠ "" := by
  induction fields generalizing self with
  | nil => simp [Instance.recordInitial]
  | cons f fields ih =>
    rw [List.exists_mem_cons_iff]
    cases hdict : self.dict f with
    | str path =>
      by_cases hpath : path = ""
      · simp [Instance.recordInitial, hdict, hpath, ih]
      · simp [Instance.recordInitial, hdict, hpath]
    | fieldFile name => simp [Instance.recordInitial, hdict, ih]
    | upload name => simp [Instance.recordInitial, hdict, ih]

/-! ## References -/

variable {rows : Table (M × K) (F → String)} {cells : M × K → F → Prop}

omit [DecidableEq M] [DecidableEq K] [DecidableEq F] [DecidableEq S] in
theorem HeldBy.mono {cells' : M × K → F → Prop} (hsub : ∀ key f, cells key f → cells' key f)
    (h : models.HeldBy rows cells file) : models.HeldBy rows cells' file := by
  obtain ⟨key, row, f, hrow, hf, hcell, hnames⟩ := h
  exact ⟨key, row, f, hrow, hf, hsub key f hcell, hnames⟩

omit [DecidableEq M] [DecidableEq K] [DecidableEq F] [DecidableEq S] in
theorem HeldBy.referenced (h : models.HeldBy rows cells file) : models.Referenced rows file :=
  h.mono fun _ _ _ => trivial

omit [DecidableEq M] [DecidableEq K] [DecidableEq F] [DecidableEq S] in
theorem Referenced.cases (cells : M × K → F → Prop) (h : models.Referenced rows file) :
    models.HeldBy rows cells file ∨ models.HeldBy rows (fun key f => ¬ cells key f) file := by
  obtain ⟨key, row, f, hrow, hf, -, hnames⟩ := h
  by_cases hcell : cells key f
  · exact .inl ⟨key, row, f, hrow, hf, hcell, hnames⟩
  · exact .inr ⟨key, row, f, hrow, hf, hcell, hnames⟩

omit [DecidableEq S] in
/-- What is referenced once a row is saved. -/
theorem referenced_insert {key : M × K} {fields : List F} (hfields : ∀ f ∈ fields, f ∈ models.fileFields key.1)
    {path : F → String} :
    models.Referenced (rows.insert key fun f => if f ∈ fields then path f else ((rows.get key).getD fun _ => "") f) file ↔
      models.HeldBy rows (fun key' f => ¬ (key' = key ∧ f ∈ fields)) file ∨
        ∃ f ∈ fields, models.Names f (path f) file := by
  constructor
  · rintro ⟨key', row, f, hrow, hf, -, hnames⟩
    by_cases hkey : key' = key
    · subst hkey
      rw [Table.get_insert_self] at hrow
      obtain rfl := Option.some.inj hrow
      dsimp only at hnames
      by_cases hsaved : f ∈ fields
      · rw [if_pos hsaved] at hnames
        exact .inr ⟨f, hsaved, hnames⟩
      · rw [if_neg hsaved] at hnames
        cases hold : rows.get key' with
        | none =>
          rw [hold] at hnames
          exact absurd rfl hnames.1
        | some old =>
          rw [hold] at hnames
          exact .inl ⟨key', old, f, hold, hf, fun h => hsaved h.2, hnames⟩
    · rw [Table.get_insert_of_ne hkey] at hrow
      exact .inl ⟨key', row, f, hrow, hf, fun h => hkey h.1, hnames⟩
  · rintro (⟨key', row, f, hrow, hf, hcell, hnames⟩ | ⟨f, hsaved, hnames⟩)
    · by_cases hkey : key' = key
      · subst hkey
        have hsaved : f ∉ fields := fun h => hcell ⟨rfl, h⟩
        exact ⟨key', _, f, Table.get_insert_self .., hf, trivial, by rwa [if_neg hsaved, hrow]⟩
      · exact ⟨key', row, f, by rwa [Table.get_insert_of_ne hkey], hf, trivial, hnames⟩
    · exact ⟨key, _, f, Table.get_insert_self .., hfields f hsaved, trivial, by rwa [if_pos hsaved]⟩

omit [DecidableEq F] [DecidableEq S] in
/-- What is referenced once rows are deleted. -/
theorem referenced_filter {deleted : Finset (M × K)} :
    models.Referenced (rows.filter fun key _ => decide (key ∉ deleted)) file ↔
      models.HeldBy rows (fun key _ => key ∉ deleted) file := by
  constructor
  · rintro ⟨key, row, f, hrow, hf, -, hnames⟩
    rw [Table.get_filter, Option.filter_eq_some_iff, decide_eq_true_eq] at hrow
    exact ⟨key, row, f, hrow.1, hf, hrow.2, hnames⟩
  · rintro ⟨key, row, f, hrow, hf, hcell, hnames⟩
    refine ⟨key, row, f, ?_, hf, trivial, hnames⟩
    rw [Table.get_filter, Option.filter_eq_some_iff, decide_eq_true_eq]
    exact ⟨hrow, hcell⟩

omit [DecidableEq S] in
/-- What is referenced once rows are updated. -/
theorem referenced_map {model : M} {pks : Finset K} {kwargs : F → Option String} :
    models.Referenced (rows.map fun key row => if key.1 = model ∧ key.2 ∈ pks then
        fun f => if f ∈ (models.fileFields model).filter fun f => (kwargs f).isSome then (kwargs f).getD "" else row f
      else row) file ↔
      models.HeldBy rows (fun key f => ¬ ((key.1 = model ∧ key.2 ∈ pks) ∧
          f ∈ (models.fileFields model).filter fun f => (kwargs f).isSome)) file ∨
        ∃ key row f path, rows.get key = some row ∧ ((key.1 = model ∧ key.2 ∈ pks) ∧
          f ∈ (models.fileFields model).filter fun f => (kwargs f).isSome) ∧ kwargs f = some path ∧
          models.Names f path file := by
  constructor
  · rintro ⟨key, row', f, hrow', hf, -, hnames⟩
    rw [Table.get_map, Option.map_eq_some_iff] at hrow'
    obtain ⟨row, hrow, rfl⟩ := hrow'
    by_cases hcell : (key.1 = model ∧ key.2 ∈ pks) ∧ f ∈ (models.fileFields model).filter fun f => (kwargs f).isSome
    · rw [if_pos hcell.1, if_pos hcell.2] at hnames
      obtain ⟨path, hpath⟩ := Option.isSome_iff_exists.mp (List.mem_filter.mp hcell.2).2
      rw [hpath, Option.getD_some] at hnames
      exact .inr ⟨key, row, f, path, hrow, hcell, hpath, hnames⟩
    · refine .inl ⟨key, row, f, hrow, hf, hcell, ?_⟩
      by_cases hkey : key.1 = model ∧ key.2 ∈ pks
      · rwa [if_pos hkey, if_neg fun h => hcell ⟨hkey, h⟩] at hnames
      · rwa [if_neg hkey] at hnames
  · rintro (⟨key, row, f, hrow, hf, hcell, hnames⟩ | ⟨key, row, f, path, hrow, hcell, hpath, hnames⟩)
    · refine ⟨key, _, f, by rw [Table.get_map, hrow, Option.map_some], hf, trivial, ?_⟩
      by_cases hkey : key.1 = model ∧ key.2 ∈ pks
      · rwa [if_pos hkey, if_neg fun h => hcell ⟨hkey, h⟩]
      · rwa [if_neg hkey]
    · refine ⟨key, _, f, by rw [Table.get_map, hrow, Option.map_some], ?_, trivial, ?_⟩
      · rw [hcell.1.1]
        exact List.mem_of_mem_filter hcell.2
      · rwa [if_pos hcell.1, if_pos hcell.2, hpath, Option.getD_some]

/-! ## Step by step -/

omit [DecidableEq M] [DecidableEq K] [DecidableEq F] [DecidableEq S] [DecidableEq I] in
/-- A step that raises is to delete nothing. -/
theorem cleaned_of_raised : models.Cleaned s true s' ↔ s.files ⊆ s'.files :=
  ⟨fun h => h.atomic rfl, fun h =>
    ⟨fun _ => h, fun hraised => Bool.noConfusion hraised, fun hraised => Bool.noConfusion hraised⟩⟩

omit [DecidableEq M] [DecidableEq K] [DecidableEq F] [DecidableEq S] [DecidableEq I] in
/-- A step that deletes the files read, overwrites those `held` and leaves those `left`. -/
theorem cleaned_iff (read held left : S × String → Prop) (hfiles : ∀ file ∈ s.files, file ∈ s'.files ↔ ¬ read file)
    (hheld : ∀ file, held file → models.Referenced s.rows file)
    (hbefore : ∀ file, models.Referenced s.rows file → held file ∨ left file)
    (hafter : ∀ file ∈ s.files, models.Referenced s'.rows file ↔ left file) :
    models.Cleaned s false s' ↔ ∀ file ∈ s.files, (read file → ¬ left file) ∧ (held file → left file ∨ read file) := by
  constructor
  · intro h file hfile
    refine ⟨fun hread hleft => ?_, fun hhold => ?_⟩
    · exact (hfiles file hfile).mp (h.kept rfl file hfile ((hafter file hfile).mpr hleft)) hread
    · by_contra hnot
      rw [not_or] at hnot
      have hgone := h.collected rfl file hfile (hheld file hhold) fun href => hnot.1 ((hafter file hfile).mp href)
      exact hgone ((hfiles file hfile).mpr hnot.2)
  · intro h
    refine ⟨fun hraised => Bool.noConfusion hraised, fun _ file hfile href => ?_, fun _ file hfile href hnot hmem => ?_⟩
    · exact (hfiles file hfile).mpr fun hread => (h file hfile).1 hread ((hafter file hfile).mp href)
    · have hnotLeft : ¬ left file := fun hleft => hnot ((hafter file hfile).mpr hleft)
      have hread := ((h file hfile).2 ((hbefore file href).resolve_right hnotLeft)).resolve_left hnotLeft
      exact (hfiles file hfile).mp hmem hread

omit [DecidableEq M] [DecidableEq K] [DecidableEq S] [DecidableEq I] in
/-- The paths that a save leaves in the `__dict__`. -/
theorem recordInitial_leavesPath {i : I} {updateFields : Option (List F)} {newPk : K}
    {x : Instance M K F × Finset (S × String)}
    (h : Saved models (models.saved updateFields (s.memory i))
      (models.triesTwice updateFields (s.memory i)
        (s.rows.get ((s.memory i).model, (s.memory i).pk.getD newPk))) s.files (s.memory i) x) :
    (∃ f ∈ models.fileFields (s.memory i).model, ∃ path, x.1.dict f = .str path ∧ path ≠ "") ↔
      ∃ f ∈ models.fileFields (s.memory i).model, models.LeavesPath s i updateFields newPk f := by
  refine exists_congr fun f => and_congr_right fun _ => ?_
  unfold LeavesPath
  dsimp only
  by_cases hsaved : f ∈ models.saved updateFields (s.memory i)
  · rw [if_pos hsaved]
    exact h.path f hsaved
  · rw [if_neg hsaved, h.other f hsaved]

variable (models s) in
/-- A save of no field writes nothing. -/
theorem save_none_tidy (i : I) (newPk : K) (refused : Bool) :
    models.Cleaned s (models.save s i (some []) newPk refused).1 (models.save s i (some []) newPk refused).2 ∧
      models.SaveReplacesNone s i (some []) newPk := by
  constructor
  · unfold save
    simp only [getDirtyFileFields_eq_nil, deleteEach, List.foldl_nil, if_true]
    exact ⟨fun _ => subset_rfl, fun _ _ hfile _ => hfile, fun _ _ _ href hnot => absurd href hnot⟩
  · rintro file hfile ⟨key, row, f, -, -, ⟨-, hsaved⟩, -⟩
    simp [saved] at hsaved

/-- A save is tidy if it replaces no file that nothing else names. -/
theorem save_tidy_iff (i : I) (updateFields : Option (List F)) (newPk : K) (refused : Bool) :
    models.Cleaned s (models.save s i updateFields newPk refused).1 (models.save s i updateFields newPk refused).2 ↔
      models.Tidy s (.save i updateFields newPk refused) := by
  by_cases hnone : updateFields = some []
  · subst hnone
    obtain ⟨hcleaned, hreplaces⟩ := save_none_tidy models s i newPk refused
    exact iff_of_true hcleaned (.inr hreplaces)
  have hnodup : (models.saved updateFields (s.memory i)).Nodup :=
    (models.fileFields_nodup (s.memory i).model).filter _
  have hfields : ∀ f ∈ models.saved updateFields (s.memory i), f ∈ models.fileFields (s.memory i).model :=
    fun f hf => List.mem_of_mem_filter hf
  have hsaved := commit_saved models hnodup (models.triesTwice updateFields (s.memory i)
    (s.rows.get ((s.memory i).model, (s.memory i).pk.getD newPk))) (s.memory i) s.files
  have hleaves := recordInitial_leavesPath hsaved
  unfold save Tidy
  simp only [getDirtyFileFields_eq_nil, deleteEach, List.foldl_nil, if_neg hnone]
  generalize models.commit (models.saved updateFields (s.memory i)) _ (s.memory i, s.files) = pre at *
  obtain ⟨self, files⟩ := pre
  dsimp only at hleaves ⊢
  split_ifs with hrefused
  · -- refused by the database
    rw [Bool.or_eq_true] at hrefused
    rw [cleaned_of_raised]
    exact iff_of_true hsaved.stored (.inl (.inl ⟨hnone, hrefused⟩))
  · have hraises := recordInitial_raises (models.fileFields (s.memory i).model)
      { self with pk := some ((s.memory i).pk.getD newPk), adding := false }
    generalize Instance.recordInitial (models.fileFields (s.memory i).model) _ = record at hraises ⊢
    obtain ⟨raised, self'⟩ := record
    dsimp only at hraises ⊢
    rw [hleaves] at hraises
    cases raised with
    | true =>
      rw [cleaned_of_raised]
      exact iff_of_true hsaved.stored (.inl (.inr (hraises.mp rfl)))
    | false =>
      have hdone : ¬ models.SaveRaises s i updateFields newPk refused := by
        rintro (⟨-, h⟩ | h)
        · exact hrefused (Bool.or_eq_true _ _ ▸ h)
        · cases hraises.mpr h
      rw [or_iff_right hdone, cleaned_iff (fun _ => False)
        (models.HeldBy s.rows fun key f => key = ((s.memory i).model, (s.memory i).pk.getD newPk) ∧
          f ∈ models.saved updateFields (s.memory i))
        (fun file => models.HeldBy s.rows (fun key f =>
            ¬ (key = ((s.memory i).model, (s.memory i).pk.getD newPk) ∧ f ∈ models.saved updateFields (s.memory i))) file ∨
          ∃ f ∈ models.saved updateFields (s.memory i), ∃ path,
            ((s.memory i).dict f = .str path ∨ (s.memory i).dict f = .fieldFile path) ∧ models.Names f path file)]
      · refine forall₂_congr fun file _ => ?_
        simp only [false_imp_iff, true_and, or_false]
      · exact fun file hfile => iff_of_true (hsaved.stored hfile) not_false
      · exact fun file h => h.referenced
      · exact fun file h => (h.cases _).imp_right .inl
      · intro file hfile
        refine (referenced_insert hfields).trans ?_
        refine or_congr_right (exists_congr fun f => and_congr_right fun hf => ?_)
        exact hsaved.names f hf file hfile

omit [DecidableEq F] [DecidableEq I] in
/-- A deletion of rows, with the files read, is tidy if these are the files of the rows that no other row names. -/
theorem deleteRows_tidy_iff {deleted : Finset (M × K)} {fields : List F} {paths : F → Finset String}
    {read : S × String → Prop} (hread : ∀ file, (∃ f ∈ fields, ∃ path ∈ paths f, models.Names f path file) ↔ read file)
    (memory : I → Instance M K F) :
    models.Cleaned s false
        ⟨s.rows.filter fun key _ => decide (key ∉ deleted), models.deleteEach fields paths s.files, memory⟩ ↔
      models.DeletesItsOwn s deleted read := by
  rw [DeletesItsOwn, cleaned_iff read (models.HeldBy s.rows fun key _ => key ∈ deleted)
    (models.HeldBy s.rows fun key _ => key ∉ deleted)]
  · intro file hfile
    rw [mem_deleteEach, hread]
    exact and_iff_right hfile
  · exact fun file h => h.referenced
  · exact fun file h => h.cases fun key _ => key ∈ deleted
  · exact fun file _ => referenced_filter

theorem delete_tidy_iff (i : I) :
    models.Cleaned s (models.delete s i).1 (models.delete s i).2 ↔ models.Tidy s (.delete i) := by
  have hread : ∀ file, (∃ f ∈ models.fileFields (s.memory i).model, ∃ path ∈
      ({(((s.memory i).read (models.fileFields (s.memory i).model)).dict f).name} : Finset String),
      models.Names f path file) ↔ models.InMemory (s.memory i) file := by
    intro file
    have hname : ∀ f, (((s.memory i).read (models.fileFields (s.memory i).model)).dict f).name
        = ((s.memory i).dict f).name := by
      intro f
      unfold Instance.read
      dsimp only
      split_ifs
      · cases (s.memory i).dict f <;> rfl
      · rfl
    simp only [Finset.mem_singleton, exists_eq_left, hname, InMemory]
  unfold delete Tidy
  dsimp only
  cases hcollect : (s.memory i).pk.bind fun pk => models.collect s.rows {((s.memory i).model, pk)} with
  | none =>
    have hcollect' : (((s.memory i).read (models.fileFields (s.memory i).model)).pk.bind fun pk =>
        models.collect s.rows {(((s.memory i).read (models.fileFields (s.memory i).model)).model, pk)}) = none := hcollect
    rw [hcollect']
    dsimp only
    rw [cleaned_of_raised]
    constructor
    · intro hsub file hfile hmemory
      exact (mem_deleteEach.mp (hsub hfile)).2 ((hread file).mpr hmemory)
    · intro hnot file hfile
      exact mem_deleteEach.mpr ⟨hfile, fun h => hnot file hfile ((hread file).mp h)⟩
  | some deleted =>
    have hcollect' : (((s.memory i).read (models.fileFields (s.memory i).model)).pk.bind fun pk =>
        models.collect s.rows {(((s.memory i).read (models.fileFields (s.memory i).model)).model, pk)}) =
          some deleted := hcollect
    rw [hcollect']
    exact deleteRows_tidy_iff hread _

omit [DecidableEq M] [DecidableEq K] [DecidableEq F] [DecidableEq S] [DecidableEq I] in
/-- A queryset that was not evaluated reads the names of its rows. -/
theorem read_iff_held {model : M} {pks : Finset K} {fields : List F}
    (hfields : ∀ f ∈ fields, f ∈ models.fileFields model) :
    models.Read s model pks none fields file ↔
      models.HeldBy s.rows (fun key f => (key.1 = model ∧ key.2 ∈ pks) ∧ f ∈ fields) file := by
  constructor
  · rintro ⟨f, hf, path, hpath, hnames⟩
    obtain ⟨pk, hpk, hpath⟩ := Finset.mem_biUnion.mp hpath
    rw [Option.mem_toFinset, Option.mem_def, Option.map_eq_some_iff] at hpath
    obtain ⟨row, hrow, rfl⟩ := hpath
    exact ⟨(model, pk), row, f, hrow, hfields f hf, ⟨⟨rfl, hpk⟩, hf⟩, hnames⟩
  · rintro ⟨⟨_, pk⟩, row, f, hrow, -, ⟨⟨rfl, hpk⟩, hf⟩, hnames⟩
    refine ⟨f, hf, row f, Finset.mem_biUnion.mpr ⟨pk, hpk, ?_⟩, hnames⟩
    rw [Option.mem_toFinset, hrow]
    rfl

omit [DecidableEq S] [DecidableEq I] in
/-- An update of a queryset that was not evaluated is tidy if no file it overwrites is named again. -/
theorem updatesItsOwn_of_unread {model : M} {pks : Finset K} {kwargs : F → Option String} :
    models.UpdatesItsOwn s model pks none kwargs ↔
      ∀ file ∈ s.files, models.HeldBy s.rows (fun key f => (key.1 = model ∧ key.2 ∈ pks) ∧
          f ∈ (models.fileFields model).filter fun f => (kwargs f).isSome) file →
        ¬ models.Referenced (s.rows.map fun key row => if key.1 = model ∧ key.2 ∈ pks then
            fun f => if f ∈ (models.fileFields model).filter fun f => (kwargs f).isSome then (kwargs f).getD ""
              else row f
          else row) file := by
  unfold UpdatesItsOwn
  dsimp only
  refine forall₂_congr fun file _ => ?_
  rw [read_iff_held fun f hf => List.mem_of_mem_filter hf, referenced_map]
  exact ⟨fun h => h.1, fun h => ⟨h, .inr⟩⟩

theorem querysetUpdate_tidy_iff (model : M) (pks : Finset K) (cached : Option (List I)) (kwargs : F → Option String)
    (refused : Bool) :
    models.Cleaned s (models.querysetUpdate s model pks cached kwargs refused).1
        (models.querysetUpdate s model pks cached kwargs refused).2 ↔
      models.Tidy s (.querysetUpdate model pks cached kwargs refused) := by
  unfold querysetUpdate Tidy
  dsimp only
  cases refused with
  | true => exact iff_of_true (cleaned_of_raised.mpr subset_rfl) (.inl rfl)
  | false =>
    rw [if_neg Bool.false_ne_true, or_iff_right Bool.false_ne_true, UpdatesItsOwn]
    dsimp only
    rw [cleaned_iff]
    · intro file hfile
      rw [mem_deleteEach]
      exact and_iff_right hfile
    · exact fun file h => h.referenced
    · exact fun file h => (h.cases _).imp_right .inl
    · exact fun file _ => referenced_map

theorem querysetDelete_tidy_iff (model : M) (pks : Finset K) (cached : Option (List I)) :
    models.Cleaned s (models.querysetDelete s model pks cached).1 (models.querysetDelete s model pks cached).2 ↔
      models.Tidy s (.querysetDelete model pks cached) := by
  unfold querysetDelete Tidy
  dsimp only
  cases models.collect s.rows (pks.image (Prod.mk model)) with
  | none => exact iff_of_true (cleaned_of_raised.mpr subset_rfl) trivial
  | some deleted => exact deleteRows_tidy_iff (fun file => Iff.rfl) _

/-- **A step leaves the files as it should** exactly if it is tidy. -/
theorem step_tidy_iff (e : CleanupEvent M K F I) :
    models.Cleaned s (models.step s e).1 (models.step s e).2 ↔ models.Tidy s e := by
  cases e with
  | construct i model pk adding values =>
    refine iff_of_true ⟨fun h => Bool.noConfusion h, fun _ file hfile _ => hfile, fun _ file _ h h' => ?_⟩ trivial
    exact absurd h h'
  | assign i f value =>
    refine iff_of_true ⟨fun h => Bool.noConfusion h, fun _ file hfile _ => hfile, fun _ file _ h h' => ?_⟩ trivial
    exact absurd h h'
  | save i updateFields newPk refused => exact save_tidy_iff i updateFields newPk refused
  | delete i => exact delete_tidy_iff i
  | querysetUpdate model pks cached kwargs refused => exact querysetUpdate_tidy_iff model pks cached kwargs refused
  | querysetDelete model pks cached => exact querysetDelete_tidy_iff model pks cached

variable (models)

/-- **The files of a run are those they should be, after each step, exactly if every step of it is tidy.** -/
theorem cleaned_iff_tidy (s s' : CleanupState M K F S I) (es : List (CleanupEvent M K F I × Bool)) :
    Run (fun s e s' => models.step s e.1 = (e.2, s') ∧ models.Cleaned s e.2 s') s es s' ↔
      Run (fun s e s' => models.step s e.1 = (e.2, s') ∧ models.Tidy s e.1) s es s' := by
  have hstep : ∀ (s : CleanupState M K F S I) (e : CleanupEvent M K F I × Bool) (s' : CleanupState M K F S I),
      models.step s e.1 = (e.2, s') → (models.Cleaned s e.2 s' ↔ models.Tidy s e.1) := by
    intro s e s' h
    rw [← step_tidy_iff, h]
  constructor
  · exact Run.mono fun s e s' h => ⟨h.1, (hstep s e s' h.1).mp h.2⟩
  · exact Run.mono fun s e s' h => ⟨h.1, (hstep s e s' h.1).mpr h.2⟩

end CleanupModels

/-! ## A media whose file is replaced, written again, or protected -/

section Sample

/-- A name longer than those that are there. -/
def longerName (files : Finset (Unit × String)) : String :=
  String.ofList (List.replicate (files.sup (fun file => file.2.length) + 1) '_')

theorem longerName_available (files : Finset (Unit × String)) (s : Unit) (_name : String) :
    (s, longerName files) ∉ files := by
  intro hmem
  have hle : (longerName files).length ≤ _ := Finset.le_sup (f := fun file : Unit × String => file.2.length) hmem
  rw [longerName, String.length_ofList, List.length_replicate] at hle
  omega

theorem longerName_ne (files : Finset (Unit × String)) : longerName files ≠ "" := by
  intro h
  have hlength := congrArg String.length h
  rw [longerName, String.length_ofList, List.length_replicate] at hlength
  cases hlength

/-- One file field, and a row that may not be deleted. -/
def mediaModels : CleanupModels Unit ℕ String Unit where
  fileFields _ := ["content"]
  fileFields_nodup _ := List.nodup_singleton _
  storage _ := ()
  availableName files _ _ := longerName files
  available := longerName_available
  available_ne files _ _ := longerName_ne files
  pkHasDefault _ := true
  collect _ keys := if ((), 1) ∈ keys then none else some keys

/-- A row with its file. -/
def mediaState : CleanupState Unit ℕ String Unit Unit where
  rows := Table.empty.insert ((), 1) fun _ => "a.png"
  files := {((), "a.png")}
  memory _ := ⟨(), some 1, false, fun _ => .str "a.png", fun _ => some (.str "a.png")⟩

/-- The path of a row that was loaded is changed, and saved. -/
def replaced : List (CleanupEvent Unit ℕ String Unit × Bool) :=
  [(.construct () () (some 1) false fun _ => .str "a.png", false), (.assign () "content" (.str "b.png"), false),
    (.save () none 0 false, false)]

/-- The path of a row is written again. -/
def rewritten : List (CleanupEvent Unit ℕ String Unit × Bool) :=
  [(.querysetUpdate () {1} none (fun _ => some "a.png") false, false)]

/-- The deletion of a row raises. -/
def protectedDelete : List (CleanupEvent Unit ℕ String Unit × Bool) :=
  [(.construct () () (some 1) false fun _ => .str "a.png", false), (.delete (), true)]

/-- The run, if there is one, leaves the files as they should be after each step. -/
def CleanedAlong (es : List (CleanupEvent Unit ℕ String Unit × Bool)) : Prop :=
  ∀ s', Run (fun s e s' => mediaModels.step s e.1 = (e.2, s')) mediaState es s' →
    Run (fun s e s' => mediaModels.step s e.1 = (e.2, s') ∧ mediaModels.Cleaned s e.2 s') mediaState es s'

/-- **The file a save replaces stays; one that a row still names, or whose row may not be deleted, is lost.** -/
theorem files_stay_or_are_lost :
    ¬ CleanedAlong replaced ∧ ¬ CleanedAlong rewritten ∧ ¬ CleanedAlong protectedDelete := by
  have hreferenced : mediaModels.Referenced mediaState.rows ((), "a.png") :=
    ⟨((), 1), fun _ => "a.png", "content", rfl, List.mem_cons_self .., trivial, by decide, rfl⟩
  refine ⟨fun h => ?_, fun h => ?_, fun h => ?_⟩
  · have hrun := h _ (.cons rfl (.cons rfl (.cons rfl (.nil _))))
    obtain ⟨s₁, ⟨h₁, -⟩, hrun⟩ := Run.cons_iff.mp hrun
    obtain ⟨s₂, ⟨h₂, -⟩, hrun⟩ := Run.cons_iff.mp hrun
    obtain ⟨h₃, hcleaned⟩ := Run.singleton_iff.mp hrun
    obtain rfl := (Prod.mk.inj h₁).2
    obtain rfl := (Prod.mk.inj h₂).2
    refine hcleaned.collected rfl ((), "a.png") (Finset.mem_singleton_self _) hreferenced ?_ (by decide)
    rintro ⟨⟨⟨⟩, k⟩, row, f, hrow, hf, -, hnames⟩
    obtain rfl := List.mem_singleton.mp hf
    by_cases hk : k = 1
    · subst hk
      obtain rfl : _ = row := Option.some.inj hrow
      exact absurd (Prod.mk.inj hnames.2).2 (by decide)
    · have hne : (((), k) : Unit × ℕ) ≠ ((), 1) := fun h => hk (Prod.mk.inj h).2
      have hsaved : (Table.insert ((), 1) _ mediaState.rows).get ((), k) = some row := hrow
      rw [Table.get_insert_of_ne hne] at hsaved
      have hbefore : (Table.insert ((), 1) _ .empty).get ((), k) = some row := hsaved
      rw [Table.get_insert_of_ne hne] at hbefore
      cases hbefore
  · have hrun := h _ (.cons rfl (.nil _))
    obtain ⟨-, hcleaned⟩ := Run.singleton_iff.mp hrun
    have hmem := hcleaned.kept rfl ((), "a.png") (Finset.mem_singleton_self _)
      ⟨((), 1), _, "content", rfl, List.mem_cons_self .., trivial, by decide, rfl⟩
    revert hmem
    decide
  · have hrun := h _ (.cons rfl (.cons rfl (.nil _)))
    obtain ⟨s₁, ⟨h₁, -⟩, hrun⟩ := Run.cons_iff.mp hrun
    obtain ⟨-, hcleaned⟩ := Run.singleton_iff.mp hrun
    obtain rfl := (Prod.mk.inj h₁).2
    have hmem := hcleaned.atomic rfl (Finset.mem_singleton_self ((), "a.png"))
    revert hmem
    decide

end Sample

end Totem.Files
