import Totem.Files.ReferenceCounting

/-!
# Totem.Files.Atomicity — files and links across a rollback

`CreateMixin._create_atomic` and `DeleteMixin._delete_atomic` on a model with file fields: the storages write and remove
files in the middle of a transaction that rolls back the rows of `FileReference`, and the rows alone.

* `saveUploads_unchanged_iff`, `deleteFiles_unchanged_iff`: when the saves and the deletions of a call change nothing.
* `atomic_iff`: a call that raises leaves the files, the links and the rows as they were exactly if no file was written
  or removed before.
-/

namespace Totem.Files

open Lib Lib.DirectoryTree

section

variable {host : Host}

/-! ## The calls -/

inductive Result
  | returned
  | raised
  /-- A storage still searches for a name. -/
  | searching
  deriving DecidableEq

/-- Where a creation may raise, apart from its storages. -/
inductive CreatePoint
  | validateData
  | insert
  | accessRules
  | manyToMany
  | computedCreated
  | postprocess
  | computedRefresh
  | commit
  deriving DecidableEq

/-- Where a deletion may raise: a protected row is refused by `computedDeleted` or `querysetDelete`. -/
inductive DeletePoint
  | computedDeleted
  | querysetDelete
  | postprocess
  | computedRefresh
  | commit
  deriving DecidableEq

/-- A file that is not committed to its storage. -/
structure Upload where
  privacy : Privacy
  name : String
  content : Content
  draws : List (List Char × List Char)

inductive Call
  /-- The uploads of the instances in the order of the insertion, and where the call raises. -/
  | create (uploads : List Upload) (raisesAt : Option CreatePoint)
  /-- The file fields of the rows in the order of their deletion, and where the call raises. -/
  | delete (files : List (Privacy × Option String)) (raisesAt : Option DeletePoint)

/-- `FileField.pre_save` of each upload. -/
def saveUploads : List Upload → Tenant host → Result × Tenant host
  | [], t => (.returned, t)
  | upload :: uploads, t =>
    let saved := save upload.privacy upload.name upload.content upload.draws t
    match saved.1 with
    | .saved _ => saveUploads uploads saved.2
    | .refused _ => (.raised, saved.2)
    | .searching => (.searching, saved.2)

/-- `CleanupFileModelMixin.delete_files`, which skips the fields without a file. -/
def deleteFiles : List (Privacy × Option String) → Tenant host → Tenant host
  | [], t => t
  | (privacy, item) :: files, t =>
    match item with
    | none => deleteFiles files t
    | some name => if name = "" then deleteFiles files t else deleteFiles files (delete privacy name t)

/-- `_create_atomic`: the validation, the insertion, which saves the uploads first, and the writes that follow it. -/
def createAtomic (uploads : List Upload) (raisesAt : Option CreatePoint) (t : Tenant host) : Result × Tenant host :=
  if raisesAt = some .validateData then (.raised, t)
  else
    let saved := saveUploads uploads t
    if saved.1 = .returned ∧ raisesAt ≠ none then (.raised, saved.2) else saved

/-- `_delete_atomic`: the deletion of the rows, then of their files, and what follows. -/
def deleteAtomic (files : List (Privacy × Option String)) (raisesAt : Option DeletePoint) (t : Tenant host) :
    Result × Tenant host :=
  if raisesAt = some .computedDeleted ∨ raisesAt = some .querysetDelete then (.raised, t)
  else (if raisesAt = none then .returned else .raised, deleteFiles files t)

/-- `with transaction.atomic()`: an error rolls the rows back. -/
def transaction (body : Tenant host → Result × Tenant host) (t : Tenant host) : Result × Tenant host :=
  let out := body t
  (out.1, if out.1 = .raised then { out.2 with references := t.references } else out.2)

/-- `_create` and `_delete`. -/
def serve : Call → Tenant host → Result × Tenant host
  | .create uploads raisesAt => transaction (createAtomic uploads raisesAt)
  | .delete files raisesAt => transaction (deleteAtomic files raisesAt)

/-! ## What a call may leave -/

/-- Each row has its link and its bytes, and no link or file is without a row. -/
structure Coherent (t : Tenant host) : Prop where
  reads : ∀ privacy name ref, t.references.get (privacy, name) = some ref →
    t.disk.tree.get (symlinkPath privacy name) = some (.link ref.storePath) ∧ t.disk.files.get ref.storePath ≠ none
  stored : ∀ storePath, t.disk.files.get storePath ≠ none →
    ∃ key ref, t.references.get key = some ref ∧ storePathOf ref.checksum = storePath
  linked : ∀ path storePath, t.disk.tree.get path = some (.link storePath) →
    ∃ privacy name, t.references.get (privacy, name) ≠ none ∧ symlinkPath privacy name = path

/-- The same files, links and rows. -/
structure Unchanged (t t' : Tenant host) : Prop where
  files : t'.disk.files = t.disk.files
  links : SameLinks t.disk.tree t'.disk.tree
  references : t'.references = t.references

/-- The save of an upload is refused before it writes anything. -/
def RefusedFirst (t : Tenant host) (upload : Upload) : Prop :=
  (available upload.privacy upload.name upload.draws t = .refused ∨
    ∃ n, available upload.privacy upload.name upload.draws t = .found n ∧
      t.disk.linkable (symlinkPath upload.privacy n) = false) ∧
    t.disk.files.get (address host upload.content.read.1) ≠ none

/-- The call raises before it writes or removes a file: in a validation, in the save of its first upload, in the deletion
of its rows, or because there is no file. -/
def BeforeFiles (t : Tenant host) : Call → Prop
  | .create uploads raisesAt => raisesAt = some .validateData ∨ ∀ upload ∈ uploads.head?, RefusedFirst t upload
  | .delete files raisesAt => raisesAt = some .computedDeleted ∨ raisesAt = some .querysetDelete ∨
      ∀ privacy name, (privacy, some name) ∈ files → name ≠ "" → t.references.get (privacy, name) = none

/-- Every tenant whose references are counted is coherent. -/
theorem Counted.coherent {s : State host} (h : Counted s) : Coherent s.tenant where
  reads privacy name ref href := by
    obtain ⟨hlink, data, -, hdata⟩ := h.reads privacy name ref href
    exact ⟨hlink, by simp [hdata]⟩
  stored storePath := (h.stored storePath).1
  linked := h.linked

namespace Unchanged

variable {t t' : Tenant host}

theorem refl (t : Tenant host) : Unchanged t t := ⟨rfl, .refl _, rfl⟩

theorem symm (h : Unchanged t t') : Unchanged t' t :=
  ⟨h.files.symm, fun q target => (h.links q target).symm, h.references.symm⟩

theorem coherent (h : Unchanged t t') (ht : Coherent t) : Coherent t' where
  reads privacy name ref href := by
    rw [h.references] at href
    rw [h.links, h.files]
    exact ht.reads privacy name ref href
  stored storePath hstored := by
    rw [h.files] at hstored
    rw [h.references]
    exact ht.stored storePath hstored
  linked path storePath hlink := by
    rw [h.references]
    exact ht.linked path storePath ((h.links path storePath).1 hlink)

end Unchanged

/-! ## Creations -/

theorem saveUploads_keeps_links {uploads : List Upload} {t : Tenant host} {q : Path} {storePath : String}
    (hlink : t.disk.tree.get q = some (.link storePath)) :
    (saveUploads uploads t).2.disk.tree.get q = some (.link storePath) := by
  induction uploads generalizing t with
  | nil => exact hlink
  | cons upload uploads ih =>
    have hsaved := save_keeps_links upload.privacy upload.name upload.content upload.draws hlink
    rw [saveUploads]
    generalize save upload.privacy upload.name upload.content upload.draws t = saved at hsaved
    obtain ⟨outcome, t'⟩ := saved
    cases outcome with
    | saved n => exact ih hsaved
    | refused e => exact hsaved
    | searching => exact hsaved

theorem filesWith_eq_files (t : Tenant host) (content : Content) :
    t.filesWith content = t.disk.files ↔ t.disk.files.get (address host content.read.1) ≠ none :=
  ContentStore.keep_eq_self

/-- **A first upload leaves a link or a file** unless it is refused before. -/
theorem saveUploads_unchanged_iff {upload : Upload} {uploads : List Upload} {t : Tenant host}
    (hended : (saveUploads (upload :: uploads) t).1 ≠ .searching) :
    ((saveUploads (upload :: uploads) t).2.disk.files = t.disk.files ∧
      SameLinks t.disk.tree (saveUploads (upload :: uploads) t).2.disk.tree) ↔ RefusedFirst t upload := by
  rw [saveUploads] at hended ⊢
  have hstored := filesWith_eq_files t upload.content
  cases havailable : available upload.privacy upload.name upload.draws t with
  | searching => simp [save_eq, havailable] at hended
  | refused =>
    rw [save_of_refused upload.content havailable]
    show (t.filesWith upload.content = t.disk.files ∧ SameLinks t.disk.tree t.disk.tree) ↔ _
    rw [hstored]
    exact ⟨fun h => ⟨.inl havailable, h.1⟩, fun h => ⟨h.2, .refl _⟩⟩
  | found n =>
    cases hlinkable : t.disk.linkable (symlinkPath upload.privacy n) with
    | true =>
      -- the link of the upload is a new one, and stays
      obtain ⟨disk, -, hlinks, hsave⟩ := save_of_linkable upload.content havailable hlinkable
      have hnew := (hlinks (symlinkPath upload.privacy n) _).2 (.inr ⟨rfl, rfl⟩)
      rw [hsave]
      constructor
      · rintro ⟨-, hsame⟩
        have hold : t.disk.tree.get (symlinkPath upload.privacy n) =
            some (.link (address host upload.content.read.1)) := by
          rw [← hsame]
          split_ifs
          · exact saveUploads_keeps_links hnew
          · exact hnew
        have hfree := (available_found havailable).1
        simp [lexists, hold] at hfree
      · rintro ⟨hrefused | ⟨n', hfound, hnot⟩, -⟩
        · simp [havailable] at hrefused
        · obtain rfl : n = n' := Available.found.inj (havailable.symm.trans hfound)
          simp [hlinkable] at hnot
    | false =>
      obtain ⟨errno, disk, hfiles, hlinks, hsave⟩ := save_of_not_linkable upload.content havailable hlinkable
      rw [hsave]
      show (disk.files = t.disk.files ∧ SameLinks t.disk.tree disk.tree) ↔ _
      rw [hfiles, hstored]
      exact ⟨fun h => ⟨.inr ⟨n, havailable, hlinkable⟩, h.1⟩, fun h => ⟨h.2, hlinks⟩⟩

/-- What a creation that raises leaves before its rows are rolled back. -/
theorem createAtomic_unchanged_iff {uploads : List Upload} {raisesAt : Option CreatePoint} {t : Tenant host}
    (hraised : (createAtomic uploads raisesAt t).1 = .raised) :
    ((createAtomic uploads raisesAt t).2.disk.files = t.disk.files ∧
      SameLinks t.disk.tree (createAtomic uploads raisesAt t).2.disk.tree) ↔
      BeforeFiles t (.create uploads raisesAt) := by
  by_cases hvalidate : raisesAt = some .validateData
  · simp [createAtomic, hvalidate, BeforeFiles, SameLinks.refl]
  · have hcreate : createAtomic uploads raisesAt t =
        if (saveUploads uploads t).1 = .returned ∧ raisesAt ≠ none then (.raised, (saveUploads uploads t).2)
        else saveUploads uploads t := if_neg hvalidate
    have hleft : (createAtomic uploads raisesAt t).2 = (saveUploads uploads t).2 := by
      rw [hcreate]
      split_ifs
      · rfl
      · rfl
    have hended : (saveUploads uploads t).1 ≠ .searching := by
      intro hsearching
      rw [hcreate, if_neg (by simp [hsearching]), hsearching] at hraised
      cases hraised
    rw [hleft]
    cases uploads with
    | nil => simp [saveUploads, BeforeFiles, SameLinks.refl]
    | cons upload uploads =>
      rw [saveUploads_unchanged_iff hended]
      simp [BeforeFiles, hvalidate]

/-! ## Deletions -/

theorem delete_of_none {privacy : Privacy} {name : String} {t : Tenant host}
    (h : t.references.get (privacy, name) = none) : delete privacy name t = t := by
  rw [delete, h]

/-- A deletion unlinks the name that it finds, and adds no link. -/
theorem delete_links {privacy : Privacy} {name : String} {t : Tenant host} {q : Path} {storePath : String}
    (hlink : (delete privacy name t).disk.tree.get q = some (.link storePath)) :
    t.disk.tree.get q = some (.link storePath) ∧
      (t.references.get (privacy, name) ≠ none → q ≠ symlinkPath privacy name) := by
  unfold delete at hlink
  cases href : t.references.get (privacy, name) with
  | none =>
    rw [href] at hlink
    exact ⟨hlink, fun h => absurd rfl h⟩
  | some ref =>
    have hunlinked : (unlink t.disk.tree (symlinkPath privacy name)).get q = some (.link storePath) := by
      simp only [href] at hlink
      split_ifs at hlink
      · exact hlink
      · exact hlink
    obtain ⟨hq, hne⟩ := (get_unlink_link _).1 hunlinked
    exact ⟨hq, fun _ => hne⟩

theorem deleteFiles_links {files : List (Privacy × Option String)} {t : Tenant host} {q : Path} {storePath : String}
    (hlink : (deleteFiles files t).disk.tree.get q = some (.link storePath)) :
    t.disk.tree.get q = some (.link storePath) := by
  induction files generalizing t with
  | nil => exact hlink
  | cons file files ih =>
    obtain ⟨privacy, _ | name⟩ := file
    · exact ih hlink
    · simp only [deleteFiles] at hlink
      split_ifs at hlink
      · exact ih hlink
      · exact (delete_links (ih hlink)).1

/-- **The deletion of the files changes the links** as soon as one of them has a row. -/
theorem deleteFiles_unchanged_iff {files : List (Privacy × Option String)} {t : Tenant host} (ht : Coherent t) :
    ((deleteFiles files t).disk.files = t.disk.files ∧ SameLinks t.disk.tree (deleteFiles files t).disk.tree) ↔
      ∀ privacy name, (privacy, some name) ∈ files → name ≠ "" → t.references.get (privacy, name) = none := by
  induction files with
  | nil => simp [deleteFiles, SameLinks.refl]
  | cons file files ih =>
    obtain ⟨privacy, _ | name⟩ := file
    · simpa [deleteFiles] using ih
    · have hcons : (∀ privacy' name', (privacy', some name') ∈ (privacy, some name) :: files → name' ≠ "" →
          t.references.get (privacy', name') = none) ↔ (name ≠ "" → t.references.get (privacy, name) = none) ∧
            ∀ privacy' name', (privacy', some name') ∈ files → name' ≠ "" →
              t.references.get (privacy', name') = none := by
        constructor
        · intro h
          exact ⟨h privacy name (List.mem_cons_self ..), fun p n hmem => h p n (List.mem_cons_of_mem _ hmem)⟩
        · rintro ⟨hhead, htail⟩ p n hmem
          rcases List.mem_cons.1 hmem with heq | hmem
          · obtain ⟨rfl, hn⟩ := Prod.mk.inj heq
            obtain rfl := Option.some.inj hn
            exact hhead
          · exact htail p n hmem
      rw [hcons]
      simp only [deleteFiles]
      by_cases hempty : name = ""
      · rw [if_pos hempty, ih]
        simp [hempty]
      · rw [if_neg hempty]
        cases href : t.references.get (privacy, name) with
        | none =>
          rw [delete_of_none href, ih]
          simp
        | some ref =>
          -- its link was there, and is gone
          refine ⟨fun ⟨_, hsame⟩ => ?_, fun ⟨hhead, _⟩ => ?_⟩
          · have hlink := (hsame _ _).2 (ht.reads privacy name ref href).1
            exact absurd rfl ((delete_links (deleteFiles_links hlink)).2 (by simp [href]))
          · exact absurd (hhead hempty) (by simp)

/-- What a deletion that raises leaves before its rows are rolled back. -/
theorem deleteAtomic_unchanged_iff {files : List (Privacy × Option String)} {raisesAt : Option DeletePoint}
    {t : Tenant host} (ht : Coherent t) :
    ((deleteAtomic files raisesAt t).2.disk.files = t.disk.files ∧
      SameLinks t.disk.tree (deleteAtomic files raisesAt t).2.disk.tree) ↔
      BeforeFiles t (.delete files raisesAt) := by
  by_cases hearly : raisesAt = some .computedDeleted ∨ raisesAt = some .querysetDelete
  · rw [deleteAtomic, if_pos hearly]
    simp only [SameLinks.refl, and_self, true_iff]
    exact hearly.imp_right .inl
  · rw [deleteAtomic, if_neg hearly]
    simp only [BeforeFiles, deleteFiles_unchanged_iff ht]
    rw [not_or] at hearly
    simp [hearly.1, hearly.2]

/-! ## Calls that raise -/

theorem transaction_of_raised {body : Tenant host → Result × Tenant host} {t : Tenant host}
    (h : (transaction body t).1 = .raised) :
    (body t).1 = .raised ∧ (transaction body t).2.disk = (body t).2.disk ∧
      (transaction body t).2.references = t.references := by
  have hraised : (body t).1 = .raised := h
  refine ⟨hraised, ?_, ?_⟩
  · simp [transaction, hraised]
  · simp [transaction, hraised]

/-- **A call that raises leaves the files, the links and the rows as they were**, with the bytes of every row, exactly if
they were coherent and it raises before it writes or removes a file. -/
theorem atomic_iff {t : Tenant host} {call : Call} (hraised : (serve call t).1 = .raised) :
    (Unchanged t (serve call t).2 ∧ Coherent (serve call t).2) ↔ Coherent t ∧ BeforeFiles t call := by
  have hunchanged : Coherent t → (Unchanged t (serve call t).2 ↔ BeforeFiles t call) := by
    intro ht
    cases call with
    | create uploads raisesAt =>
      obtain ⟨hbody, hdisk, hreferences⟩ := transaction_of_raised hraised
      rw [← createAtomic_unchanged_iff hbody, ← hdisk]
      exact ⟨fun h => ⟨h.files, h.links⟩, fun h => ⟨h.1, h.2, hreferences⟩⟩
    | delete files raisesAt =>
      obtain ⟨-, hdisk, hreferences⟩ := transaction_of_raised hraised
      rw [← deleteAtomic_unchanged_iff ht, ← hdisk]
      exact ⟨fun h => ⟨h.files, h.links⟩, fun h => ⟨h.1, h.2, hreferences⟩⟩
  constructor
  · rintro ⟨hsame, hcoherent⟩
    have ht := hsame.symm.coherent hcoherent
    exact ⟨ht, (hunchanged ht).1 hsame⟩
  · rintro ⟨ht, hbefore⟩
    have hsame := (hunchanged ht).2 hbefore
    exact ⟨hsame, hsame.coherent ht⟩

end

/-- A deletion refused for a protected row leaves the tenant as it was. -/
theorem atomic_iff_sample :
    Unchanged sampleState.tenant
      (serve (.delete [(.PUBLIC, some "a")] (some .querysetDelete)) sampleState.tenant).2 := by
  have hraised : (serve (.delete [(.PUBLIC, some "a")] (some .querysetDelete)) sampleState.tenant).1 = .raised := rfl
  have hcoherent := (sampleState_sound.counted sampleHost_sha1_injective).coherent
  exact ((atomic_iff hraised).2 ⟨hcoherent, .inr (.inl rfl)⟩).1

/-- A creation that the access rules refuse. -/
def refusedCreation : Call := .create [⟨.PUBLIC, "b", .ofBytes [98], []⟩] (some .accessRules)

/-- A deletion that fails after its files. -/
def failedDeletion : Call := .delete [(.PUBLIC, some "a")] (some .postprocess)

/-- The refused creation leaves its link without a row, and the failed deletion a row without its bytes. -/
theorem aborted_calls_leave_files :
    Coherent sampleState.tenant ∧
      ((serve refusedCreation sampleState.tenant).1 = .raised ∧
        ¬ Unchanged sampleState.tenant (serve refusedCreation sampleState.tenant).2 ∧
        ¬ Coherent (serve refusedCreation sampleState.tenant).2) ∧
      (serve failedDeletion sampleState.tenant).1 = .raised ∧
        (serve failedDeletion sampleState.tenant).2.references.get (.PUBLIC, "a") ≠ none ∧
        (serve failedDeletion sampleState.tenant).2.served .PUBLIC "a" = none := by
  have hcoherent := (sampleState_sound.counted sampleHost_sha1_injective).coherent
  have hlink : (serve refusedCreation sampleState.tenant).2.disk.tree.get ["b", "public"] =
      some (.link (address sampleHost [98])) := by decide +kernel
  have hnone : sampleState.tenant.disk.tree.get ["b", "public"] = none := by decide +kernel
  have hraised : (serve refusedCreation sampleState.tenant).1 = .raised := by decide +kernel
  refine ⟨hcoherent, ⟨hraised, fun hsame => ?_, fun hafter => ?_⟩, by decide +kernel, by decide +kernel,
    by decide +kernel⟩
  · have hold := (hsame.links _ _).1 hlink
    rw [hnone] at hold
    cases hold
  · -- the rows are those of before, and none of them has the new link
    obtain ⟨privacy, name, href, hpath⟩ := hafter.linked _ _ hlink
    have hreferences : (serve refusedCreation sampleState.tenant).2.references = sampleState.tenant.references :=
      (transaction_of_raised hraised).2.2
    rw [hreferences] at href
    obtain ⟨ref, href⟩ := Option.ne_none_iff_exists'.1 href
    have hold := (hcoherent.reads privacy name ref href).1
    rw [hpath, hnone] at hold
    cases hold

end Totem.Files
