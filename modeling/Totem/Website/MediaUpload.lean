import Totem.Files.Storage
import Totem.Files.Cleanup

/-!
# Totem.Website.MediaUpload — the two writers of a media

`MediaService.create`, whose `MediaQuerySet.bulk_create` derives the values of the row, and the admin form, whose
`clean` does.  Each of them reads the stream of the upload before the storage reads it, and the form saves the
instance, with `CleanupFileModelMixin.save`.

* `saveMedia_stores_iff`: the bytes read back are those of the upload if the storage reads them from the start.
* `admin_raises`: the form raises once its row is inserted; `admin_stores_iff`: what it has stored by then.
* `never_alike`: there is no upload that the two writers store alike.
-/

namespace Totem.Website

open Lib Files

/-- `UploadedFile`, as the request gives it. -/
structure UploadedFile where
  name : String
  data : Bytes

/-- A row of `Media`: `content` is its symbolic path. -/
structure Media where
  name : String
  content : String
  checksum : String
  mimetype : Option String
  deriving DecidableEq

/-- `MediaService.MAX_UPLOAD_SIZE`. -/
def MAX_UPLOAD_SIZE : ℕ := 5 * 1024 * 1024

/-- `MediaService.REFUSED_MIMETYPES`. -/
def REFUSED_MIMETYPES : List String :=
  ["image/svg+xml", "text/html", "application/xhtml+xml", "application/xml", "text/xml"]

section

variable {host : Host} (generateFilename : String → String)

/-! ## The writers -/

/-- `Media.precompute_values`. -/
def precomputeMedia (host : Host) (binData : Bytes) (filename : String) : Media where
  name := filename
  content := ""
  checksum := host.sha1 binData
  mimetype := if filename = "" then none else host.guessType filename

/-- The database takes the row. -/
def Media.fits (media : Media) : Bool :=
  decide (media.name.length ≤ 256) && media.mimetype.all fun mimetype => decide (mimetype.length ≤ 64)

/-- The insertion of the row: `FileField.pre_save` saves the file first. -/
def saveMedia (values : Media) (file : Content) (draws : List (List Char × List Char)) (t : Tenant host) :
    Option (Media × Tenant host) :=
  match save .PUBLIC (generateFilename values.name) file draws t with
  | (.saved symbolicPath, t) => if values.fits = true then some ({ values with content := symbolicPath }, t) else none
  | _ => none

/-- `MediaService.validate_data`. -/
def MediaService.validateData (host : Host) (upload : UploadedFile) : Bool :=
  decide (upload.data.length ≤ MAX_UPLOAD_SIZE) &&
    (host.guessType upload.name).all fun mimetype => decide (mimetype ∉ REFUSED_MIMETYPES)

/-- `MediaQuerySet.bulk_create`: the values are those of the whole stream, which is rewound before and after. -/
def MediaQuerySet.bulkCreate (upload : UploadedFile) (draws : List (List Char × List Char)) (t : Tenant host) :
    Option (Media × Tenant host) :=
  if upload.name = "" then none
  else
    let file := (Content.ofBytes upload.data).seek 0
    let binData := file.read.1
    let file := file.read.2.seek 0
    saveMedia generateFilename (precomputeMedia host binData upload.name) file draws t

/-- `MediaService.create`, of a media that nothing else refuses. -/
def serviceCreate (upload : UploadedFile) (draws : List (List Char × List Char)) (t : Tenant host) :
    Option (Media × Tenant host) :=
  if MediaService.validateData host upload = true then MediaQuerySet.bulkCreate generateFilename upload draws t
  else none

/-- What becomes of the admin form. -/
inductive AdminOutcome (host : Host)
  | created (media : Media) (t : Tenant host)
  /-- `AttributeError`, with the row inserted: the transaction of the admin takes the rows back, not the files. -/
  | attributeError (media : Media) (t : Tenant host)
  | refused

/-- `Media()`, without a file. -/
def newMedia : Instance Unit Unit String where
  model := ()
  pk := some ()
  adding := true
  dict _ := .str ""
  initialFileState _ := some (.str "")

/-- What the file field of a form refuses: no name, a name longer than the column takes, and a file without bytes. -/
def formRefuses (upload : UploadedFile) : Bool :=
  decide (upload.name = "") || decide (256 < upload.name.length) || decide (upload.data = [])

/-- `MediaAdminForm`: `clean` reads the stream, `save` sets the values on the instance, and its
`CleanupFileModelMixin.save` saves the file as it is left. -/
def adminCreate (upload : UploadedFile) (draws : List (List Char × List Char)) (t : Tenant host) : AdminOutcome host :=
  if formRefuses upload = true then .refused
  else
    let memoryFile := Content.ofBytes upload.data
    let values := precomputeMedia host memoryFile.read.1 upload.name
    let self := newMedia.setattr ["content"] "content" (.upload upload.name)
    match saveMedia generateFilename values memoryFile.read.2 draws t with
    | none => .refused
    | some (media, t) =>
      -- `FieldFile.save` sets the path, and the end of `save` asks it for its `name`
      let self := self.setattr ["content"] "content" (.str media.content)
      if (self.recordInitial ["content"]).1 = true then .attributeError media t else .created media t

/-! ## What is stored -/

/-- The file of the media is the bytes, under their checksum. -/
def Stores (data : Bytes) (created : Media × Tenant host) : Prop :=
  created.2.served .PUBLIC created.1.content = some data ∧
    ∃ ref, created.2.references.get (.PUBLIC, created.1.content) = some ref ∧ ref.checksum = host.sha1 data

/-- The two rows agree, and both store the bytes of the upload. -/
structure SameMedia (data : Bytes) (created created' : Media × Tenant host) : Prop where
  checksum : created.1.checksum = created'.1.checksum
  mimetype : created.1.mimetype = created'.1.mimetype
  name : created.1.name = created'.1.name
  stores : Stores data created
  stores' : Stores data created'

/-- Both writers create the media, and store the same thing. -/
def Alike (data : Bytes) (service : Option (Media × Tenant host)) (admin : AdminOutcome host) : Prop :=
  ∃ created media t, service = some created ∧ admin = .created media t ∧ SameMedia data created (media, t)

/-- The filestore has no other bytes under the checksum of these. -/
def Unmistaken (data : Bytes) (t : Tenant host) : Prop :=
  ∀ other ∈ t.disk.files.get (storePathOf (host.sha1 data)), other = data

instance (data : Bytes) (t : Tenant host) : Decidable (Unmistaken data t) :=
  inferInstanceAs (Decidable (∀ other ∈ t.disk.files.get _, other = data))

variable {generateFilename} {values : Media} {file : Content} {draws : List (List Char × List Char)}
  {t : Tenant host} {created : Media × Tenant host}

theorem saveMedia_cases (h : saveMedia generateFilename values file draws t = some created) :
    ∃ symbolicPath t', save .PUBLIC (generateFilename values.name) file draws t = (.saved symbolicPath, t') ∧
      created = ({ values with content := symbolicPath }, t') := by
  unfold saveMedia at h
  split at h
  case h_1 symbolicPath t' hsave =>
    split_ifs at h
    exact ⟨symbolicPath, t', hsave, (Option.some.inj h).symm⟩
  case h_2 => cases h

/-- **What a saved media stores**: the whole data, under the checksum of what the storage reads of it. -/
theorem saveMedia_stores_iff (h : saveMedia generateFilename values file draws t = some created) :
    Stores file.data created ↔ host.sha1 file.read.1 = host.sha1 file.data ∧ Unmistaken file.data t := by
  obtain ⟨symbolicPath, t', hsave, rfl⟩ := saveMedia_cases h
  obtain ⟨hfiles, hlink, hreferences⟩ := save_saved hsave
  have hserved : t'.served .PUBLIC symbolicPath =
      some ((t.disk.files.get (storePathOf (host.sha1 file.read.1))).getD file.data) := by
    rw [Tenant.served, hlink]
    show t'.disk.files.get _ = _
    rw [hfiles, Tenant.filesWith, ContentStore.get_keep_self]
  have hrow : (∃ ref, t'.references.get (.PUBLIC, symbolicPath) = some ref ∧ ref.checksum = host.sha1 file.data) ↔
      host.sha1 file.read.1 = host.sha1 file.data := by
    rw [hreferences, Table.get_insert_self]
    simp [precomputeValues]
  show t'.served .PUBLIC symbolicPath = some file.data ∧ _ ↔ _
  rw [hrow, hserved, Option.some.injEq, and_comm]
  refine and_congr_right fun hsum => ?_
  rw [hsum, Unmistaken]
  cases t.disk.files.get (storePathOf (host.sha1 file.data)) with
  | none => simp
  | some other => simp

/-! ## The two writers -/

variable {upload : UploadedFile}

/-- The service leaves the stream at its start. -/
theorem saveMedia_of_serviceCreate (h : serviceCreate generateFilename upload draws t = some created) :
    saveMedia generateFilename (precomputeMedia host upload.data upload.name) (.ofBytes upload.data) draws t =
      some created := by
  unfold serviceCreate MediaQuerySet.bulkCreate at h
  split_ifs at h
  exact h

/-- A media that is saved has a path. -/
theorem saveMedia_content_ne (h : saveMedia generateFilename values file draws t = some created) :
    created.1.content ≠ "" := by
  obtain ⟨symbolicPath, t', hsave, rfl⟩ := saveMedia_cases h
  exact available_ne_empty (saved_found hsave)

/-- **The admin form raises when its media is saved.** -/
theorem admin_raises (generateFilename : String → String) (upload : UploadedFile)
    (draws : List (List Char × List Char)) (t : Tenant host) :
    adminCreate generateFilename upload draws t =
      if formRefuses upload = true then .refused
      else (saveMedia generateFilename (precomputeMedia host upload.data upload.name)
        ((Content.ofBytes upload.data).seek upload.data.length) draws t).elim .refused
          fun created => .attributeError created.1 created.2 := by
  have hend : (Content.ofBytes upload.data).read.2 = (Content.ofBytes upload.data).seek upload.data.length := by
    simp [Content.read, Content.seek, Content.ofBytes]
  have hbytes : (Content.ofBytes upload.data).read.1 = upload.data := rfl
  unfold adminCreate
  by_cases hrefused : formRefuses upload = true
  · rw [if_pos hrefused, if_pos hrefused]
  · rw [if_neg hrefused, if_neg hrefused]
    simp only [hend, hbytes]
    cases hsave : saveMedia generateFilename (precomputeMedia host upload.data upload.name)
        ((Content.ofBytes upload.data).seek upload.data.length) draws t with
    | none => rfl
    | some created =>
      have hraises := (CleanupModels.recordInitial_raises ["content"]
        ((newMedia.setattr ["content"] "content" (.upload upload.name)).setattr ["content"] "content"
          (.str created.1.content))).2
        ⟨"content", List.mem_singleton_self _, created.1.content,
          by rw [CleanupModels.setattr_dict, Function.update_self], saveMedia_content_ne hsave⟩
      exact if_pos hraises

theorem adminCreate_ne_created (media : Media) (t' : Tenant host) :
    adminCreate generateFilename upload draws t ≠ .created media t' := by
  rw [admin_raises]
  split_ifs
  · simp
  · cases saveMedia generateFilename (precomputeMedia host upload.data upload.name)
      ((Content.ofBytes upload.data).seek upload.data.length) draws t <;> simp

/-- What the form has saved when it raises: it leaves the stream at its end. -/
theorem saveMedia_of_adminCreate {media : Media} {t' : Tenant host}
    (h : adminCreate generateFilename upload draws t = .attributeError media t') :
    saveMedia generateFilename (precomputeMedia host upload.data upload.name)
      ((Content.ofBytes upload.data).seek upload.data.length) draws t = some (media, t') := by
  rw [admin_raises] at h
  split_ifs at h
  cases hsave : saveMedia generateFilename (precomputeMedia host upload.data upload.name)
      ((Content.ofBytes upload.data).seek upload.data.length) draws t with
  | none => simp [hsave] at h
  | some created =>
    rw [hsave] at h
    obtain ⟨rfl, rfl⟩ := AdminOutcome.attributeError.inj h
    rfl

theorem saveMedia_values (h : saveMedia generateFilename values file draws t = some created) :
    created.1.checksum = values.checksum ∧ created.1.mimetype = values.mimetype ∧ created.1.name = values.name := by
  obtain ⟨symbolicPath, t', -, rfl⟩ := saveMedia_cases h
  exact ⟨rfl, rfl, rfl⟩

/-- What the admin form has stored when it raises is what the service stores exactly when the upload, which is not
empty, has the checksum of no bytes, and the filestore has no other bytes under it. -/
theorem admin_stores_iff {draws' : List (List Char × List Char)} {media : Media} {t' : Tenant host}
    (hservice : serviceCreate generateFilename upload draws t = some created)
    (hadmin : adminCreate generateFilename upload draws' t = .attributeError media t') :
    SameMedia upload.data created (media, t') ↔
      host.sha1 upload.data = host.sha1 [] ∧ Unmistaken upload.data t := by
  have hsaved := saveMedia_of_serviceCreate hservice
  have hsaved' := saveMedia_of_adminCreate hadmin
  obtain ⟨hchecksum, hmimetype, hname⟩ := saveMedia_values hsaved
  obtain ⟨hchecksum', hmimetype', hname'⟩ := saveMedia_values hsaved'
  have hstores : Stores upload.data created ↔ Unmistaken upload.data t :=
    (saveMedia_stores_iff hsaved).trans (and_iff_right rfl)
  have hstores' : Stores upload.data (media, t') ↔
      host.sha1 [] = host.sha1 upload.data ∧ Unmistaken upload.data t := by
    have hread : ((Content.ofBytes upload.data).seek upload.data.length).read.1 = [] := by
      simp [Content.read, Content.seek, Content.ofBytes]
    have hiff := saveMedia_stores_iff hsaved'
    rw [hread] at hiff
    exact hiff
  constructor
  · intro hsame
    obtain ⟨hsum, hunmistaken⟩ := hstores'.1 hsame.stores'
    exact ⟨hsum.symm, hunmistaken⟩
  · rintro ⟨hsum, hunmistaken⟩
    exact {
      checksum := hchecksum.trans hchecksum'.symm
      mimetype := hmimetype.trans hmimetype'.symm
      name := hname.trans hname'.symm
      stores := hstores.2 hunmistaken
      stores' := hstores'.2 ⟨hsum.symm, hunmistaken⟩ }

/-- **No upload is stored alike by the two writers**, whatever is in the store: the admin form creates none. -/
theorem never_alike (generateFilename : String → String) (upload : UploadedFile)
    (draws draws' : List (List Char × List Char)) (t : Tenant host) :
    ¬ Alike upload.data (serviceCreate generateFilename upload draws t)
      (adminCreate generateFilename upload draws' t) := by
  rintro ⟨created, media, t', -, hadmin, -⟩
  exact adminCreate_ne_created media t' hadmin

end

/-! ## Uploads -/

/-- `upload_to`, in a month. -/
def sampleFilename (name : String) : String := "website/2026/01/" ++ name

/-- The service stores the upload; the admin form raises, and by then has filed the bytes under the checksum of no
bytes. -/
theorem admin_misfiles_upload :
    (∃ created, serviceCreate sampleFilename ⟨"a", [97]⟩ [] (Tenant.empty sampleHost) = some created ∧
      Stores [97] created) ∧
    (∃ media t, adminCreate sampleFilename ⟨"a", [97]⟩ [] (Tenant.empty sampleHost) = .attributeError media t ∧
      ¬ Stores [97] (media, t)) ∧
    ¬ Alike [97] (serviceCreate sampleFilename ⟨"a", [97]⟩ [] (Tenant.empty sampleHost))
      (adminCreate sampleFilename ⟨"a", [97]⟩ [] (Tenant.empty sampleHost)) := by
  obtain ⟨created, hservice⟩ : ∃ created,
      serviceCreate sampleFilename ⟨"a", [97]⟩ [] (Tenant.empty sampleHost) = some created :=
    Option.isSome_iff_exists.1 (by decide +kernel)
  refine ⟨⟨created, hservice, ?_⟩, ?_, ?_⟩
  · exact (saveMedia_stores_iff (saveMedia_of_serviceCreate hservice)).2 ⟨rfl, by decide +kernel⟩
  · have hsome : (saveMedia sampleFilename (precomputeMedia sampleHost [97] "a")
        ((Content.ofBytes [97]).seek 1) [] (Tenant.empty sampleHost)).isSome = true := by decide +kernel
    obtain ⟨created', hsaved⟩ := Option.isSome_iff_exists.1 hsome
    have hadmin := admin_raises sampleFilename ⟨"a", [97]⟩ [] (Tenant.empty sampleHost)
    rw [if_neg (by decide)] at hadmin
    refine ⟨created'.1, created'.2, hadmin.trans (congrArg (fun o => Option.elim o _ _) hsaved), fun hstores => ?_⟩
    have hsum := ((saveMedia_stores_iff hsaved).1 hstores).1
    exact absurd hsum (by decide +kernel)
  · rintro ⟨created', media, t', -, hadmin, -⟩
    exact adminCreate_ne_created media t' hadmin

end Totem.Website
