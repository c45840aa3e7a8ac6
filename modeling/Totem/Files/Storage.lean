import Mathlib.Data.List.DropRight
import Totem.Lib.ContentStore
import Totem.Lib.DirectoryTree

/-!
# Totem.Files.Storage — the media storages of a tenant

`PublicMediaFileSystemStorage` and `PrivateMediaFileSystemStorage`: the bytes are in the filestore under their
checksum, a link in the media store leads to them, and a `FileReference` row says where both are.

* `available_found`: a name that a save finds is free.
* `save_of_linkable`, `save_of_not_linkable`, `save_of_refused`: what a save leaves on the disk and in the table.
-/

namespace Totem.Files

open Lib Lib.DirectoryTree

abbrev Bytes := List UInt8

/-- `FileReferencePrivacy`: the two media stores. -/
inductive Privacy
  | PUBLIC
  | PRIVATE
  deriving DecidableEq

def Privacy.value : Privacy → String
  | .PUBLIC => "public"
  | .PRIVATE => "private"

/-! ## What the storages call -/

/-- `hashlib.sha1`, `mimetypes.guess_type`, and the file names that the operating system takes. -/
structure Host where
  sha1 : Bytes → String
  guessType : String → Option String
  accepts : String → Bool

/-- An open file: its bytes, and how far it has been read. -/
structure Content where
  data : Bytes
  position : ℕ
  deriving DecidableEq

namespace Content

/-- The content of an upload that nobody read. -/
def ofBytes (data : Bytes) : Content := ⟨data, 0⟩

def seek (content : Content) (position : ℕ) : Content := { content with position := position }

/-- `read`: the bytes from the position on, which is then the end. -/
def read (content : Content) : Bytes × Content :=
  (content.data.drop content.position, content.seek (max content.position content.data.length))

/-- `chunks`, which rewinds first: the bytes that a file written from the content gets. -/
def chunks (content : Content) : Bytes := content.data

end Content

/-! ## Names -/

/-- `os.path.split`. -/
def splitName (name : List Char) : List Char × List Char :=
  let head := name.rdropWhile (· ≠ '/')
  let stripped := head.rdropWhile (· = '/')
  (if stripped = [] then head else stripped, name.rtakeWhile (· ≠ '/'))

/-- `os.path.join`. -/
def joinName (dirName fileName : List Char) : List Char :=
  if fileName.head? = some '/' then fileName
  else if dirName = [] ∨ dirName.getLast? = some '/' then dirName ++ fileName
  else dirName ++ '/' :: fileName

/-- `os.path.splitext`, of a name without directories. -/
def splitext (fileName : List Char) : List Char × List Char :=
  let root := (fileName.rdropWhile (· ≠ '.')).dropLast
  if root.any (· ≠ '.') = true then (root, '.' :: fileName.rtakeWhile (· ≠ '.')) else (fileName, [])

/-- `Storage.get_alternative_name`, with the random string it draws. -/
def getAlternativeName (fileRoot fileExt random : List Char) : List Char :=
  fileRoot ++ '_' :: random ++ fileExt

/-- The parts of a path, once it is normalized. -/
def parts (name : List Char) : List String :=
  ((name.splitOn '/').map String.ofList).filter fun part => part ≠ "" ∧ part ≠ "."

/-- `symlink_path`, below the root of the tenant. -/
def symlinkPath (privacy : Privacy) (name : String) : Path :=
  (parts name.toList).reverse ++ [privacy.value]

/-- `max_length` of the symbolic paths. -/
def maxLength : ℕ := 256

inductive Available
  | found (name : String)
  | refused
  /-- The random strings given are used up, and the search goes on. -/
  | searching
  deriving DecidableEq

/-- The loop of `_symlink_get_available_name`.  `draws` are the random strings of its turns, two each: the second is
for the name that is too long. -/
def searchName (symlinkExists : String → Bool) (dirName fileExt : List Char) :
    List (List Char × List Char) → List Char → List Char → Available
  | draws, fileRoot, name =>
    if symlinkExists (String.ofList name) = false ∧ name.length ≤ maxLength then .found (String.ofList name)
    else
      match draws with
      | [] => .searching
      | (random, random') :: draws =>
        let name := joinName dirName (getAlternativeName fileRoot fileExt random)
        let truncation := name.length - maxLength
        if truncation = 0 then searchName symlinkExists dirName fileExt draws fileRoot name
        else
          let fileRoot := fileRoot.take (fileRoot.length - truncation)
          if fileRoot = [] then .refused
          else searchName symlinkExists dirName fileExt draws fileRoot
            (joinName dirName (getAlternativeName fileRoot fileExt random'))

/-- `_symlink_get_available_name`.  `safe_join` refuses an absolute path. -/
def symlinkGetAvailableName (symlinkExists : String → Bool) (draws : List (List Char × List Char)) (name : String) :
    Available :=
  let name := name.toList.map fun c => if c = '\\' then '/' else c
  let dirName := (splitName name).1
  let fileName := (splitName name).2
  if ".." ∈ parts dirName ∨ String.ofList fileName ∈ ["", ".", ".."] ∨ name.head? = some '/' then .refused
  else searchName symlinkExists dirName (splitext fileName).2 draws (splitext fileName).1 name

/-! ## File references -/

/-- A row of `FileReference`, apart from its unique fields. -/
structure FileReference where
  storePath : String
  checksum : String
  mimetype : Option String
  deriving DecidableEq

/-- `os.path.join(checksum[:2], checksum)`, of hexadecimal digits. -/
def storePathOf (checksum : String) : String :=
  String.ofList (checksum.toList.take 2 ++ '/' :: checksum.toList)

theorem storePathOf_injective : Function.Injective storePathOf := by
  intro c c' h
  have heq : c.toList.take 2 ++ '/' :: c.toList = c'.toList.take 2 ++ '/' :: c'.toList := String.ofList_injective h
  have hlength := congrArg List.length heq
  simp only [List.length_append, List.length_cons, List.length_take] at hlength
  have htail := (List.append_inj' heq (by simp only [List.length_cons]; omega)).2
  exact String.toList_injective (List.cons.inj htail).2

/-- `FileReference.precompute_values`. -/
def precomputeValues (host : Host) (binData : Bytes) (uploadToPath : String) : FileReference where
  storePath := storePathOf (host.sha1 binData)
  checksum := host.sha1 binData
  mimetype := host.guessType uploadToPath

@[simp] theorem precomputeValues_storePath (host : Host) (binData : Bytes) (uploadToPath : String) :
    (precomputeValues host binData uploadToPath).storePath = storePathOf (host.sha1 binData) := rfl

/-- The database takes the row: the checksum and the paths always fit their columns, the mimetype may not. -/
def FileReference.fits (ref : FileReference) : Bool := ref.mimetype.all fun mimetype => decide (mimetype.length ≤ 64)

/-! ## The storages -/

/-- The directory of a tenant: the files of its filestore, and its media stores. -/
structure Disk (host : Host) where
  files : Table String Bytes
  tree : DirectoryTree.Tree String
  wellFormed : WellFormed host.accepts tree

/-- The disk, and the rows of `FileReference` by their privacy and symbolic path. -/
structure Tenant (host : Host) where
  disk : Disk host
  references : Table (Privacy × String) FileReference

inductive SaveError
  | suspiciousFileOperation
  | os (errno : Errno)
  | dataError
  deriving DecidableEq

inductive Outcome
  | saved (symbolicPath : String)
  | refused (error : SaveError)
  | searching
  deriving DecidableEq

section

variable {host : Host}

namespace Disk

def empty (host : Host) : Disk host := ⟨Table.empty, Table.empty, .empty⟩

/-- `FileSystemStorage._save`, of a file that is not there. -/
def createFile (storePath : String) (content : Content) (disk : Disk host) : Disk host :=
  { disk with files := ContentStore.keep storePath content.chunks disk.files }

/-- `FileSystemStorage.delete`. -/
def removeFile (storePath : String) (disk : Disk host) : Disk host :=
  { disk with files := disk.files.erase storePath }

def symlinkExists (privacy : Privacy) (disk : Disk host) (name : String) : Bool :=
  lexists disk.tree (symlinkPath privacy name)

/-- `_ensure_intermediate_directory`: the error it raises, and the disk it leaves. -/
def ensureIntermediateDirectory (path : Path) (disk : Disk host) : Option Errno × Disk host :=
  let fileExists := fun storePath => (disk.files.get storePath).isSome
  let made := makedirs host.accepts fileExists disk.tree path.tail
  (if made.1 = some .exists then none else made.1,
    { disk with tree := made.2, wellFormed := (makedirs_spec fileExists disk.wellFormed path.tail).2.1 })

/-- `os.symlink`, whose `FileExistsError` is passed over. -/
def symlink (storePath : String) (path : Path) (disk : Disk host) : Option Errno × Disk host :=
  let made := DirectoryTree.symlink host.accepts disk.tree path storePath
  (if made.1 = some .exists then none else made.1,
    { disk with tree := made.2, wellFormed := disk.wellFormed.put (.link storePath) path })

/-- `os.unlink`. -/
def unlink (path : Path) (disk : Disk host) : Disk host :=
  { disk with tree := DirectoryTree.unlink disk.tree path, wellFormed := disk.wellFormed.unlink path }

end Disk

namespace Tenant

def empty (host : Host) : Tenant host := ⟨.empty host, Table.empty⟩

/-- The file that the link at a name leads to. -/
def served (s : Tenant host) (privacy : Privacy) (name : String) : Option Bytes :=
  match s.disk.tree.get (symlinkPath privacy name) with
  | some (.link storePath) => s.disk.files.get storePath
  | _ => none

end Tenant

/-- `_save`, of the name that `Storage.save` passes on. -/
def save (privacy : Privacy) (name : String) (content : Content) (draws : List (List Char × List Char))
    (s : Tenant host) : Outcome × Tenant host :=
  let binData := content.read.1
  let data := precomputeValues host binData name
  let disk := s.disk.createFile data.storePath content.read.2
  match symlinkGetAvailableName (disk.symlinkExists privacy) draws name with
  | .searching => (.searching, { s with disk := disk })
  | .refused => (.refused .suspiciousFileOperation, { s with disk := disk })
  | .found symbolicPath =>
    let path := symlinkPath privacy symbolicPath
    let ensured := disk.ensureIntermediateDirectory path
    match ensured.1 with
    | some errno => (.refused (.os errno), { s with disk := ensured.2 })
    | none =>
      let linked := ensured.2.symlink data.storePath path
      match linked.1 with
      | some errno => (.refused (.os errno), { s with disk := linked.2 })
      | none =>
        if data.fits = true then
          (.saved symbolicPath, ⟨linked.2, s.references.insert (privacy, symbolicPath) data⟩)
        else (.refused .dataError, { s with disk := linked.2 })

/-- `delete`. -/
def delete (privacy : Privacy) (name : String) (s : Tenant host) : Tenant host :=
  match s.references.get (privacy, name) with
  | none => s
  | some ref =>
    let fileReferences := s.references.find fun _ other => decide (other.checksum = ref.checksum)
    if fileReferences.card = 1 then
      ⟨(s.disk.removeFile ref.storePath).unlink (symlinkPath privacy name),
        s.references.filter fun _ other => decide (other.checksum ≠ ref.checksum)⟩
    else ⟨s.disk.unlink (symlinkPath privacy name), s.references.erase (privacy, name)⟩

/-- The name that a save finds free. -/
def available (privacy : Privacy) (name : String) (draws : List (List Char × List Char)) (s : Tenant host) : Available :=
  symlinkGetAvailableName (s.disk.symlinkExists privacy) draws name

/-- A link can be made at the path once its directories are: none of them is a link, and their names are taken. -/
def Disk.linkable (path : Path) (disk : Disk host) : Bool :=
  path.head?.any host.accepts && clear host.accepts disk.tree path.tail

/-! ## What a save does -/

theorem searchName_found {symlinkExists : String → Bool} {dirName fileExt : List Char}
    {draws : List (List Char × List Char)} {fileRoot name : List Char} {n : String}
    (h : searchName symlinkExists dirName fileExt draws fileRoot name = .found n) :
    symlinkExists n = false ∧ n.length ≤ maxLength := by
  induction draws generalizing fileRoot name with
  | nil =>
    unfold searchName at h
    split_ifs at h with hfree
    obtain rfl : String.ofList name = n := Available.found.inj h
    exact ⟨hfree.1, by simpa using hfree.2⟩
  | cons draw draws ih =>
    obtain ⟨random, random'⟩ := draw
    unfold searchName at h
    split_ifs at h with hfree
    · obtain rfl : String.ofList name = n := Available.found.inj h
      exact ⟨hfree.1, by simpa using hfree.2⟩
    · simp only at h
      split_ifs at h with hfits hroot
      · exact ih h
      · exact ih h

theorem joinName_alternative_ne (dirName fileRoot fileExt random : List Char) :
    joinName dirName (getAlternativeName fileRoot fileExt random) ≠ [] := by
  unfold joinName getAlternativeName
  split_ifs <;> simp

theorem searchName_ne_empty {symlinkExists : String → Bool} {dirName fileExt : List Char}
    {draws : List (List Char × List Char)} {fileRoot name : List Char} {n : String} (hname : name ≠ [])
    (h : searchName symlinkExists dirName fileExt draws fileRoot name = .found n) : n ≠ "" := by
  have hfree : ∀ cs : List Char, cs ≠ [] → Available.found (String.ofList cs) = .found n → n ≠ "" := by
    rintro cs hcs h rfl
    exact hcs (by simpa using Available.found.inj h)
  induction draws generalizing fileRoot name with
  | nil =>
    unfold searchName at h
    split_ifs at h
    exact hfree name hname h
  | cons draw draws ih =>
    obtain ⟨random, random'⟩ := draw
    unfold searchName at h
    split_ifs at h
    · exact hfree name hname h
    · simp only at h
      split_ifs at h
      · exact ih (joinName_alternative_ne _ _ _ _) h
      · exact ih (joinName_alternative_ne _ _ _ _) h

/-- A name that is found is not empty. -/
theorem available_ne_empty {privacy : Privacy} {name n : String} {draws : List (List Char × List Char)}
    {s : Tenant host} (h : available privacy name draws s = .found n) : n ≠ "" := by
  unfold available symlinkGetAvailableName at h
  simp only at h
  split_ifs at h with hrefused
  refine searchName_ne_empty (fun hnil => hrefused ?_) h
  rw [hnil]
  simp [splitName]

/-- A name that is found is free, and fits its column. -/
theorem available_found {privacy : Privacy} {name n : String} {draws : List (List Char × List Char)} {s : Tenant host}
    (h : available privacy name draws s = .found n) :
    lexists s.disk.tree (symlinkPath privacy n) = false ∧ n.length ≤ maxLength := by
  unfold available symlinkGetAvailableName at h
  simp only at h
  split_ifs at h
  exact searchName_found h

namespace Disk

variable {disk : Disk host} {path : Path}

theorem free_of_lexists (hfree : lexists disk.tree path = false) :
    ∃ name parent, path = name :: parent ∧ disk.tree.get path = none := by
  cases path with
  | nil => simp [lexists] at hfree
  | cons name parent =>
    refine ⟨name, parent, rfl, ?_⟩
    simpa [lexists] using hfree

theorem symlinkExists_createFile (storePath : String) (content : Content) (privacy : Privacy) (disk : Disk host) :
    (disk.createFile storePath content).symlinkExists privacy = disk.symlinkExists privacy := rfl

theorem ensure_sameLinks (path : Path) (disk : Disk host) :
    SameLinks disk.tree (disk.ensureIntermediateDirectory path).2.tree :=
  (makedirs_spec _ disk.wellFormed path.tail).1.sameLinks

/-- **A link that can be made is made**, after its directories. -/
theorem link_of_linkable (disk : Disk host) (hfree : lexists disk.tree path = false)
    (hlinkable : disk.linkable path = true)
    (storePath : String) :
    (disk.ensureIntermediateDirectory path).1 = none ∧
      ((disk.ensureIntermediateDirectory path).2.symlink storePath path).1 = none ∧
      AddsLink path storePath disk.tree ((disk.ensureIntermediateDirectory path).2.symlink storePath path).2.tree := by
  obtain ⟨name, parent, rfl, hnone⟩ := free_of_lexists hfree
  obtain ⟨hname, hclear⟩ : host.accepts name = true ∧ clear host.accepts disk.tree parent = true := by
    simpa [linkable] using hlinkable
  have hmade := (symlink_iff (fun storePath => (disk.files.get storePath).isSome) disk.wellFormed name parent
    storePath).2 ⟨⟨hclear, hname⟩, hnone⟩
  refine ⟨?_, ?_, ?_⟩
  · simp [ensureIntermediateDirectory, makedirs_of_clear _ disk.wellFormed hclear]
  · simp [ensureIntermediateDirectory, symlink, hmade]
  · intro q target
    rcases symlink_links host.accepts (disk.ensureIntermediateDirectory (name :: parent)).2.tree
      (name :: parent) storePath with ⟨-, hadds⟩ | ⟨⟨e, he⟩, -⟩
    · rw [← disk.ensure_sameLinks (name :: parent) q target]
      exact hadds q target
    · have hboth := he.symm.trans hmade
      cases hboth

/-- **A link that cannot be made is refused**, and the links stay. -/
theorem not_link_of_not_linkable (disk : Disk host) (hfree : lexists disk.tree path = false)
    (hlinkable : disk.linkable path = false)
    (storePath : String) :
    (∃ errno, ((disk.ensureIntermediateDirectory path).2.symlink storePath path).1 = some errno) ∧
      SameLinks disk.tree ((disk.ensureIntermediateDirectory path).2.symlink storePath path).2.tree := by
  obtain ⟨name, parent, rfl, hnone⟩ := free_of_lexists hfree
  have hrefused := mt (symlink_iff (fun storePath => (disk.files.get storePath).isSome) disk.wellFormed name parent
    storePath).1 fun hmade => by simp [linkable, hmade.1.1, hmade.1.2] at hlinkable
  have hget := get_makedirs_parent (fun storePath => (disk.files.get storePath).isSome) disk.wellFormed name parent
  have hexists := symlink_ne_exists host.accepts (hget.trans hnone) storePath
  rcases symlink_links host.accepts (disk.ensureIntermediateDirectory (name :: parent)).2.tree
    (name :: parent) storePath with ⟨hmade, -⟩ | ⟨⟨e, he⟩, hsame⟩
  · exact absurd hmade hrefused
  · have he' : e ≠ .exists := by
      rintro rfl
      exact hexists he
    refine ⟨⟨e, ?_⟩, ?_⟩
    · simp [symlink, he, he']
    · show SameLinks disk.tree (DirectoryTree.symlink _ _ _ _).2
      rw [hsame]
      exact disk.ensure_sameLinks (name :: parent)

end Disk

section Save

variable {privacy : Privacy} {name n : String} {draws : List (List Char × List Char)}
  {s : Tenant host}

/-- The filestore once the content is in it. -/
def Tenant.filesWith (s : Tenant host) (content : Content) : Table String Bytes :=
  ContentStore.keep (storePathOf (host.sha1 content.read.1)) content.data s.disk.files

/-- The disk once the content is in its filestore. -/
def Tenant.stored (s : Tenant host) (content : Content) : Disk host :=
  s.disk.createFile (storePathOf (host.sha1 content.read.1)) content.read.2

/-- A save by what the search for a name gives. -/
theorem save_eq (privacy : Privacy) (name : String) (content : Content) (draws : List (List Char × List Char))
    (s : Tenant host) :
    save privacy name content draws s =
      match available privacy name draws s with
      | .searching => (.searching, { s with disk := s.stored content })
      | .refused => (.refused .suspiciousFileOperation, { s with disk := s.stored content })
      | .found n =>
        let data := precomputeValues host content.read.1 name
        let ensured := (s.stored content).ensureIntermediateDirectory (symlinkPath privacy n)
        match ensured.1 with
        | some errno => (.refused (.os errno), { s with disk := ensured.2 })
        | none =>
          let linked := ensured.2.symlink (storePathOf (host.sha1 content.read.1)) (symlinkPath privacy n)
          match linked.1 with
          | some errno => (.refused (.os errno), { s with disk := linked.2 })
          | none =>
            if data.fits = true then (.saved n, ⟨linked.2, s.references.insert (privacy, n) data⟩)
            else (.refused .dataError, { s with disk := linked.2 }) := by
  unfold save available Tenant.stored
  simp only [Disk.symlinkExists_createFile, precomputeValues_storePath]

/-- **A save whose link can be made** leaves it, with a row if the database takes it. -/
theorem save_of_linkable (content : Content) (hfound : available privacy name draws s = .found n)
    (hlinkable : s.disk.linkable (symlinkPath privacy n) = true) :
    ∃ disk : Disk host, disk.files = s.filesWith content ∧
      AddsLink (symlinkPath privacy n) (storePathOf (host.sha1 content.read.1)) s.disk.tree disk.tree ∧
      save privacy name content draws s =
        if (precomputeValues host content.read.1 name).fits = true then
          (.saved n, ⟨disk, s.references.insert (privacy, n) (precomputeValues host content.read.1 name)⟩)
        else (.refused .dataError, { s with disk := disk }) := by
  have hfree := (available_found hfound).1
  have hlinked := Disk.link_of_linkable (s.stored content) hfree hlinkable
    (storePathOf (host.sha1 content.read.1))
  refine ⟨_, rfl, hlinked.2.2, ?_⟩
  rw [save_eq, hfound]
  simp only [hlinked.1, hlinked.2.1]

/-- A save whose link cannot be made leaves the content. -/
theorem save_of_not_linkable (content : Content) (hfound : available privacy name draws s = .found n)
    (hlinkable : s.disk.linkable (symlinkPath privacy n) = false) :
    ∃ (errno : Errno) (disk : Disk host), disk.files = s.filesWith content ∧ SameLinks s.disk.tree disk.tree ∧
      save privacy name content draws s = (.refused (.os errno), { s with disk := disk }) := by
  have hfree := (available_found hfound).1
  obtain ⟨⟨errno, hrefused⟩, hsame⟩ := Disk.not_link_of_not_linkable (s.stored content) hfree hlinkable
    (storePathOf (host.sha1 content.read.1))
  rw [save_eq, hfound]
  cases hensured : ((s.stored content).ensureIntermediateDirectory (symlinkPath privacy n)).1 with
  | none =>
    refine ⟨errno, _, rfl, hsame, ?_⟩
    simp only [hensured, hrefused]
  | some e =>
    refine ⟨e, _, rfl, Disk.ensure_sameLinks (symlinkPath privacy n) (s.stored content), ?_⟩
    simp only [hensured]

/-- A save that finds no name leaves the content. -/
theorem save_of_refused (content : Content) (hrefused : available privacy name draws s = .refused) :
    save privacy name content draws s = (.refused .suspiciousFileOperation, { s with disk := s.stored content }) := by
  rw [save_eq, hrefused]

/-- A save that succeeds has found the name. -/
theorem saved_found {content : Content} {t : Tenant host} (h : save privacy name content draws s = (.saved n, t)) :
    available privacy name draws s = .found n := by
  cases havailable : available privacy name draws s with
  | searching => simp [save_eq, havailable] at h
  | refused => simp [save_of_refused content havailable] at h
  | found n' =>
    cases hlinkable : s.disk.linkable (symlinkPath privacy n') with
    | true =>
      obtain ⟨disk, -, -, hsave⟩ := save_of_linkable content havailable hlinkable
      rw [hsave] at h
      split_ifs at h
      · rw [Outcome.saved.inj (Prod.mk.inj h).1]
      · cases h
    | false =>
      obtain ⟨errno, disk, -, -, hsave⟩ := save_of_not_linkable content havailable hlinkable
      rw [hsave] at h
      cases h

/-- **A save that succeeds** leaves its bytes, its link and its row. -/
theorem save_saved {content : Content} {t : Tenant host} (h : save privacy name content draws s = (.saved n, t)) :
    t.disk.files = s.filesWith content ∧
      t.disk.tree.get (symlinkPath privacy n) = some (.link (storePathOf (host.sha1 content.read.1))) ∧
      t.references = s.references.insert (privacy, n) (precomputeValues host content.read.1 name) := by
  have hfound := saved_found h
  cases hlinkable : s.disk.linkable (symlinkPath privacy n) with
  | true =>
    obtain ⟨disk, hfiles, hlinks, hsave⟩ := save_of_linkable content hfound hlinkable
    rw [hsave] at h
    split_ifs at h
    · obtain ⟨-, rfl⟩ := Prod.mk.inj h
      exact ⟨hfiles, (hlinks _ _).2 (.inr ⟨rfl, rfl⟩), rfl⟩
    · cases h
  | false =>
    obtain ⟨errno, disk, -, -, hsave⟩ := save_of_not_linkable content hfound hlinkable
    rw [hsave] at h
    cases h

/-- A save keeps the links. -/
theorem save_keeps_links (privacy : Privacy) (name : String) (content : Content) (draws : List (List Char × List Char))
    {s : Tenant host} {q : Path} {storePath : String} (hlink : s.disk.tree.get q = some (.link storePath)) :
    (save privacy name content draws s).2.disk.tree.get q = some (.link storePath) := by
  cases havailable : available privacy name draws s with
  | searching =>
    rw [save_eq, havailable]
    exact hlink
  | refused =>
    rw [save_of_refused content havailable]
    exact hlink
  | found n =>
    cases hlinkable : s.disk.linkable (symlinkPath privacy n) with
    | true =>
      obtain ⟨disk, -, hlinks, hsave⟩ := save_of_linkable content havailable hlinkable
      rw [hsave]
      split_ifs
      · exact (hlinks q storePath).2 (.inl hlink)
      · exact (hlinks q storePath).2 (.inl hlink)
    | false =>
      obtain ⟨errno, disk, -, hlinks, hsave⟩ := save_of_not_linkable content havailable hlinkable
      rw [hsave]
      exact (hlinks q storePath).2 hlink

end Save

-- what a save finds and does is in the lemmas above
attribute [irreducible] available save

end

/-! ## A host -/

/-- SHA1 where it is listed. -/
def sampleSha1 : Bytes → String
  | [] => "da39a3ee5e6b4b0d3255bfef95601890afd80709"
  | [97] => "86f7e437faa5a7fce15d1ddcb9eaeaea377667b8"
  | [98] => "e9d71f5ee7c92d6dc9e92ffdad17b8bd49418f98"
  | data => String.ofList ('-' :: data.map fun byte => Char.ofNat byte.toNat)

def sampleHost : Host where
  sha1 := sampleSha1
  guessType _ := none
  accepts name := decide (name.length ≤ 255)

theorem toNat_ofNat_byte : ∀ n < 256, (Char.ofNat n).toNat = n := by decide +kernel

theorem charOfByte_injective : Function.Injective fun byte : UInt8 => Char.ofNat byte.toNat := by
  intro x y h
  have hnat := congrArg Char.toNat h
  simp only [toNat_ofNat_byte x.toNat (UInt8.toNat_lt x), toNat_ofNat_byte y.toNat (UInt8.toNat_lt y)] at hnat
  exact UInt8.toNat_inj.1 hnat

theorem sampleHost_sha1_injective : Function.Injective sampleHost.sha1 := by
  intro x y h
  have hhead := congrArg (fun digest => digest.toList.head?) h
  unfold sampleHost sampleSha1 at h hhead
  simp only at h hhead
  split at h <;> split at h
  all_goals first
    | rfl
    | exact absurd h (by decide)
    | simp at hhead; done
    | exact charOfByte_injective.list_map (List.cons.inj (String.ofList_injective h)).2

end Totem.Files
