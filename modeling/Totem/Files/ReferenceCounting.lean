import Totem.Files.Storage
import Totem.Lib.Run

/-!
# Totem.Files.ReferenceCounting — saves and deletions over the two storages of a tenant

The bytes saved under each name are followed beside the tenant, and the tenant keeps them as the deduplicating store it
is: `Sound` is the invariant that its steps keep.

* `Sound.save`, `Sound.delete`: a save and a deletion over a sound tenant.
* `counted_iff_harmless`: the rows, the links and the filestore agree along a run exactly if no refused save leaves
  its bytes or its link behind.
-/

namespace Totem.Files

open Lib Lib.DirectoryTree

section

variable {host : Host}

/-! ## Runs -/

/-- A tenant, and the bytes saved under its names. -/
structure State (host : Host) where
  saved : Table (Privacy × String) Bytes
  tenant : Tenant host

def State.empty (host : Host) : State host := ⟨Table.empty, .empty host⟩

inductive Event
  | save (privacy : Privacy) (name : String) (data : Bytes) (draws : List (List Char × List Char))
  | delete (privacy : Privacy) (name : String)

/-- A call that ends, with its rows committed. -/
inductive Step : State host → Event → State host → Prop
  | saved {s : State host} {t : Tenant host} {privacy : Privacy} {name n : String} {data : Bytes}
      {draws : List (List Char × List Char)} :
      save privacy name (.ofBytes data) draws s.tenant = (.saved n, t) →
      Step s (.save privacy name data draws) ⟨s.saved.insert (privacy, n) data, t⟩
  | refused {s : State host} {t : Tenant host} {privacy : Privacy} {name : String} {data : Bytes}
      {draws : List (List Char × List Char)} {error : SaveError} :
      save privacy name (.ofBytes data) draws s.tenant = (.refused error, t) →
      Step s (.save privacy name data draws) ⟨s.saved, t⟩
  | delete {s : State host} {privacy : Privacy} {name : String} :
      Step s (.delete privacy name) ⟨s.saved.erase (privacy, name), delete privacy name s.tenant⟩

/-- The rows, the links and the filestore agree. -/
structure Counted (s : State host) : Prop where
  reads : ∀ privacy name ref, s.tenant.references.get (privacy, name) = some ref →
    s.tenant.disk.tree.get (symlinkPath privacy name) = some (.link ref.storePath) ∧
      ∃ data, s.saved.get (privacy, name) = some data ∧ s.tenant.disk.files.get ref.storePath = some data
  stored : ∀ storePath, s.tenant.disk.files.get storePath ≠ none ↔
    ∃ key ref, s.tenant.references.get key = some ref ∧ storePathOf ref.checksum = storePath
  linked : ∀ path storePath, s.tenant.disk.tree.get path = some (.link storePath) →
    ∃ privacy name, s.tenant.references.get (privacy, name) ≠ none ∧ symlinkPath privacy name = path
  alone : ∀ privacy name privacy' name', (privacy', name') ≠ (privacy, name) →
    s.tenant.references.get (privacy', name') ≠ none →
    (delete privacy name s.tenant).served privacy' name' = s.tenant.served privacy' name'

/-- The store path of a content. -/
def address (host : Host) (data : Bytes) : String := storePathOf (host.sha1 data)

/-- The save of an event leaves nothing behind if it is refused: either it finds a free name whose link can be made and
whose mimetype fits, or it makes no link and its bytes are in the filestore already. -/
def Harmless (s : Tenant host) : Event → Prop
  | .delete .. => True
  | .save privacy name data draws =>
    match available privacy name draws s with
    | .searching => True
    | .refused => s.disk.files.get (address host data) ≠ none
    | .found n =>
      if s.disk.linkable (symlinkPath privacy n) = true then (precomputeValues host data name).fits = true
      else s.disk.files.get (address host data) ≠ none

instance (s : Tenant host) : (e : Event) → Decidable (Harmless s e)
  | .delete .. => isTrue trivial
  | .save privacy name data draws =>
    match h : available privacy name draws s with
    | .searching => isTrue (by simp [Harmless, h])
    | .refused => decidable_of_iff (s.disk.files.get (address host data) ≠ none) (by simp [Harmless, h])
    | .found n =>
      decidable_of_iff
        (if s.disk.linkable (symlinkPath privacy n) = true then (precomputeValues host data name).fits = true
        else s.disk.files.get (address host data) ≠ none)
        (by simp only [Harmless, h])

/-- A save that makes its link is harmless if the database takes its row. -/
theorem harmless_iff_fits {s : Tenant host} {privacy : Privacy} {name n : String} {data : Bytes}
    {draws : List (List Char × List Char)} (hfound : available privacy name draws s = .found n)
    (hlinkable : s.disk.linkable (symlinkPath privacy n) = true) :
    Harmless s (.save privacy name data draws) ↔ (precomputeValues host data name).fits = true := by
  unfold Harmless
  simp only [hfound]
  rw [if_pos hlinkable]

/-- A save that makes no link is harmless if its bytes are there. -/
theorem harmless_iff_stored {s : Tenant host} {privacy : Privacy} {name : String} {data : Bytes}
    {draws : List (List Char × List Char)} (hrefused : available privacy name draws s = .refused ∨
      ∃ n, available privacy name draws s = .found n ∧ s.disk.linkable (symlinkPath privacy n) = false) :
    Harmless s (.save privacy name data draws) ↔ s.disk.files.get (address host data) ≠ none := by
  unfold Harmless
  rcases hrefused with hrefused | ⟨n, hfound, hlinkable⟩
  · simp only [hrefused]
  · simp only [hfound]
    rw [if_neg (by simp [hlinkable])]

/-! ## The invariant -/

/-- The rows are those of the saved bytes, which the filestore holds, with a link of its own for each. -/
structure Sound (s : State host) : Prop where
  rows : ∀ key, (s.tenant.references.get key).map (fun ref => (ref.checksum, ref.storePath)) =
    (s.saved.get key).map fun data => (host.sha1 data, address host data)
  holds : ContentStore.Holds (address host) s.saved s.tenant.disk.files
  links : ∀ path storePath, s.tenant.disk.tree.get path = some (.link storePath) ↔
    ∃ privacy name data, s.saved.get (privacy, name) = some data ∧ symlinkPath privacy name = path ∧
      address host data = storePath
  distinct : ∀ privacy name privacy' name', s.saved.get (privacy, name) ≠ none →
    s.saved.get (privacy', name') ≠ none → symlinkPath privacy name = symlinkPath privacy' name' →
    (privacy, name) = (privacy', name')

namespace Sound

variable {s : State host} {key : Privacy × String} {privacy : Privacy} {name n : String}

theorem empty : Sound (State.empty host) where
  rows _ := rfl
  holds := .empty
  links _ _ := by simp [State.empty, Tenant.empty, Disk.empty]
  distinct _ _ _ _ h := absurd rfl h

theorem saved_of_reference (h : Sound s) {ref : FileReference} (href : s.tenant.references.get key = some ref) :
    ∃ data, s.saved.get key = some data ∧ ref.checksum = host.sha1 data ∧ ref.storePath = address host data := by
  have hrows := h.rows key
  rw [href, Option.map_some] at hrows
  obtain ⟨data, hdata, heq⟩ := Option.map_eq_some_iff.1 hrows.symm
  rw [Prod.mk.injEq] at heq
  exact ⟨data, hdata, heq.1.symm, heq.2.symm⟩

theorem reference_of_saved (h : Sound s) {data : Bytes} (hdata : s.saved.get key = some data) :
    ∃ ref, s.tenant.references.get key = some ref ∧ ref.checksum = host.sha1 data ∧
      ref.storePath = address host data := by
  have hrows := h.rows key
  rw [hdata, Option.map_some] at hrows
  obtain ⟨ref, href, heq⟩ := Option.map_eq_some_iff.1 hrows
  rw [Prod.mk.injEq] at heq
  exact ⟨ref, href, heq.1, heq.2⟩

theorem reference_eq_none (h : Sound s) : s.tenant.references.get key = none ↔ s.saved.get key = none := by
  have hrows := h.rows key
  rw [← Option.map_eq_none_iff, hrows, Option.map_eq_none_iff]

/-- A name whose path is free has nothing saved. -/
theorem get_of_free (h : Sound s) (hfree : lexists s.tenant.disk.tree (symlinkPath privacy n) = false) :
    ∀ privacy' name', symlinkPath privacy' name' = symlinkPath privacy n → s.saved.get (privacy', name') = none := by
  intro privacy' name' hpath
  by_contra hne
  obtain ⟨data, hdata⟩ := Option.ne_none_iff_exists'.1 hne
  have hlink := (h.links (symlinkPath privacy n) (address host data)).2 ⟨privacy', name', data, hdata, hpath, rfl⟩
  simp [lexists, hlink] at hfree

/-- What a name leads to is what was saved under it. -/
theorem served_eq (h : Sound s) {data : Bytes} (hdata : s.saved.get (privacy, name) = some data) :
    s.tenant.served privacy name = some data := by
  have hlink := (h.links (symlinkPath privacy name) (address host data)).2 ⟨privacy, name, data, hdata, rfl, rfl⟩
  rw [Tenant.served, hlink]
  exact h.holds.kept (privacy, name) data hdata

/-! ## What a step keeps -/

/-- A save adds its bytes, its link and its row. -/
theorem save (hinj : Function.Injective host.sha1) (h : Sound s) {data : Bytes} {disk : Disk host} {ref : FileReference}
    (hfree : lexists s.tenant.disk.tree (symlinkPath privacy n) = false)
    (hfiles : disk.files = s.tenant.filesWith (.ofBytes data))
    (hlinks : AddsLink (symlinkPath privacy n) (address host data) s.tenant.disk.tree disk.tree)
    (href : (ref.checksum, ref.storePath) = (host.sha1 data, address host data)) :
    Sound (⟨s.saved.insert (privacy, n) data, ⟨disk, s.tenant.references.insert (privacy, n) ref⟩⟩ : State host) where
  rows key := by
    by_cases hkey : key = (privacy, n)
    · subst hkey
      simp [href]
    · simp only [Table.get_insert_of_ne hkey]
      exact h.rows key
  holds := by
    show ContentStore.Holds _ _ disk.files
    rw [hfiles]
    exact h.holds.save (storePathOf_injective.comp hinj) (h.get_of_free hfree privacy n rfl)
  links path storePath := by
    rw [hlinks path storePath, h.links path storePath]
    constructor
    · rintro (⟨privacy', name', data', hdata, hpath, hstore⟩ | ⟨rfl, rfl⟩)
      · refine ⟨privacy', name', data', ?_, hpath, hstore⟩
        rw [Table.get_insert_of_ne, hdata]
        intro heq
        rw [heq, h.get_of_free hfree privacy n rfl] at hdata
        cases hdata
      · exact ⟨privacy, n, data, Table.get_insert_self .., rfl, rfl⟩
    · rintro ⟨privacy', name', data', hdata, hpath, hstore⟩
      by_cases heq : (privacy', name') = (privacy, n)
      · rw [heq, Table.get_insert_self, Option.some.injEq] at hdata
        obtain ⟨rfl, rfl⟩ := Prod.mk.inj heq
        subst hdata
        exact .inr ⟨hpath.symm, hstore.symm⟩
      · rw [Table.get_insert_of_ne heq] at hdata
        exact .inl ⟨privacy', name', data', hdata, hpath, hstore⟩
  distinct privacy₁ name₁ privacy₂ name₂ h₁ h₂ hpath := by
    by_cases heq₁ : (privacy₁, name₁) = (privacy, n)
    · by_cases heq₂ : (privacy₂, name₂) = (privacy, n)
      · rw [heq₁, heq₂]
      · obtain ⟨rfl, rfl⟩ := Prod.mk.inj heq₁
        rw [Table.get_insert_of_ne heq₂] at h₂
        exact absurd (h.get_of_free hfree privacy₂ name₂ hpath.symm) h₂
    · rw [Table.get_insert_of_ne heq₁] at h₁
      by_cases heq₂ : (privacy₂, name₂) = (privacy, n)
      · obtain ⟨rfl, rfl⟩ := Prod.mk.inj heq₂
        exact absurd (h.get_of_free hfree privacy₁ name₁ hpath) h₁
      · rw [Table.get_insert_of_ne heq₂] at h₂
        exact h.distinct privacy₁ name₁ privacy₂ name₂ h₁ h₂ hpath

/-- A tenant with the same files, links and rows is as sound. -/
theorem of_same (h : Sound s) {disk : Disk host} (hfiles : disk.files = s.tenant.disk.files)
    (hlinks : SameLinks s.tenant.disk.tree disk.tree) :
    Sound (⟨s.saved, ⟨disk, s.tenant.references⟩⟩ : State host) where
  rows := h.rows
  holds := by
    show ContentStore.Holds _ _ disk.files
    rw [hfiles]
    exact h.holds
  links path storePath := (hlinks path storePath).trans (h.links path storePath)
  distinct := h.distinct

/-- The links of the names that are left. -/
theorem links_erase (h : Sound s) (hsaved : s.saved.get (privacy, name) ≠ none) (path : Path) (storePath : String) :
    (unlink s.tenant.disk.tree (symlinkPath privacy name)).get path = some (.link storePath) ↔
      ∃ privacy' name' data, (s.saved.erase (privacy, name)).get (privacy', name') = some data ∧
        symlinkPath privacy' name' = path ∧ address host data = storePath := by
  rw [get_unlink_link, h.links path storePath]
  constructor
  · rintro ⟨⟨privacy', name', data, hdata, hpath, hstore⟩, hne⟩
    refine ⟨privacy', name', data, Table.get_erase_eq_some.2 ⟨hdata, ?_⟩, hpath, hstore⟩
    intro heq
    obtain ⟨rfl, rfl⟩ := Prod.mk.inj heq
    exact hne hpath.symm
  · rintro ⟨privacy', name', data, hdata, hpath, hstore⟩
    obtain ⟨hdata, hne⟩ := Table.get_erase_eq_some.1 hdata
    refine ⟨⟨privacy', name', data, hdata, hpath, hstore⟩, fun heq => hne ?_⟩
    exact h.distinct privacy' name' privacy name (by simp [hdata]) hsaved (hpath.trans heq)

theorem distinct_erase (h : Sound s) (privacy₁ : Privacy) (name₁ : String) (privacy₂ : Privacy) (name₂ : String)
    (h₁ : (s.saved.erase (privacy, name)).get (privacy₁, name₁) ≠ none)
    (h₂ : (s.saved.erase (privacy, name)).get (privacy₂, name₂) ≠ none)
    (hpath : symlinkPath privacy₁ name₁ = symlinkPath privacy₂ name₂) : (privacy₁, name₁) = (privacy₂, name₂) := by
  obtain ⟨_, h₁⟩ := Option.ne_none_iff_exists'.1 h₁
  obtain ⟨_, h₂⟩ := Option.ne_none_iff_exists'.1 h₂
  exact h.distinct privacy₁ name₁ privacy₂ name₂ (by simp [(Table.get_erase_eq_some.1 h₁).1])
    (by simp [(Table.get_erase_eq_some.1 h₂).1]) hpath

/-- The rows of a checksum are those of its content. -/
theorem mem_find_checksum (hinj : Function.Injective host.sha1) (h : Sound s) (data : Bytes) (key : Privacy × String) :
    key ∈ s.tenant.references.find (fun _ other => decide (other.checksum = host.sha1 data)) ↔
      s.saved.get key = some data := by
  rw [Table.mem_find]
  constructor
  · rintro ⟨ref, href, hsum⟩
    obtain ⟨data', hdata', hchecksum, -⟩ := h.saved_of_reference href
    rw [decide_eq_true_eq, hchecksum] at hsum
    rw [hdata', hinj hsum]
  · intro hdata
    obtain ⟨ref, href, hchecksum, -⟩ := h.reference_of_saved hdata
    exact ⟨ref, href, by simp [hchecksum]⟩

/-- A deletion erases the name. -/
theorem delete (hinj : Function.Injective host.sha1) (h : Sound s) :
    Sound (⟨s.saved.erase (privacy, name), Files.delete privacy name s.tenant⟩ : State host) := by
  unfold Files.delete
  cases href : s.tenant.references.get (privacy, name) with
  | none =>
    rw [Table.erase_of_get_eq_none (h.reference_eq_none.1 href)]
    exact h
  | some ref =>
    obtain ⟨data, hdata, hchecksum, hstore⟩ := h.saved_of_reference href
    have hmem := h.mem_find_checksum hinj data
    have hsaved : s.saved.get (privacy, name) ≠ none := by simp [hdata]
    simp only [hchecksum]
    split_ifs with hlast
    · -- the only name with these bytes
      obtain ⟨key', hkey'⟩ := Finset.card_eq_one.1 hlast
      have honly : ∀ key, s.saved.get key = some data → key = (privacy, name) := by
        intro key hkey
        have hmem₁ := (hmem key).2 hkey
        have hmem₂ := (hmem (privacy, name)).2 hdata
        rw [hkey', Finset.mem_singleton] at hmem₁ hmem₂
        rw [hmem₁, hmem₂]
      refine ⟨fun key => ?_, ?_, h.links_erase hsaved, h.distinct_erase⟩
      · by_cases hkey : key = (privacy, name)
        · subst hkey
          simp [href, hchecksum, Option.filter]
        · show Option.map _ ((s.tenant.references.filter _).get key) = Option.map _ ((s.saved.erase _).get key)
          rw [Table.get_erase_of_ne hkey, ← h.rows key, Table.get_filter]
          cases href' : s.tenant.references.get key with
          | none => rfl
          | some ref' =>
            obtain ⟨data', hdata', hchecksum', -⟩ := h.saved_of_reference href'
            have hne : ref'.checksum ≠ host.sha1 data := by
              rw [hchecksum']
              rintro heq
              exact hkey (honly key (by rw [hdata', hinj heq]))
            simp [Option.filter, hne]
      · show ContentStore.Holds _ _ (s.tenant.disk.files.erase ref.storePath)
        rw [hstore]
        refine h.holds.erase_last (fun key' data' hdata' haddress => ?_) hdata
        obtain rfl : data' = data := (storePathOf_injective.comp hinj) haddress
        exact honly key' hdata'
    · refine ⟨fun key => ?_, h.holds.erase_shared hdata ?_, h.links_erase hsaved, h.distinct_erase⟩
      · by_cases hkey : key = (privacy, name)
        · subst hkey
          simp
        · show Option.map _ ((s.tenant.references.erase _).get key) = Option.map _ ((s.saved.erase _).get key)
          rw [Table.get_erase_of_ne hkey, Table.get_erase_of_ne hkey]
          exact h.rows key
      · have hpos := Finset.card_pos.2 ⟨_, (hmem (privacy, name)).2 hdata⟩
        have hmany : 1 < (s.tenant.references.find
            fun _ other => decide (other.checksum = host.sha1 data)).card := by omega
        obtain ⟨⟨privacy', name'⟩, hkey', hne⟩ := Finset.exists_mem_ne hmany (privacy, name)
        exact ⟨_, data, (hmem _).1 hkey', rfl, hne⟩

/-- A sound tenant counts its references. -/
theorem counted (hinj : Function.Injective host.sha1) (h : Sound s) : Counted s where
  reads privacy name ref href := by
    obtain ⟨data, hdata, -, hstore⟩ := h.saved_of_reference href
    rw [hstore]
    exact ⟨(h.links _ _).2 ⟨privacy, name, data, hdata, rfl, rfl⟩, data, hdata, h.holds.kept _ data hdata⟩
  stored storePath := by
    constructor
    · intro hstored
      obtain ⟨key, data, hdata, haddress⟩ := h.holds.named storePath hstored
      obtain ⟨ref, href, hchecksum, -⟩ := h.reference_of_saved hdata
      exact ⟨key, ref, href, by rw [hchecksum]; exact haddress⟩
    · rintro ⟨key, ref, href, rfl⟩
      obtain ⟨data, hdata, hchecksum, -⟩ := h.saved_of_reference href
      rw [hchecksum]
      exact Option.ne_none_iff_exists'.2 ⟨data, h.holds.kept key data hdata⟩
  linked path storePath hlink := by
    obtain ⟨privacy, name, data, hdata, hpath, -⟩ := (h.links path storePath).1 hlink
    refine ⟨privacy, name, ?_, hpath⟩
    rw [ne_eq, h.reference_eq_none, hdata]
    simp
  alone privacy name privacy' name' hne href := by
    rw [ne_eq, h.reference_eq_none] at href
    obtain ⟨data, hdata⟩ := Option.ne_none_iff_exists'.1 href
    rw [h.served_eq hdata]
    exact (h.delete hinj).served_eq (Table.get_erase_eq_some.2 ⟨hdata, hne⟩)

end Sound

/-! ## Refused saves -/

/-- What a save leaves: its link and its row, its link alone, or no link. -/
theorem Step.save_cases {s s' : State host} {privacy : Privacy} {name : String} {data : Bytes}
    {draws : List (List Char × List Char)} (hstep : Step s (.save privacy name data draws) s') :
    ∃ disk : Disk host, disk.files = s.tenant.filesWith (.ofBytes data) ∧
      ((∃ n, available privacy name draws s.tenant = .found n ∧
          s.tenant.disk.linkable (symlinkPath privacy n) = true ∧
          AddsLink (symlinkPath privacy n) (address host data) s.tenant.disk.tree disk.tree ∧
          if (precomputeValues host data name).fits = true then
            s' = ⟨s.saved.insert (privacy, n) data,
              ⟨disk, s.tenant.references.insert (privacy, n) (precomputeValues host data name)⟩⟩
          else s' = ⟨s.saved, ⟨disk, s.tenant.references⟩⟩) ∨
        (available privacy name draws s.tenant = .refused ∨ ∃ n, available privacy name draws s.tenant = .found n ∧
          s.tenant.disk.linkable (symlinkPath privacy n) = false) ∧
          SameLinks s.tenant.disk.tree disk.tree ∧ s' = ⟨s.saved, ⟨disk, s.tenant.references⟩⟩) := by
  cases havailable : available privacy name draws s.tenant with
  | searching =>
    have hsave := save_eq privacy name (.ofBytes data) draws s.tenant
    rw [havailable] at hsave
    cases hstep with
    | saved h => simp [hsave] at h
    | refused h => simp [hsave] at h
  | refused =>
    have hsave := save_of_refused (.ofBytes data) havailable
    refine ⟨s.tenant.stored (.ofBytes data), rfl, .inr ⟨.inl rfl, .refl _, ?_⟩⟩
    cases hstep with
    | saved h => simp [hsave] at h
    | refused h =>
      rw [hsave] at h
      rw [← (Prod.mk.inj h).2]
  | found n =>
    cases hlinkable : s.tenant.disk.linkable (symlinkPath privacy n) with
    | true =>
      obtain ⟨disk, hfiles, hlinks, hsave⟩ := save_of_linkable (.ofBytes data) havailable hlinkable
      refine ⟨disk, hfiles, .inl ⟨n, rfl, hlinkable, hlinks, ?_⟩⟩
      have hread : (Content.ofBytes data).read.1 = data := rfl
      rw [hread] at hsave
      cases hstep with
      | saved h =>
        rw [hsave] at h
        split_ifs at h ⊢ with hfits
        · obtain ⟨hn, ht⟩ := Prod.mk.inj h
          rw [← ht, ← Outcome.saved.inj hn]
        · cases h
      | refused h =>
        rw [hsave] at h
        split_ifs at h ⊢ with hfits
        · cases h
        · rw [← (Prod.mk.inj h).2]
    | false =>
      obtain ⟨errno, disk, hfiles, hlinks, hsave⟩ :=
        save_of_not_linkable (.ofBytes data) havailable hlinkable
      refine ⟨disk, hfiles, .inr ⟨.inr ⟨n, rfl, hlinkable⟩, hlinks, ?_⟩⟩
      cases hstep with
      | saved h => simp [hsave] at h
      | refused h =>
        rw [hsave] at h
        rw [← (Prod.mk.inj h).2]

namespace Sound

variable {s s' : State host} {e : Event}

/-- **A harmless step keeps the tenant sound.** -/
theorem step (hinj : Function.Injective host.sha1) (h : Sound s) (hstep : Step s e s')
    (hharmless : Harmless s.tenant e) : Sound s' := by
  cases e with
  | delete privacy name =>
    cases hstep
    exact h.delete hinj
  | save privacy name data draws =>
    obtain ⟨disk, hfiles, ⟨n, hfound, hlinkable, hlinks, heq⟩ | ⟨hrefused, hlinks, rfl⟩⟩ := hstep.save_cases
    · rw [if_pos ((harmless_iff_fits hfound hlinkable).1 hharmless)] at heq
      rw [heq]
      exact h.save hinj (available_found hfound).1 hfiles hlinks rfl
    · have hthere := (harmless_iff_stored hrefused).1 hharmless
      exact h.of_same (hfiles.trans (ContentStore.keep_eq_self.2 hthere)) hlinks

/-- **A step that is not harmless** leaves bytes or a link without a row. -/
theorem not_counted (h : Sound s) (hstep : Step s e s') (hharmless : ¬ Harmless s.tenant e) : ¬ Counted s' := by
  intro hcounted
  cases e with
  | delete privacy name => exact hharmless trivial
  | save privacy name data draws =>
    obtain ⟨disk, hfiles, ⟨n, hfound, hlinkable, hlinks, heq⟩ | ⟨hrefused, hlinks, rfl⟩⟩ := hstep.save_cases
    · rw [if_neg (mt (harmless_iff_fits hfound hlinkable).2 hharmless)] at heq
      subst heq
      -- the link has no row: its path was free
      obtain ⟨privacy', name', href, hpath⟩ :=
        hcounted.linked _ _ ((hlinks (symlinkPath privacy n) _).2 (.inr ⟨rfl, rfl⟩))
      exact href (h.reference_eq_none.2 (h.get_of_free (available_found hfound).1 privacy' name' hpath))
    · have hnew : s.tenant.disk.files.get (address host data) = none := by
        by_contra hthere
        exact hharmless ((harmless_iff_stored hrefused).2 hthere)
      -- the bytes have no row: they were not in the filestore
      have hstored : disk.files.get (address host data) ≠ none := by
        rw [hfiles]
        show (ContentStore.keep (address host data) data s.tenant.disk.files).get _ ≠ none
        simp [ContentStore.keep_of_none hnew]
      obtain ⟨key, ref, href, haddress⟩ := (hcounted.stored _).1 hstored
      obtain ⟨data', hdata', hchecksum, -⟩ := h.saved_of_reference href
      have hkept := h.holds.kept key data' hdata'
      rw [show address host data' = address host data by rw [← haddress, hchecksum]; rfl, hnew] at hkept
      cases hkept

end Sound

theorem Step.deterministic (s : State host) (e : Event) (s₁ s₂ : State host) (h₁ : Step s e s₁)
    (h₂ : Step s e s₂) : s₁ = s₂ := by
  cases h₁ with
  | saved h =>
    cases h₂ with
    | saved h' =>
      obtain ⟨hn, rfl⟩ := Prod.mk.inj (h.symm.trans h')
      rw [Outcome.saved.inj hn]
    | refused h' => simp [h] at h'
  | refused h =>
    cases h₂ with
    | saved h' => simp [h] at h'
    | refused h' =>
      obtain ⟨-, rfl⟩ := Prod.mk.inj (h.symm.trans h')
      rfl
  | delete =>
    cases h₂
    rfl

/-- A run of harmless steps reaches sound tenants. -/
theorem Sound.of_run (hinj : Function.Injective host.sha1) {s : State host} {es : List Event}
    (hrun : Run (fun s e s' => Step s e s' ∧ Harmless s.tenant e) (.empty host) es s) : Sound s :=
  hrun.invariant (fun _ _ _ h hstep => h.step hinj hstep.1 hstep.2) .empty

/-- **The references are counted along a run**, in every state that it reaches, exactly if its steps are harmless. -/
theorem counted_iff_harmless (hinj : Function.Injective host.sha1) {s : State host} {es : List Event}
    (hrun : Run Step (.empty host) es s) :
    (∀ es₁ es₂ s₁, es = es₁ ++ es₂ → Run Step (.empty host) es₁ s₁ → Run Step s₁ es₂ s → Counted s₁) ↔
      Run (fun s e s' => Step s e s' ∧ Harmless s.tenant e) (.empty host) es s := by
  constructor
  · intro hcounted
    rcases hrun.restrict_or (Q := fun s e => Harmless s.tenant e) with
      hharmless | ⟨es₁, e, es₂, s₁, s₂, rfl, hrun₁, hstep, hharmful, hrun₂⟩
    · exact hharmless
    · have hreached : Run Step (.empty host) (es₁ ++ [e]) s₂ :=
        Run.append_iff.2 ⟨s₁, hrun₁.mono fun _ _ _ h => h.1, Run.singleton_iff.2 hstep⟩
      exact absurd (hcounted _ es₂ s₂ (by simp) hreached hrun₂) ((Sound.of_run hinj hrun₁).not_counted hstep hharmful)
  · rintro hharmless es₁ es₂ s₁ rfl hrun₁ -
    obtain ⟨s₁', hrun₁', -⟩ := Run.append_iff.1 hharmless
    have hsteps : Run Step (.empty host) es₁ s₁' := hrun₁'.mono fun _ _ _ h => h.1
    obtain rfl : s₁ = s₁' := hrun₁.deterministic Step.deterministic hsteps
    exact (Sound.of_run hinj hrun₁').counted hinj

theorem Step.of_saved (s : State host) (privacy : Privacy) (name : String) (data : Bytes)
    (draws : List (List Char × List Char)) (n : String)
    (h : (Files.save privacy name (.ofBytes data) draws s.tenant).1 = .saved n) :
    Step s (.save privacy name data draws)
      ⟨s.saved.insert (privacy, n) data, (Files.save privacy name (.ofBytes data) draws s.tenant).2⟩ :=
  .saved (Prod.ext h rfl)

theorem Step.of_refused (s : State host) (privacy : Privacy) (name : String) (data : Bytes)
    (draws : List (List Char × List Char)) (error : SaveError)
    (h : (Files.save privacy name (.ofBytes data) draws s.tenant).1 = .refused error) :
    Step s (.save privacy name data draws)
      ⟨s.saved, (Files.save privacy name (.ofBytes data) draws s.tenant).2⟩ :=
  .refused (Prod.ext h rfl)

end

/-! ## A refused save -/

/-- A tenant with one file. -/
def sampleState : State sampleHost where
  saved := Table.empty.insert (.PUBLIC, "a") [97]
  tenant := (save .PUBLIC "a" (.ofBytes [97]) [] (.empty sampleHost)).2

theorem sampleState_step : Step (.empty sampleHost) (.save .PUBLIC "a" [97] []) sampleState :=
  .of_saved (.empty sampleHost) .PUBLIC "a" [97] [] "a" (by decide +kernel)

theorem sampleState_sound : Sound sampleState :=
  Sound.empty.step sampleHost_sha1_injective sampleState_step (by decide +kernel)

/-- A file under two names, the first of which is deleted. -/
def twoNames : State sampleHost where
  saved := sampleState.saved.insert (.PRIVATE, "b") [97]
  tenant := (save .PRIVATE "b" (.ofBytes [97]) [] sampleState.tenant).2

theorem counted_iff_harmless_sample : ∃ s : State sampleHost,
    Run Step (.empty sampleHost) [.save .PUBLIC "a" [97] [], .save .PRIVATE "b" [97] [], .delete .PUBLIC "a"] s ∧
      Counted s ∧ s.tenant.served .PRIVATE "b" = some [97] ∧ s.tenant.served .PUBLIC "a" = none := by
  have hsecond : Step sampleState (.save .PRIVATE "b" [97] []) twoNames :=
    .of_saved sampleState .PRIVATE "b" [97] [] "b" (by decide +kernel)
  have hdelete : Step twoNames (.delete .PUBLIC "a")
      ⟨twoNames.saved.erase (.PUBLIC, "a"), delete .PUBLIC "a" twoNames.tenant⟩ := .delete
  have hrun := Run.cons sampleState_step (.cons hsecond (Run.singleton_iff.2 hdelete))
  refine ⟨_, hrun, (counted_iff_harmless sampleHost_sha1_injective hrun).2 ?_ _ [] _ rfl hrun (.nil _),
    by decide +kernel, by decide +kernel⟩
  exact .cons ⟨sampleState_step, by decide +kernel⟩
    (.cons ⟨hsecond, by decide +kernel⟩ (Run.singleton_iff.2 ⟨hdelete, trivial⟩))

/-- A name below a link is refused once its bytes are written, and no row mentions them. -/
theorem refused_save_leaves_bytes :
    Function.Injective sampleHost.sha1 ∧
      ∃ s, Run Step (.empty sampleHost) [.save .PUBLIC "a" [97] [], .save .PUBLIC "a/b" [98] []] s ∧ ¬ Counted s := by
  have hstep := Step.of_refused sampleState .PUBLIC "a/b" [98] [] (.os .notADirectory) (by decide +kernel)
  exact ⟨sampleHost_sha1_injective, _, .cons sampleState_step (Run.singleton_iff.2 hstep),
    sampleState_sound.not_counted hstep (by decide +kernel)⟩

end Totem.Files
