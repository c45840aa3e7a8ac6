import Totem.Lib.Table

/-!
# Totem.Lib.DirectoryTree — directories and symbolic links

A tree of directories with links for leaves, below a root that always exists.  A path is the list of its names, the
last one first.  A call of the operating system gives an errno and leaves the tree as far as it got.

* `WellFormed`: what is in the tree has a directory above it.
* `makedirs_spec`: a path made with its parents adds directories and nothing else; nothing stops it where the path is
  `Clear`.
* `symlink_iff`: a link is made where the path is clear and free.
-/

namespace Totem.Lib.DirectoryTree

/-- The names of a path, the last one first. -/
abbrev Path := List String

inductive Entry (T : Type)
  | dir
  | link (target : T)
  deriving DecidableEq

abbrev Tree (T : Type) := Table Path (Entry T)

inductive Errno
  | exists
  | notADirectory
  | invalidName
  deriving DecidableEq

variable {T : Type}

/-- `os.path.isdir`, for links to files. -/
def isDir (t : Tree T) : Path → Bool
  | [] => true
  | p =>
    match t.get p with
    | some .dir => true
    | _ => false

/-- `os.path.lexists`. -/
def lexists (t : Tree T) (p : Path) : Bool := decide (p = []) || (t.get p).isSome

/-- `os.path.exists`: a link exists if its target does. -/
def pathExists (targetExists : T → Bool) (t : Tree T) : Path → Bool
  | [] => true
  | p =>
    match t.get p with
    | some .dir => true
    | some (.link target) => targetExists target
    | none => false

section Calls

variable (accepts : String → Bool)

/-- Put an entry at a path. -/
def put (entry : Entry T) (t : Tree T) : Path → Option Errno × Tree T
  | [] => (some .exists, t)
  | name :: parent =>
    if isDir t parent = false then (some .notADirectory, t)
    else if (t.get (name :: parent)).isSome = true then (some .exists, t)
    else if accepts name = false then (some .invalidName, t)
    else (none, t.insert (name :: parent) entry)

/-- `os.mkdir`. -/
def mkdir (t : Tree T) (p : Path) : Option Errno × Tree T := put accepts .dir t p

/-- `os.symlink`. -/
def symlink (t : Tree T) (p : Path) (target : T) : Option Errno × Tree T := put accepts (.link target) t p

/-- `os.makedirs` with `exist_ok`. -/
def makedirs (targetExists : T → Bool) (t : Tree T) : Path → Option Errno × Tree T
  | [] => (none, t)
  | name :: parent =>
    let parents := if pathExists targetExists t parent = true then (none, t) else makedirs targetExists t parent
    if parents.1 = none ∨ parents.1 = some .exists then
      let made := mkdir accepts parents.2 (name :: parent)
      if made.1 ≠ none ∧ isDir parents.2 (name :: parent) = true then (none, parents.2) else made
    else parents

end Calls

/-- `os.unlink` of a link. -/
def unlink (t : Tree T) (p : Path) : Tree T :=
  t.filter fun q entry =>
    match entry with
    | .dir => true
    | .link _ => decide (q ≠ p)

/-- No part of the path is a link, and its names are accepted. -/
def clear (accepts : String → Bool) (t : Tree T) : Path → Bool
  | [] => true
  | name :: parent =>
    accepts name && (match t.get (name :: parent) with
      | some (.link _) => false
      | _ => true) && clear accepts t parent

/-! ## Well-formed trees -/

/-- Every entry has a directory above it and an accepted name. -/
structure WellFormed (accepts : String → Bool) (t : Tree T) : Prop where
  root : t.get [] = none
  parent : ∀ name p, t.get (name :: p) ≠ none → isDir t p = true
  named : ∀ name p, t.get (name :: p) ≠ none → accepts name = true

section

variable {accepts : String → Bool} {targetExists : T → Bool} {t t' : Tree T} {p q : Path} {entry : Entry T}

theorem WellFormed.empty : WellFormed accepts (Table.empty : Tree T) where
  root := rfl
  parent _ _ h := absurd rfl h
  named _ _ h := absurd rfl h

theorem isDir_cons {name : String} : isDir t (name :: p) = true ↔ t.get (name :: p) = some .dir := by
  cases h : t.get (name :: p) with
  | none => simp [isDir, h]
  | some e => cases e <;> simp [isDir, h]

/-- What `put` does: an errno and the tree as it was, or the entry added below a directory. -/
theorem put_cases (accepts : String → Bool) (entry : Entry T) (t : Tree T) (p : Path) :
    ((∃ e, (put accepts entry t p).1 = some e) ∧ (put accepts entry t p).2 = t) ∨
      ∃ name parent, p = name :: parent ∧ isDir t parent = true ∧ t.get p = none ∧ accepts name = true ∧
        put accepts entry t p = (none, t.insert p entry) := by
  cases p with
  | nil => exact .inl ⟨⟨_, rfl⟩, rfl⟩
  | cons name parent =>
    simp only [put]
    split_ifs with hparent hfree hname
    · exact .inl ⟨⟨_, rfl⟩, rfl⟩
    · exact .inl ⟨⟨_, rfl⟩, rfl⟩
    · exact .inl ⟨⟨_, rfl⟩, rfl⟩
    · exact .inr ⟨name, parent, rfl, by simpa using hparent, by simpa using hfree, by simpa using hname, rfl⟩

/-- A new entry is put where there is room. -/
theorem put_of_free {name : String} {parent : Path} (hparent : isDir t parent = true)
    (hfree : t.get (name :: parent) = none) (hname : accepts name = true) :
    put accepts entry t (name :: parent) = (none, t.insert (name :: parent) entry) := by
  rw [put, if_neg (by simp [hparent]), if_neg (by simp [hfree]), if_neg (by simp [hname])]

theorem isDir_insert (hfree : t.get p = none) (hq : isDir t q = true) : isDir (t.insert p entry) q = true := by
  cases q with
  | nil => rfl
  | cons name parent =>
    rw [isDir_cons] at hq ⊢
    rw [Table.get_insert_of_ne, hq]
    rintro rfl
    rw [hfree] at hq
    cases hq

theorem WellFormed.insert {name : String} {parent : Path} (h : WellFormed accepts t)
    (hparent : isDir t parent = true) (hfree : t.get (name :: parent) = none) (hname : accepts name = true)
    (entry : Entry T) : WellFormed accepts (t.insert (name :: parent) entry) where
  root := by
    rw [Table.get_insert_of_ne (by simp)]
    exact h.root
  parent n q hq := by
    by_cases heq : n :: q = name :: parent
    · obtain ⟨-, rfl⟩ := List.cons.inj heq
      exact isDir_insert hfree hparent
    · rw [Table.get_insert_of_ne heq] at hq
      exact isDir_insert hfree (h.parent n q hq)
  named n q hq := by
    by_cases heq : n :: q = name :: parent
    · obtain ⟨rfl, -⟩ := List.cons.inj heq
      exact hname
    · rw [Table.get_insert_of_ne heq] at hq
      exact h.named n q hq

theorem WellFormed.put (h : WellFormed accepts t) (entry : Entry T) (p : Path) :
    WellFormed accepts (put accepts entry t p).2 := by
  rcases put_cases accepts entry t p with ⟨-, heq⟩ | ⟨name, parent, rfl, hparent, hfree, hname, heq⟩
  · rw [heq]
    exact h
  · rw [heq]
    exact h.insert hparent hfree hname entry

@[simp] theorem get_unlink_dir (p : Path) (hq : t.get q = some .dir) : (unlink t p).get q = some .dir := by
  simp [unlink, hq, Option.filter]

theorem get_unlink_link {target : T} (p : Path) :
    (unlink t p).get q = some (.link target) ↔ t.get q = some (.link target) ∧ q ≠ p := by
  unfold unlink
  rw [Table.get_filter, Option.filter_eq_some_iff]
  simp

theorem get_of_get_unlink (p : Path) (h : (unlink t p).get q ≠ none) : t.get q ≠ none := by
  intro hnone
  apply h
  simp [unlink, hnone]

theorem WellFormed.unlink (h : WellFormed accepts t) (p : Path) : WellFormed accepts (unlink t p) where
  root := by
    by_contra hne
    exact get_of_get_unlink p hne h.root
  parent name q hq := by
    have hdir := h.parent name q (get_of_get_unlink p hq)
    cases q with
    | nil => rfl
    | cons n r =>
      rw [isDir_cons] at hdir ⊢
      exact get_unlink_dir p hdir
  named name q hq := h.named name q (get_of_get_unlink p hq)

/-! ## Directories made with their parents -/

/-- Directories of a path are added, and nothing else changes. -/
def Grows (t t' : Tree T) (p : Path) : Prop :=
  ∀ q, t'.get q = t.get q ∨ t.get q = none ∧ t'.get q = some .dir ∧ q <:+ p

theorem Grows.refl (t : Tree T) (p : Path) : Grows t t p := fun _ => .inl rfl

theorem Grows.get_of_ne_none (h : Grows t t' p) (hq : t.get q ≠ none) : t'.get q = t.get q :=
  (h q).resolve_right fun hadded => hq hadded.1

/-- Links are neither added nor removed. -/
theorem Grows.link_iff (h : Grows t t' p) {target : T} :
    t'.get q = some (.link target) ↔ t.get q = some (.link target) := by
  rcases h q with hq | ⟨hq, hq', -⟩
  · rw [hq]
  · simp [hq, hq']

theorem Grows.isDir (h : Grows t t' p) (hq : isDir t q = true) : isDir t' q = true := by
  cases q with
  | nil => rfl
  | cons name parent =>
    rw [isDir_cons] at hq ⊢
    rw [h.get_of_ne_none (by simp [hq]), hq]

theorem WellFormed.get_below (h : WellFormed accepts t) {name : String} (hp : isDir t p = false) :
    t.get (name :: p) = none := by
  by_contra hne
  rw [h.parent name p hne] at hp
  cases hp

/-- **`makedirs` adds directories only**, and without an errno the path is one. -/
theorem makedirs_spec (targetExists : T → Bool) (h : WellFormed accepts t) (p : Path) :
    Grows t (makedirs accepts targetExists t p).2 p ∧ WellFormed accepts (makedirs accepts targetExists t p).2 ∧
      ((makedirs accepts targetExists t p).1 = none → isDir (makedirs accepts targetExists t p).2 p = true) := by
  induction p with
  | nil => exact ⟨.refl t [], h, fun _ => rfl⟩
  | cons name parent ih =>
    simp only [makedirs]
    generalize hparents : (if pathExists targetExists t parent = true then (none, t)
      else makedirs accepts targetExists t parent) = parents
    have hgrown : Grows t parents.2 parent ∧ WellFormed accepts parents.2 := by
      rw [← hparents]
      split_ifs
      · exact ⟨.refl t parent, h⟩
      · exact ⟨ih.1, ih.2.1⟩
    have hgrows : Grows t parents.2 (name :: parent) := fun q =>
      (hgrown.1 q).imp_right fun hq => ⟨hq.1, hq.2.1, hq.2.2.trans (List.suffix_cons name parent)⟩
    split_ifs with hgo hexists
    · exact ⟨hgrows, hgrown.2, fun _ => hexists.2⟩
    · unfold mkdir at hexists ⊢
      rcases put_cases accepts .dir parents.2 (name :: parent) with ⟨⟨e, he⟩, heq⟩ | ⟨_, _, -, -, hfree, -, heq⟩
      · rw [heq]
        exact ⟨hgrows, hgrown.2, fun hnone => by rw [he] at hnone; cases hnone⟩
      · refine ⟨?_, hgrown.2.put .dir (name :: parent), fun _ => ?_⟩
        · rw [heq]
          intro q
          by_cases hq : q = name :: parent
          · subst hq
            have hnone : t.get (name :: parent) = none := by
              rcases hgrows (name :: parent) with hsame | hadded
              · rw [← hsame, hfree]
              · exact hadded.1
            exact .inr ⟨hnone, Table.get_insert_self .., List.suffix_refl _⟩
          · simp only [Table.get_insert_of_ne hq]
            exact hgrows q
        · rw [heq, isDir_cons]
          exact Table.get_insert_self ..
    · exact ⟨hgrows, hgrown.2, fun hnone => absurd (.inl hnone) hgo⟩

/-- **Nothing stops `makedirs` on a clear path.** -/
theorem makedirs_of_clear (targetExists : T → Bool) (h : WellFormed accepts t) (hclear : clear accepts t p = true) :
    (makedirs accepts targetExists t p).1 = none := by
  induction p with
  | nil => rfl
  | cons name parent ih =>
    simp only [clear, Bool.and_eq_true] at hclear
    obtain ⟨⟨hname, hlink⟩, hclear⟩ := hclear
    have hparents := makedirs_spec targetExists h parent
    simp only [makedirs]
    by_cases hexists : pathExists targetExists t parent = true
    · -- the parent is a directory, and the path one or missing
      have hdir : isDir t parent = true := by
        cases parent with
        | nil => rfl
        | cons n q =>
          rw [isDir_cons]
          simp only [clear, Bool.and_eq_true] at hclear
          cases hget : t.get (n :: q) with
          | none => simp [pathExists, hget] at hexists
          | some e =>
            cases e with
            | dir => rfl
            | link target => simp [hget] at hclear
      rw [if_pos hexists]
      simp only [true_or, if_true]
      cases hget : t.get (name :: parent) with
      | none =>
        rw [mkdir, put_of_free hdir hget hname]
        simp
      | some e =>
        cases e with
        | dir =>
          have hdir' : isDir t (name :: parent) = true := isDir_cons.2 hget
          by_cases hmade : (mkdir accepts t (name :: parent)).1 = none
          · simp [hmade]
          · rw [if_pos ⟨hmade, hdir'⟩]
        | link target => simp [hget] at hlink
    · rw [if_neg hexists]
      have hnone := ih hclear
      rw [if_pos (.inl hnone)]
      have hdir := hparents.2.2 hnone
      have hmissing : isDir t parent = false := by
        cases parent with
        | nil => exact absurd rfl hexists
        | cons n q =>
          by_contra hd
          rw [Bool.not_eq_false, isDir_cons] at hd
          exact hexists (by simp [pathExists, hd])
      have hfree : (makedirs accepts targetExists t parent).2.get (name :: parent) = none := by
        rcases hparents.1 (name :: parent) with hsame | ⟨-, -, hsuffix⟩
        · rw [hsame, h.get_below hmissing]
        · have hlength := hsuffix.length_le
          rw [List.length_cons] at hlength
          omega
      rw [mkdir, put_of_free hdir hfree hname]
      simp

/-- A directory of a grown tree was on a clear path. -/
theorem clear_of_isDir (h : WellFormed accepts t') (hgrows : Grows t t' q) (hp : isDir t' p = true) :
    clear accepts t p = true := by
  induction p with
  | nil => rfl
  | cons name parent ih =>
    rw [isDir_cons] at hp
    have hne : t'.get (name :: parent) ≠ none := by simp [hp]
    simp only [clear, Bool.and_eq_true]
    refine ⟨⟨h.named name parent hne, ?_⟩, ih (h.parent name parent hne)⟩
    cases hget : t.get (name :: parent) with
    | none => rfl
    | some e =>
      cases e with
      | dir => rfl
      | link target =>
        have hlink := hgrows.link_iff.2 hget
        rw [hp] at hlink
        cases hlink

/-- The directories made for a path leave the path itself alone. -/
theorem get_makedirs_parent (targetExists : T → Bool) (h : WellFormed accepts t) (name : String) (parent : Path) :
    (makedirs accepts targetExists t parent).2.get (name :: parent) = t.get (name :: parent) := by
  refine ((makedirs_spec targetExists h parent).1 (name :: parent)).resolve_right fun hadded => ?_
  have hle := hadded.2.2.length_le
  rw [List.length_cons] at hle
  omega

/-- **A link is made, after its parents, exactly on a clear path that is free.** -/
theorem symlink_iff (targetExists : T → Bool) (h : WellFormed accepts t) (name : String) (parent : Path) (target : T) :
    (symlink accepts (makedirs accepts targetExists t parent).2 (name :: parent) target).1 = none ↔
      (clear accepts t parent = true ∧ accepts name = true) ∧ t.get (name :: parent) = none := by
  obtain ⟨hgrows, hwf, hdir⟩ := makedirs_spec targetExists h parent
  have hget := get_makedirs_parent targetExists h name parent
  constructor
  · intro hnone
    unfold symlink at hnone
    rcases put_cases accepts (.link target) (makedirs accepts targetExists t parent).2 (name :: parent) with
      ⟨⟨e, he⟩, -⟩ | ⟨n, q, heq, hparent, hfree, hname, -⟩
    · rw [he] at hnone
      cases hnone
    · obtain ⟨rfl, rfl⟩ := List.cons.inj heq
      exact ⟨⟨clear_of_isDir hwf hgrows hparent, hname⟩, by rw [← hget, hfree]⟩
  · rintro ⟨⟨hclear, hname⟩, hfree⟩
    have hmade := hdir (makedirs_of_clear targetExists h hclear)
    rw [symlink, put_of_free hmade (by rw [hget, hfree]) hname]

/-! ## Links -/

/-- The same links. -/
def SameLinks (t t' : Tree T) : Prop := ∀ q target, t'.get q = some (.link target) ↔ t.get q = some (.link target)

/-- The same links, and one more. -/
def AddsLink (p : Path) (target : T) (t t' : Tree T) : Prop :=
  ∀ q target', t'.get q = some (.link target') ↔ t.get q = some (.link target') ∨ q = p ∧ target' = target

theorem SameLinks.refl (t : Tree T) : SameLinks t t := fun _ _ => .rfl

theorem Grows.sameLinks (h : Grows t t' p) : SameLinks t t' := fun _ _ => h.link_iff

/-- A link made is one more, and otherwise the links stay. -/
theorem symlink_links (accepts : String → Bool) (t : Tree T) (p : Path) (target : T) :
    (symlink accepts t p target).1 = none ∧ AddsLink p target t (symlink accepts t p target).2 ∨
      (∃ e, (symlink accepts t p target).1 = some e) ∧ (symlink accepts t p target).2 = t := by
  unfold symlink
  rcases put_cases accepts (.link target) t p with hrefused | ⟨name, parent, rfl, -, hfree, -, heq⟩
  · exact .inr hrefused
  · refine .inl ⟨by rw [heq], fun q target' => ?_⟩
    rw [heq]
    by_cases hq : q = name :: parent
    · subst hq
      simp [hfree, eq_comm]
    · simp [Table.get_insert_of_ne hq, hq]

/-- `FileExistsError` is about something at the path. -/
theorem symlink_ne_exists (accepts : String → Bool) {name : String} {parent : Path}
    (hfree : t.get (name :: parent) = none) (target : T) :
    (symlink accepts t (name :: parent) target).1 ≠ some .exists := by
  unfold symlink
  simp only [put]
  split_ifs with hparent hsome hname
  · simp
  · simp [hfree] at hsome
  · simp
  · simp

end

end Totem.Lib.DirectoryTree
