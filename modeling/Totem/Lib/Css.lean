import Totem.Lib.Words
import Mathlib.Algebra.Order.BigOperators.Group.List
import Mathlib.Algebra.Order.Group.Nat
import Mathlib.Data.List.Count
import Mathlib.Data.List.TakeWhile

/-!
# Totem.Lib.Css — declarations and rules of a style sheet

The syntax of style sheets, read one character at a time: comments, strings, escapes and blocks.  The body of a rule
is cut at the semicolons outside of them, and a sheet at the braces.  A declaration list, as a style attribute is one,
has at-rules and `url` tokens too.

* `splitWith_intercalate`: the segments are the text between the separators.
* `parseDeclaration_eq_some`: a declaration is its blanks, its name, a colon and its value.
* `declarations_eq_some`: where the declarations of a list stand in it.
-/

namespace Totem.Lib.Css

def isNewline (c : Char) : Bool := c = '\n' || c = '\r' || c = '\x0c'

def isBlank (c : Char) : Bool := c = ' ' || c = '\t' || isNewline c

theorem isBlank_cases {c : Char} (h : isBlank c = true) : c = ' ' ∨ c = '\t' ∨ c = '\n' ∨ c = '\r' ∨ c = '\x0c' := by
  simpa [isBlank, isNewline, or_assoc] using h

/-! ## What the reader is in -/

inductive Mode where
  | text
  | slash
  | comment
  | star
  | escape
  | string (quote : Char)
  | stringEscape (quote : Char)
  | stringReturn (quote : Char)
  deriving DecidableEq, Repr

/-- `closers` are the brackets that close the blocks it is in; `bad` after a string that a line ends, and after a
bracket that closes nothing. -/
structure Reader where
  mode : Mode := .text
  closers : List Char := []
  bad : Bool := false
  deriving DecidableEq, Repr

/-- A closing bracket. -/
def Reader.close (r : Reader) (c : Char) : Reader :=
  match r.closers with
  | [] => { r with mode := .text, bad := true }
  | d :: closers =>
      if c = d then { r with mode := .text, closers := closers } else { r with mode := .text, bad := true }

/-- A character outside of comments, strings and escapes. -/
def Reader.readText (r : Reader) (c : Char) : Reader :=
  if c = '/' then { r with mode := .slash }
  else if c = '\\' then { r with mode := .escape }
  else if c = '"' ∨ c = '\'' then { r with mode := .string c }
  else if c = '(' then { r with mode := .text, closers := ')' :: r.closers }
  else if c = '[' then { r with mode := .text, closers := ']' :: r.closers }
  else if c = '{' then { r with mode := .text, closers := '}' :: r.closers }
  else if c = ')' ∨ c = ']' ∨ c = '}' then r.close c
  else { r with mode := .text }

/-- A character of a string. -/
def Reader.readString (r : Reader) (quote c : Char) : Reader :=
  if c = quote then { r with mode := .text }
  else if c = '\\' then { r with mode := .stringEscape quote }
  else if isNewline c then { r with mode := .text, bad := true }
  else { r with mode := .string quote }

/-- A carriage return and the line feed after it are one newline, also when it is escaped. -/
def Reader.step (r : Reader) (c : Char) : Reader :=
  match r.mode with
  | .text => r.readText c
  | .slash => if c = '*' then { r with mode := .comment } else r.readText c
  | .comment => if c = '*' then { r with mode := .star } else r
  | .star => if c = '/' then { r with mode := .text } else if c = '*' then r else { r with mode := .comment }
  | .escape => { r with mode := .text }
  | .string quote => r.readString quote c
  | .stringEscape quote => { r with mode := if c = '\r' then .stringReturn quote else .string quote }
  | .stringReturn quote => if c = '\n' then { r with mode := .string quote } else r.readString quote c

def Reader.run (r : Reader) (w : List Char) : Reader := w.foldl Reader.step r

/-- The next character is one of no block, comment, string or escape. -/
def Reader.AtTop (r : Reader) : Prop := r.closers = [] ∧ (r.mode = .text ∨ r.mode = .slash)

instance (r : Reader) : Decidable r.AtTop := inferInstanceAs (Decidable (_ ∧ _))

@[simp] theorem Reader.run_nil (r : Reader) : r.run [] = r := rfl

@[simp] theorem Reader.run_cons (r : Reader) (c : Char) (w : List Char) : r.run (c :: w) = (r.step c).run w := rfl

theorem Reader.run_append (r : Reader) (v w : List Char) : r.run (v ++ w) = (r.run v).run w := List.foldl_append

/-- A character that is no bracket, quote, slash or backslash. -/
def IsNeutral (c : Char) : Prop :=
  c ≠ '/' ∧ c ≠ '\\' ∧ c ≠ '"' ∧ c ≠ '\'' ∧ c ≠ '(' ∧ c ≠ '[' ∧ c ≠ '{' ∧ c ≠ ')' ∧ c ≠ ']' ∧ c ≠ '}'

instance (c : Char) : Decidable (IsNeutral c) := inferInstanceAs (Decidable (_ ∧ _))

theorem Reader.run_neutral {w : List Char} (h : ∀ c ∈ w, IsNeutral c) : Reader.run {} w = {} := by
  induction w with
  | nil => rfl
  | cons c w ih =>
    obtain ⟨hc, hw⟩ := List.forall_mem_cons.1 h
    obtain ⟨h1, h2, h3, h4, h5, h6, h7, h8, h9, h10⟩ := hc
    have hstep : Reader.step {} c = {} := by simp [step, readText, h1, h2, h3, h4, h5, h6, h7, h8, h9, h10]
    rw [run_cons, hstep, ih hw]

theorem Reader.close_mode (r : Reader) (c : Char) : (r.close c).mode = .text := by
  unfold close
  split
  · rfl
  · split <;> rfl

theorem Reader.readText_mode (r : Reader) {c : Char} (hc : c ≠ '/') : (r.readText c).mode ≠ .slash := by
  unfold readText
  rw [if_neg hc]
  split_ifs <;> simp [close_mode]

theorem Reader.readString_mode (r : Reader) (quote c : Char) : (r.readString quote c).mode ≠ .slash := by
  unfold readString
  split_ifs <;> simp

theorem Reader.step_mode {r : Reader} (hr : r.mode ≠ .slash) {c : Char} (hc : c ≠ '/') :
    (r.step c).mode ≠ .slash := by
  unfold step
  split
  case h_1 => exact r.readText_mode hc
  case h_2 hslash => exact absurd hslash hr
  all_goals (try split_ifs) <;> simp_all [readString_mode]

/-- What is read without a slash does not end in one. -/
theorem Reader.run_mode {r : Reader} (hr : r.mode ≠ .slash) {w : List Char} (hw : '/' ∉ w) :
    (r.run w).mode ≠ .slash := by
  induction w generalizing r with
  | nil => exact hr
  | cons c w ih =>
    obtain ⟨hne, hw⟩ := List.ne_and_not_mem_of_not_mem_cons hw
    exact ih (step_mode hr (Ne.symm hne)) hw

/-- Every string, escape and block that begins in the text ends in it, and none ends that does not begin. -/
def Balanced (w : List Char) : Prop := Reader.run {} w = {}

instance (w : List Char) : Decidable (Balanced w) := inferInstanceAs (Decidable (_ = _))

/-! ## Cutting at the top level -/

/-- What stands between the characters that are cut at, after each of which the reader starts anew. -/
def splitWith {R : Type*} (step : R → Char → R) (cuts : R → Char → Bool) (start : R) : R → List Char → List (List Char)
  | _, [] => [[]]
  | r, c :: w =>
      if cuts r c then [] :: splitWith step cuts start start w
      else (splitWith step cuts start (step r c) w).modifyHead (c :: ·)

/-- What stands between the separators at the top level. -/
def splitTop (sep : Char) : Reader → List Char → List (List Char) :=
  splitWith Reader.step (fun r c => decide (c = sep ∧ r.AtTop)) {}

/-- What stands before the first separator at the top level, and after it. -/
def cut (sep : Char) : Reader → List Char → Option (List Char × List Char)
  | _, [] => none
  | r, c :: w =>
      if c = sep ∧ r.AtTop then some ([], w) else (cut sep (r.step c) w).map fun parts => (c :: parts.1, parts.2)

section

variable {sep : Char}

section

variable {R : Type*} (step : R → Char → R) (cuts : R → Char → Bool) (start : R)

theorem splitWith_ne_nil (r : R) (w : List Char) : splitWith step cuts start r w ≠ [] := by
  induction w generalizing r with
  | nil => simp [splitWith]
  | cons c w ih =>
    rw [splitWith]
    split
    · simp
    · simpa [List.modifyHead_eq_nil_iff] using ih _

/-- **The segments, put together again, are the text.** -/
theorem splitWith_intercalate {cuts : R → Char → Bool} (hsep : ∀ r c, cuts r c = true → c = sep) (r : R) (w : List Char) :
    [sep].intercalate (splitWith step cuts start r w) = w := by
  induction w generalizing r with
  | nil => rfl
  | cons c w ih =>
    rw [splitWith]
    split
    case isTrue h =>
      obtain ⟨first, others, hsegments⟩ :=
        List.exists_cons_of_ne_nil (splitWith_ne_nil step cuts start start w)
      have hw := ih start
      rw [hsegments] at hw ⊢
      rw [List.intercalate_cons_cons, hw, hsep r c h]
      rfl
    case isFalse =>
      obtain ⟨first, others, hsegments⟩ :=
        List.exists_cons_of_ne_nil (splitWith_ne_nil step cuts start (step r c) w)
      have hw := ih (step r c)
      rw [hsegments] at hw ⊢
      rw [List.modifyHead_cons, ← hw]
      cases others with
      | nil => simp
      | cons second others => simp [List.intercalate_cons_cons]

end

theorem splitTop_cons (sep : Char) (r : Reader) (c : Char) (w : List Char) : splitTop sep r (c :: w) =
    if c = sep ∧ r.AtTop then [] :: splitTop sep {} w else (splitTop sep (r.step c) w).modifyHead (c :: ·) := by
  simp only [splitTop, splitWith, decide_eq_true_eq]

theorem splitTop_ne_nil (sep : Char) (r : Reader) (w : List Char) : splitTop sep r w ≠ [] :=
  splitWith_ne_nil _ _ _ r w

theorem splitTop_intercalate (r : Reader) (w : List Char) : [sep].intercalate (splitTop sep r w) = w :=
  splitWith_intercalate _ _ (fun _ _ h => (of_decide_eq_true h).1) r w

/-- A separator-free text up to a separator is a segment exactly when the separator is at the top level. -/
theorem splitTop_append {r : Reader} {v : List Char} (hv : sep ∉ v) (w : List Char) (htop : (r.run v).AtTop) :
    splitTop sep r (v ++ sep :: w) = v :: splitTop sep {} w := by
  induction v generalizing r with
  | nil =>
    rw [List.nil_append, splitTop_cons, if_pos ⟨rfl, htop⟩]
  | cons c v ih =>
    obtain ⟨hne, hv⟩ := List.ne_and_not_mem_of_not_mem_cons hv
    rw [List.cons_append, splitTop_cons, if_neg (fun h => hne h.1.symm), ih hv htop, List.modifyHead_cons]

theorem splitTop_of_notMem {r : Reader} {w : List Char} (hw : sep ∉ w) : splitTop sep r w = [w] := by
  induction w generalizing r with
  | nil => rfl
  | cons c w ih =>
    obtain ⟨hne, hw⟩ := List.ne_and_not_mem_of_not_mem_cons hw
    rw [splitTop_cons, if_neg (fun h => hne h.1.symm), ih hw, List.modifyHead_cons]

/-- `x` stands in `w` between two separators, or between one and an end. -/
def Between (sep : Char) (x w : List Char) : Prop :=
  ∃ A B, w = A ++ (x ++ B) ∧ (A = [] ∨ ∃ A', A = A' ++ [sep]) ∧ (B = [] ∨ ∃ B', B = sep :: B')

theorem between_intercalate (sep : Char) {segments : List (List Char)} {x : List Char} (hx : x ∈ segments) :
    Between sep x ([sep].intercalate segments) := by
  induction segments with
  | nil => cases hx
  | cons first others ih =>
    cases others with
    | nil =>
      rw [List.mem_singleton] at hx
      exact ⟨[], [], by simp [hx], Or.inl rfl, Or.inl rfl⟩
    | cons second others =>
      rw [List.intercalate_cons_cons]
      rcases List.mem_cons.1 hx with rfl | hx
      · exact ⟨[], sep :: [sep].intercalate (second :: others), by simp, Or.inl rfl, Or.inr ⟨_, rfl⟩⟩
      · obtain ⟨A, B, hw, hA, hB⟩ := ih hx
        refine ⟨first ++ [sep] ++ A, B, by simp [hw], Or.inr ?_, hB⟩
        rcases hA with rfl | ⟨A', rfl⟩
        · exact ⟨first, by simp⟩
        · exact ⟨first ++ [sep] ++ A', by simp⟩

theorem between_splitTop {r : Reader} {x w : List Char} (hx : x ∈ splitTop sep r w) : Between sep x w := by
  have h := between_intercalate sep hx
  rwa [splitTop_intercalate] at h

/-- A text is cut where one that ends it has its first separator. -/
theorem between_append_takeWhile (sep : Char) (A w : List Char) :
    Between sep (A ++ w.takeWhile fun c => decide (c ≠ sep)) (A ++ w) := by
  refine ⟨[], w.dropWhile fun c => decide (c ≠ sep), ?_, Or.inl rfl, ?_⟩
  · rw [List.nil_append, List.append_assoc, List.takeWhile_append_dropWhile]
  · cases hrest : w.dropWhile fun c => decide (c ≠ sep) with
    | nil => exact Or.inl rfl
    | cons c rest =>
      have hc := List.head?_dropWhile_not (fun c => decide (c ≠ sep)) w
      rw [hrest] at hc
      have hsep : c = sep := by simpa using hc
      exact Or.inr ⟨rest, by rw [hsep]⟩

theorem cut_append {r : Reader} {v : List Char} (hv : sep ∉ v) (w : List Char) (htop : (r.run v).AtTop) :
    cut sep r (v ++ sep :: w) = some (v, w) := by
  induction v generalizing r with
  | nil => rw [List.nil_append, cut, if_pos ⟨rfl, htop⟩]
  | cons c v ih =>
    obtain ⟨hne, hv⟩ := List.ne_and_not_mem_of_not_mem_cons hv
    rw [List.cons_append, cut, if_neg (fun h => hne h.1.symm), ih hv htop, Option.map_some]

theorem cut_concat (r : Reader) {v : List Char} (hv : sep ∉ v) :
    cut sep r (v ++ [sep]) = if (r.run v).AtTop then some (v, []) else none := by
  split
  case isTrue htop => exact cut_append hv [] htop
  case isFalse htop =>
    induction v generalizing r with
    | nil => rw [List.nil_append, cut, if_neg (fun h => htop h.2), cut, Option.map_none]
    | cons c v ih =>
      obtain ⟨hne, hv⟩ := List.ne_and_not_mem_of_not_mem_cons hv
      rw [List.cons_append, cut, if_neg (fun h => hne h.1.symm), ih (r.step c) hv htop, Option.map_none]

/-! ### Pieces put together with separators -/

theorem intercalate_cons_append (p : List Char) (pieces : List (List Char)) (tail : List Char) :
    [sep].intercalate (p :: pieces ++ [tail]) = p ++ sep :: [sep].intercalate (pieces ++ [tail]) := by
  cases pieces with
  | nil => simp [List.intercalate_cons_cons]
  | cons q pieces => simp [List.intercalate_cons_cons]

theorem splitTop_pieces {pieces : List (List Char)} {tail : List Char}
    (hpieces : ∀ p ∈ pieces, sep ∉ p ∧ (Reader.run {} p).AtTop) (htail : sep ∉ tail) :
    splitTop sep {} ([sep].intercalate (pieces ++ [tail])) = pieces ++ [tail] := by
  induction pieces with
  | nil =>
    rw [List.nil_append, List.intercalate_singleton]
    exact splitTop_of_notMem htail
  | cons p pieces ih =>
    obtain ⟨hp, hrest⟩ := List.forall_mem_cons.1 hpieces
    rw [intercalate_cons_append, splitTop_append hp.1 _ hp.2, ih hrest, List.cons_append]

theorem notMem_intercalate {c : Char} (hc : c ≠ sep) {segments : List (List Char)} (h : ∀ x ∈ segments, c ∉ x) :
    c ∉ [sep].intercalate segments := by
  induction segments with
  | nil => simp
  | cons first others ih =>
    obtain ⟨hfirst, hothers⟩ := List.forall_mem_cons.1 h
    cases others with
    | nil => simpa using hfirst
    | cons second others =>
      rw [List.intercalate_cons_cons]
      simp only [List.mem_append, List.mem_singleton, not_or]
      exact ⟨⟨hfirst, hc⟩, ih hothers⟩

/-- Where the reader is not at the top level the separator stays in a segment. -/
theorem exists_sep_mem_splitTop {r : Reader} {v : List Char} (hv : sep ∉ v) (w : List Char)
    (htop : ¬ (r.run v).AtTop) : ∃ x ∈ splitTop sep r (v ++ sep :: w), sep ∈ x := by
  induction v generalizing r with
  | nil =>
    obtain ⟨first, others, hsegments⟩ := List.exists_cons_of_ne_nil (splitTop_ne_nil sep (r.step sep) w)
    rw [List.nil_append, splitTop_cons, if_neg (fun h => htop h.2), hsegments, List.modifyHead_cons]
    exact ⟨sep :: first, List.mem_cons_self, List.mem_cons_self⟩
  | cons c v ih =>
    obtain ⟨hne, hv⟩ := List.ne_and_not_mem_of_not_mem_cons hv
    obtain ⟨x, hx, hsep⟩ := ih (r := r.step c) hv htop
    obtain ⟨first, others, hsegments⟩ :=
      List.exists_cons_of_ne_nil (splitTop_ne_nil sep (r.step c) (v ++ sep :: w))
    rw [hsegments] at hx
    rw [List.cons_append, splitTop_cons, if_neg (fun h => hne h.1.symm), hsegments, List.modifyHead_cons]
    rcases List.mem_cons.1 hx with rfl | hx
    · exact ⟨c :: x, List.mem_cons_self, List.mem_cons_of_mem _ hsep⟩
    · exact ⟨x, List.mem_cons_of_mem _ hx, hsep⟩

theorem atTop_of_splitTop {pieces : List (List Char)} {tail : List Char} (hpieces : ∀ p ∈ pieces, sep ∉ p)
    (hfree : ∀ x ∈ splitTop sep {} ([sep].intercalate (pieces ++ [tail])), sep ∉ x) :
    ∀ p ∈ pieces, (Reader.run {} p).AtTop := by
  induction pieces with
  | nil => exact fun p hp => (List.not_mem_nil hp).elim
  | cons p pieces ih =>
    obtain ⟨hp, hrest⟩ := List.forall_mem_cons.1 hpieces
    rw [intercalate_cons_append] at hfree
    have htop : (Reader.run {} p).AtTop := by
      by_contra hnot
      obtain ⟨x, hx, hsep⟩ := exists_sep_mem_splitTop hp ([sep].intercalate (pieces ++ [tail])) hnot
      exact hfree x hx hsep
    rw [splitTop_append hp _ htop] at hfree
    exact List.forall_mem_cons.2 ⟨htop, ih hrest fun x hx => hfree x (List.mem_cons_of_mem _ hx)⟩

/-- The separators of segments that are joined: one less than the segments, and those in them. -/
theorem count_intercalate (sep : Char) {segments : List (List Char)} (h : segments ≠ []) :
    ([sep].intercalate segments).count sep + 1 = (segments.map (List.count sep)).sum + segments.length := by
  have hone : [sep].countP (· == sep) = 1 := List.count_singleton_self
  have hsum := countP_intercalate (· == sep) sep h
  rw [hone, List.sum_map_add, List.map_const', List.sum_replicate_nat, Nat.mul_one] at hsum
  exact hsum

/-- There are fewer segments than separators and one, where a segment has a separator. -/
theorem length_le_count_of_mem {segments : List (List Char)} {x : List Char} (hx : x ∈ segments) (hsep : sep ∈ x) :
    segments.length ≤ ([sep].intercalate segments).count sep := by
  have hpos : 0 < x.count sep := List.count_pos_iff.2 hsep
  have hle : x.count sep ≤ (segments.map (List.count sep)).sum := List.le_sum_of_mem (List.mem_map_of_mem hx)
  have hcount := count_intercalate sep (List.ne_nil_of_mem hx)
  omega

theorem count_pieces {pieces : List (List Char)} {tail : List Char} (hpieces : ∀ p ∈ pieces, sep ∉ p)
    (htail : sep ∉ tail) : ([sep].intercalate (pieces ++ [tail])).count sep = pieces.length := by
  have hnone : ((pieces ++ [tail]).map (List.count sep)).sum = 0 := by
    refine List.sum_eq_zero fun n hn => ?_
    obtain ⟨x, hx, rfl⟩ := List.mem_map.1 hn
    refine List.count_eq_zero_of_not_mem ?_
    rcases List.mem_append.1 hx with hx | hx
    · exact hpieces x hx
    · rwa [List.mem_singleton.1 hx]
  have hcount := count_intercalate sep (List.append_ne_nil_of_right_ne_nil pieces (List.cons_ne_nil tail []))
  rw [hnone, List.length_append, List.length_singleton] at hcount
  omega

/-- **Where as many segments are read as there are separators, and none of those has one, the reader is at the top
level at every separator.** -/
theorem atTop_of_length {α : Type*} {read : List Char → Option α} {pieces : List (List Char)} {tail : List Char}
    (hpieces : ∀ p ∈ pieces, sep ∉ p) (htail : sep ∉ tail)
    (hlength : ((splitTop sep {} ([sep].intercalate (pieces ++ [tail]))).filterMap read).length = pieces.length)
    (hread : ∀ x ∈ splitTop sep {} ([sep].intercalate (pieces ++ [tail])), (read x).isSome → sep ∉ x) :
    ∀ p ∈ pieces, (Reader.run {} p).AtTop := by
  have hfree : ∀ x ∈ splitTop sep {} ([sep].intercalate (pieces ++ [tail])), sep ∉ x := by
    intro x hx hsep
    have hcount := length_le_count_of_mem hx hsep
    rw [splitTop_intercalate, count_pieces hpieces htail] at hcount
    -- the segment with the separator is not read, so fewer are read than there are
    have hlt : ((splitTop sep {} ([sep].intercalate (pieces ++ [tail]))).filterMap read).length <
        (splitTop sep {} ([sep].intercalate (pieces ++ [tail]))).length := by
      refine Nat.lt_of_le_of_ne (List.length_filterMap_le _ _) fun heq => ?_
      exact hread x hx (List.filterMap_length_eq_length.1 heq x hx) hsep
    omega
  exact atTop_of_splitTop hpieces hfree

end

/-! ## Blanks and names -/

inductive BlankMode where
  | blank
  | opened
  | comment
  | star

/-- The spaces and comments at the start. -/
def spanBlank : BlankMode → List Char → List Char × List Char
  | _, [] => ([], [])
  | .blank, c :: w =>
      if isBlank c then (c :: (spanBlank .blank w).1, (spanBlank .blank w).2)
      else if c = '/' ∧ w.head? = some '*' then (c :: (spanBlank .opened w).1, (spanBlank .opened w).2)
      else ([], c :: w)
  | .opened, c :: w => (c :: (spanBlank .comment w).1, (spanBlank .comment w).2)
  | .comment, c :: w =>
      let next := spanBlank (if c = '*' then .star else .comment) w
      (c :: next.1, next.2)
  | .star, c :: w =>
      let next := spanBlank (if c = '/' then .blank else if c = '*' then .star else .comment) w
      (c :: next.1, next.2)

theorem spanBlank_append (m : BlankMode) (w : List Char) : (spanBlank m w).1 ++ (spanBlank m w).2 = w := by
  induction w generalizing m with
  | nil => cases m <;> rfl
  | cons c w ih =>
    cases m with
    | blank =>
      rw [spanBlank]
      split
      · exact congrArg (c :: ·) (ih .blank)
      · split
        · exact congrArg (c :: ·) (ih .opened)
        · rfl
    | opened => exact congrArg (c :: ·) (ih .comment)
    | comment => exact congrArg (c :: ·) (ih _)
    | star => exact congrArg (c :: ·) (ih _)

theorem spanBlank_of_no_comment {w : List Char} (h : '/' ∉ (spanBlank .blank w).1) :
    spanBlank .blank w = (w.takeWhile isBlank, w.dropWhile isBlank) := by
  induction w with
  | nil => rfl
  | cons c w ih =>
    rw [spanBlank] at h ⊢
    by_cases hblank : isBlank c = true
    · rw [if_pos hblank] at h ⊢
      rw [ih (List.not_mem_of_not_mem_cons h), List.takeWhile_cons_of_pos hblank, List.dropWhile_cons_of_pos hblank]
    · rw [if_neg hblank] at h ⊢
      rw [List.takeWhile_cons_of_neg hblank, List.dropWhile_cons_of_neg hblank]
      by_cases hcomment : c = '/' ∧ w.head? = some '*'
      · rw [if_pos hcomment] at h
        exact absurd (by rw [hcomment.1]; exact List.mem_cons_self) h
      · rw [if_neg hcomment]

theorem spanBlank_of_blank {lead w : List Char} (hlead : ∀ c ∈ lead, isBlank c = true)
    (hw : ∀ c ∈ w.head?, isBlank c = false ∧ c ≠ '/') : spanBlank .blank (lead ++ w) = (lead, w) := by
  induction lead with
  | nil =>
    cases w with
    | nil => rfl
    | cons c w =>
      obtain ⟨hblank, hslash⟩ := hw c rfl
      rw [List.nil_append, spanBlank, if_neg (by simp [hblank]), if_neg (fun h => hslash h.1)]
  | cons c lead ih =>
    obtain ⟨hc, hlead⟩ := List.forall_mem_cons.1 hlead
    rw [List.cons_append, spanBlank, if_pos hc, ih hlead]

/-- Letters, the underscore, what is not ASCII, and the null that is read as U+FFFD. -/
def isNameStart (c : Char) : Bool := c.isAlpha || c = '_' || decide (128 ≤ c.toNat) || c = '\x00'

def isNameChar (c : Char) : Bool := isNameStart c || c.isDigit || c = '-'

def hexDigit (c : Char) : Option ℕ :=
  if c.isDigit then some (c.toNat - 48)
  else if 'a' ≤ c ∧ c ≤ 'f' then some (c.toNat - 87)
  else if 'A' ≤ c ∧ c ≤ 'F' then some (c.toNat - 55)
  else none

/-- U+FFFD where there is no such character. -/
def codePoint (v : ℕ) : Char := if v = 0 ∨ ¬ v.isValidChar then '\uFFFD' else Char.ofNat v

inductive NameMode where
  | plain
  | escape
  | hex (digits value : ℕ)
  | carriageReturn

/-- A character of a name, outside of escapes; `none` where the name ends before it. -/
def plainStep (c : Char) (w : List Char) : Option (NameMode × List Char) :=
  if c = '\\' then if w.head?.any isNewline then none else some (.escape, [])
  else if isNameChar c then some (.plain, [c])
  else none

/-- What is read next, and the characters that are known by then; `w` is what comes after `c`. -/
def NameMode.step : NameMode → Char → List Char → Option (NameMode × List Char)
  | .plain, c, w => plainStep c w
  | .escape, c, _ =>
      match hexDigit c with
      | some d => some (.hex 1 d, [])
      | none => some (.plain, [c])
  | .hex digits value, c, w =>
      match (if digits < 6 then hexDigit c else none) with
      | some d => some (.hex (digits + 1) (16 * value + d), [])
      | none =>
          if c = '\r' then some (.carriageReturn, [codePoint value])
          else if isBlank c then some (.plain, [codePoint value])
          else (plainStep c w).map fun next => (next.1, codePoint value :: next.2)
  | .carriageReturn, c, w => if c = '\n' then some (.plain, []) else plainStep c w

/-- What an escape that ends here stands for. -/
def NameMode.flush : NameMode → List Char
  | .hex _ value => [codePoint value]
  | _ => []

/-- A name as it is written, what it says, and what comes after it. -/
structure ScannedName where
  raw : List Char
  name : List Char
  rest : List Char

def scanName : NameMode → List Char → ScannedName
  | m, [] => ⟨[], m.flush, []⟩
  | m, c :: w =>
      match m.step c w with
      | none => ⟨[], m.flush, c :: w⟩
      | some (next, chars) => ⟨c :: (scanName next w).raw, chars ++ (scanName next w).name, (scanName next w).rest⟩

theorem scanName_append (m : NameMode) (w : List Char) : (scanName m w).raw ++ (scanName m w).rest = w := by
  induction w generalizing m with
  | nil => rfl
  | cons c w ih =>
    rw [scanName]
    split
    · rfl
    · exact congrArg (c :: ·) (ih _)

theorem scanName_of_no_escape {w : List Char} (h : '\\' ∉ (scanName .plain w).raw) :
    scanName .plain w = ⟨w.takeWhile isNameChar, w.takeWhile isNameChar, w.dropWhile isNameChar⟩ := by
  induction w with
  | nil => rfl
  | cons c w ih =>
    rw [scanName, NameMode.step, plainStep] at h ⊢
    by_cases hescape : c = '\\'
    · subst hescape
      rw [if_pos rfl] at h ⊢
      by_cases hnewline : w.head?.any isNewline = true
      · rw [if_pos hnewline]
        rfl
      · rw [if_neg hnewline] at h
        exact absurd List.mem_cons_self h
    · rw [if_neg hescape] at h ⊢
      by_cases hname : isNameChar c = true
      · rw [if_pos hname] at h ⊢
        simp only [ih (List.not_mem_of_not_mem_cons h), List.takeWhile_cons_of_pos hname,
          List.dropWhile_cons_of_pos hname, List.singleton_append]
      · rw [if_neg hname, List.takeWhile_cons_of_neg hname, List.dropWhile_cons_of_neg hname]
        rfl

theorem ne_of_isNameChar {c : Char} (h : isNameChar c = true) : c ≠ '\\' := by
  rintro rfl
  revert h
  decide

theorem scanName_of_nameChars {name w : List Char} (hname : ∀ c ∈ name, isNameChar c = true)
    (hw : ∀ c ∈ w.head?, isNameChar c = false ∧ c ≠ '\\') : scanName .plain (name ++ w) = ⟨name, name, w⟩ := by
  induction name with
  | nil =>
    cases w with
    | nil => rfl
    | cons c w =>
      obtain ⟨hc, hescape⟩ := hw c rfl
      rw [List.nil_append, scanName, NameMode.step, plainStep, if_neg hescape, if_neg (by simp [hc])]
      rfl
  | cons c name ih =>
    obtain ⟨hc, hname⟩ := List.forall_mem_cons.1 hname
    rw [List.cons_append, scanName, NameMode.step, plainStep, if_neg (ne_of_isNameChar hc), if_pos hc]
    simp only [ih hname, List.singleton_append]

/-! ## Declarations -/

/-- `lead` is what stands before the name, `value` what stands after the colon. -/
structure Declaration where
  lead : List Char
  raw : List Char
  name : List Char
  gap : List Char
  value : List Char
  deriving DecidableEq, Repr

/-- Whether what is scanned as a name is one: a digit or a single hyphen does not start it. -/
def startsName : List Char → Bool
  | '-' :: c :: _ => c = '-' || c = '\\' || isNameStart c
  | c :: _ => c = '\\' || isNameStart c
  | [] => false

def parseDeclaration (segment : List Char) : Option Declaration :=
  let lead := spanBlank .blank segment
  let name := scanName .plain lead.2
  if startsName name.raw then
    let gap := spanBlank .blank name.rest
    match gap.2 with
    | ':' :: value => some ⟨lead.1, name.raw, name.name, gap.1, value⟩
    | _ => none
  else none

/-- The value has no unmatched bracket and no string that a line ends. -/
def Declaration.WellFormed (d : Declaration) : Prop := (Reader.run {} d.value).bad = false

instance (d : Declaration) : Decidable d.WellFormed := inferInstanceAs (Decidable (_ = _))

/-- The name of a property does not tell upper case from lower case. -/
def Declaration.property (d : Declaration) : List Char := d.name.map Char.toLower

theorem parseDeclaration_eq_some {segment : List Char} {d : Declaration} (h : parseDeclaration segment = some d) :
    d.lead = (spanBlank .blank segment).1 ∧
    d.raw = (scanName .plain (spanBlank .blank segment).2).raw ∧
    d.name = (scanName .plain (spanBlank .blank segment).2).name ∧
    d.gap = (spanBlank .blank (scanName .plain (spanBlank .blank segment).2).rest).1 ∧
    (spanBlank .blank (scanName .plain (spanBlank .blank segment).2).rest).2 = ':' :: d.value ∧
    startsName d.raw = true := by
  unfold parseDeclaration at h
  simp only at h
  split at h
  case isFalse => cases h
  case isTrue hstarts =>
    split at h
    case h_2 => cases h
    case h_1 value hcolon =>
      cases h
      exact ⟨rfl, rfl, rfl, rfl, hcolon, hstarts⟩

theorem segment_of_parseDeclaration {segment : List Char} {d : Declaration} (h : parseDeclaration segment = some d) :
    segment = d.lead ++ (d.raw ++ (d.gap ++ ':' :: d.value)) := by
  obtain ⟨hlead, hraw, -, hgap, hvalue, -⟩ := parseDeclaration_eq_some h
  rw [hlead, hraw, hgap, ← hvalue, spanBlank_append, scanName_append, spanBlank_append]

theorem mem_of_mem_segment {w x : List Char} (hx : x ∈ splitTop ';' {} w) {c : Char} (hc : c ∈ x) : c ∈ w := by
  obtain ⟨A, B, rfl, -, -⟩ := between_splitTop hx
  exact List.mem_append_right _ (List.mem_append_left _ hc)

theorem parseDeclaration_of_name {lead name : List Char} (hlead : ∀ c ∈ lead, isBlank c = true)
    (hname : ∀ c ∈ name, isNameChar c = true) (hstarts : startsName name = true) (value : List Char) :
    parseDeclaration (lead ++ (name ++ ':' :: value)) = some ⟨lead, name, name, [], value⟩ := by
  have hhead : ∀ c ∈ (name ++ ':' :: value).head?, isBlank c = false ∧ c ≠ '/' := by
    cases name with
    | nil => cases hstarts
    | cons c name =>
      intro d hd
      obtain rfl : c = d := by simpa using hd
      have hc := hname c List.mem_cons_self
      refine ⟨?_, ?_⟩
      · by_contra hblank
        rw [Bool.not_eq_false] at hblank
        rcases isBlank_cases hblank with rfl | rfl | rfl | rfl | rfl <;> exact absurd hc (by decide)
      · rintro rfl
        exact absurd hc (by decide)
  unfold parseDeclaration
  simp only [spanBlank_of_blank hlead hhead]
  rw [scanName_of_nameChars hname (w := ':' :: value) (by simp [isNameChar, isNameStart])]
  simp only [hstarts, if_true]
  rw [show spanBlank .blank (':' :: value) = ([], ':' :: value) from
    @spanBlank_of_blank [] _ (by simp) (by simp [isBlank, isNewline])]
  rfl

/-- A character that stands in a declaration without comments and escapes stands in its value, if it is in no name and
no blank and not the colon. -/
theorem mem_value_of_mem {segment : List Char} {d : Declaration} (h : parseDeclaration segment = some d)
    (hslash : '/' ∉ segment) (hescape : '\\' ∉ segment) {c : Char} (hc : c ∈ segment) (hblank : isBlank c = false)
    (hname : isNameChar c = false) (hcolon : c ≠ ':') : c ∈ d.value := by
  obtain ⟨hlead, hraw, -, hgap, -⟩ := parseDeclaration_eq_some h
  have hsegment := segment_of_parseDeclaration h
  rw [hsegment] at hslash hescape hc
  simp only [List.mem_append, List.mem_cons, not_or] at hslash hescape hc
  rcases hc with hc | hc | hc | hc | hc
  · rw [hlead] at hslash hc
    rw [spanBlank_of_no_comment hslash.1] at hc
    exact absurd (List.mem_takeWhile_imp hc) (by simp [hblank])
  · rw [hraw] at hescape hc
    rw [scanName_of_no_escape hescape.2.1] at hc
    exact absurd (List.mem_takeWhile_imp hc) (by simp [hname])
  · rw [hgap] at hslash hc
    rw [spanBlank_of_no_comment hslash.2.2.1] at hc
    exact absurd (List.mem_takeWhile_imp hc) (by simp [hblank])
  · exact absurd hc hcolon
  · exact hc

/-! ## Declaration lists -/

/-- A `url` token is read to its closing bracket.  Where a quote is the first that stands in the brackets, it is a
function of a string. -/
inductive UrlMode where
  | outside
  | opened
  | inside
  | escape
  deriving DecidableEq, Repr

/-- `word` is what is read of a name, with the `#`, the `@` or the `<!--` directly before it. -/
structure ListReader where
  reader : Reader := {}
  word : List Char := []
  url : UrlMode := .outside
  deriving DecidableEq, Repr

def bareName : List Char → List Char
  | '#' :: name => name
  | '@' :: name => name
  | '<' :: '!' :: '-' :: '-' :: name => name
  | '<' :: '!' :: name => name
  | '<' :: name => name
  | name => name

/-- The word when `c` is read. -/
def nextWord (mode : Mode) (word : List Char) (c : Char) : List Char :=
  match mode with
  | .text | .slash | .escape =>
      if (scanName .plain (bareName word ++ [c])).rest = [] then word ++ [c]
      else if c = '#' ∨ c = '@' ∨ c = '<' then [c]
      else if c = '!' ∧ word = ['<'] then word ++ [c]
      else []
  | _ => []

/-- A bracket after the word opens a `url` token: after a `#` or an `@` the word is no name of a function. -/
def SaysUrl (word : List Char) : Prop :=
  word.head? ≠ some '#' ∧ word.head? ≠ some '@' ∧
    (scanName .plain (bareName word)).name.map Char.toLower = ['u', 'r', 'l']

instance (word : List Char) : Decidable (SaysUrl word) := inferInstanceAs (Decidable (_ ∧ _))

def ListReader.step (r : ListReader) (c : Char) : ListReader :=
  match r.url with
  | .outside =>
      if c = '(' ∧ r.reader.mode = .text ∧ SaysUrl r.word then { r with word := [], url := .opened }
      else { r with reader := r.reader.step c, word := nextWord r.reader.mode r.word c }
  | .opened =>
      if isBlank c then r
      else if c = '"' ∨ c = '\'' then
        { r with reader := ⟨.string c, ')' :: r.reader.closers, r.reader.bad⟩, url := .outside }
      else if c = ')' then { r with url := .outside }
      else if c = '\\' then { r with url := .escape }
      else { r with url := .inside }
  | .inside => if c = ')' then { r with url := .outside } else if c = '\\' then { r with url := .escape } else r
  | .escape => { r with url := .inside }

/-- The next character is one of no comment, string, escape or `url` token. -/
def ListReader.InText (r : ListReader) : Prop :=
  r.url = .outside ∧ (r.reader.mode = .text ∨ r.reader.mode = .slash)

instance (r : ListReader) : Decidable r.InText := inferInstanceAs (Decidable (_ ∧ _))

/-- What stands between the semicolons of a list. -/
def splitList (w : List Char) : List (List Char) :=
  splitWith ListReader.step (fun r c => decide (c = ';' ∧ r.reader.closers = [] ∧ r.InText)) {} {} w

/-- What is read up to the end of the first block, and after it. -/
def spanBlock : ListReader → List Char → Option (List Char × List Char)
  | _, [] => none
  | r, c :: w =>
      if c = '}' ∧ r.reader.closers = ['}'] ∧ r.InText then some ([c], w)
      else (spanBlock (r.step c) w).map fun parts => (c :: parts.1, parts.2)

/-- An at-rule with a block. -/
def spanAtRule : List Char → Option (List Char × List Char)
  | '@' :: w => if startsName (scanName .plain w).raw then spanBlock {} ('@' :: w) else none
  | _ => none

/-- The spaces, comments and at-rules with a block at the start, at most `n` of these. -/
def spanLead : ℕ → List Char → List Char × List Char
  | 0, w => ([], w)
  | n + 1, w =>
      let blank := spanBlank .blank w
      match spanAtRule blank.2 with
      | some (rule, rest) => (blank.1 ++ (rule ++ (spanLead n rest).1), (spanLead n rest).2)
      | none => blank

/-- The declaration of a segment, where it has one: without a block an at-rule ends with the segment. -/
def parseListed (segment : List Char) : Option Declaration :=
  let lead := spanLead segment.length segment
  (parseDeclaration lead.2).map fun d => { d with lead := lead.1 ++ d.lead }

/-- The declarations of a list; a segment that has none is skipped. -/
def declarations (w : List Char) : List Declaration := (splitList w).filterMap parseListed

theorem between_splitList {x w : List Char} (hx : x ∈ splitList w) : Between ';' x w := by
  have h := between_intercalate ';' hx
  rwa [splitList, splitWith_intercalate _ _ fun _ _ h => (of_decide_eq_true h).1] at h

theorem spanBlock_append {r : ListReader} {w rule rest : List Char} (h : spanBlock r w = some (rule, rest)) :
    rule ++ rest = w := by
  induction w generalizing r rule with
  | nil => cases h
  | cons c w ih =>
    rw [spanBlock] at h
    split at h
    case isTrue =>
      cases h
      rfl
    case isFalse =>
      obtain ⟨⟨rule, rest⟩, hrule, heq⟩ := Option.map_eq_some_iff.1 h
      cases heq
      exact congrArg (c :: ·) (ih hrule)

/-- An at-rule begins with an `@`. -/
theorem spanAtRule_eq_some {w rule rest : List Char} (h : spanAtRule w = some (rule, rest)) :
    rule ++ rest = w ∧ '@' ∈ w := by
  unfold spanAtRule at h
  split at h
  case h_1 w =>
    split at h
    case isTrue => exact ⟨spanBlock_append h, List.mem_cons_self⟩
    case isFalse => cases h
  case h_2 => cases h

theorem spanLead_append (n : ℕ) (w : List Char) : (spanLead n w).1 ++ (spanLead n w).2 = w := by
  induction n generalizing w with
  | zero => rfl
  | succ n ih =>
    have hblank := spanBlank_append .blank w
    simp only [spanLead]
    split
    case h_1 rule rest hrule =>
      rw [← (spanAtRule_eq_some hrule).1] at hblank
      rw [List.append_assoc, List.append_assoc, ih, hblank]
    case h_2 => exact hblank

/-- Without comments and at-rules only blanks are skipped. -/
theorem spanLead_blank {w : List Char} (hslash : '/' ∉ w) (hat : '@' ∉ w) (n : ℕ) :
    ∀ c ∈ (spanLead n w).1, isBlank c = true := by
  cases n with
  | zero => exact fun c hc => (List.not_mem_nil hc).elim
  | succ n =>
    have hsub := spanBlank_append .blank w
    have hnone : spanAtRule (spanBlank .blank w).2 = none := by
      refine Option.eq_none_iff_forall_ne_some.2 fun parts hparts => hat ?_
      rw [← hsub]
      exact List.mem_append_right _ (spanAtRule_eq_some hparts).2
    have hcomment : '/' ∉ (spanBlank .blank w).1 := fun hmem => hslash (by
      rw [← hsub]
      exact List.mem_append_left _ hmem)
    simp only [spanLead, hnone]
    rw [spanBlank_of_no_comment hcomment]
    exact fun c hc => List.mem_takeWhile_imp hc

/-- **A declaration of a list stands between two semicolons, with what is skipped before it.** -/
theorem declarations_eq_some {w : List Char} {d : Declaration} (hd : d ∈ declarations w) :
    ∃ segment named, Between ';' segment w ∧ segment = d.lead ++ (d.raw ++ (d.gap ++ ':' :: d.value)) ∧
      d.raw = (scanName .plain named).raw ∧ d.name = (scanName .plain named).name ∧
      d.gap = (spanBlank .blank (scanName .plain named).rest).1 ∧ startsName d.raw = true := by
  obtain ⟨segment, hsegment, hparse⟩ := List.mem_filterMap.1 hd
  obtain ⟨d', hd', rfl⟩ := Option.map_eq_some_iff.1 hparse
  obtain ⟨-, hraw, hname, hgap, -, hstarts⟩ := parseDeclaration_eq_some hd'
  refine ⟨segment, _, between_splitList hsegment, ?_, hraw, hname, hgap, hstarts⟩
  rw [List.append_assoc, ← segment_of_parseDeclaration hd', spanLead_append]

theorem lead_blank_of_declarations {w : List Char} {d : Declaration} (hd : d ∈ declarations w) (hslash : '/' ∉ w)
    (hat : '@' ∉ w) : ∀ c ∈ d.lead, isBlank c = true := by
  obtain ⟨segment, hsegment, hparse⟩ := List.mem_filterMap.1 hd
  obtain ⟨d', hd', rfl⟩ := Option.map_eq_some_iff.1 hparse
  obtain ⟨A, B, rfl, -, -⟩ := between_splitList hsegment
  have hnot (c : Char) (hc : c ∉ A ++ (segment ++ B)) : c ∉ segment := fun hmem =>
    hc (List.mem_append_right _ (List.mem_append_left _ hmem))
  have hrest := spanLead_append segment.length segment
  intro c hc
  rcases List.mem_append.1 hc with hc | hc
  · exact spanLead_blank (hnot _ hslash) (hnot _ hat) _ c hc
  · obtain ⟨hlead, -⟩ := parseDeclaration_eq_some hd'
    rw [hlead] at hc
    have hcomment : '/' ∉ (spanBlank .blank (spanLead segment.length segment).2).1 := fun hmem => by
      refine hnot _ hslash ?_
      rw [← hrest, ← spanBlank_append .blank (spanLead segment.length segment).2]
      exact List.mem_append_right _ (List.mem_append_left _ hmem)
    rw [spanBlank_of_no_comment hcomment] at hc
    exact List.mem_takeWhile_imp hc

theorem mem_of_declarations {w : List Char} {d : Declaration} (hd : d ∈ declarations w) :
    d.lead ⊆ w ∧ d.raw ⊆ w ∧ d.gap ⊆ w ∧ d.value ⊆ w := by
  obtain ⟨segment, -, ⟨A, B, rfl, -, -⟩, hsegment, -⟩ := declarations_eq_some hd
  rw [hsegment]
  refine ⟨fun c hc => ?_, fun c hc => ?_, fun c hc => ?_, fun c hc => ?_⟩ <;> simp [hc]

/-! ## Rules -/

def trim (w : List Char) : List Char := ((w.dropWhile isBlank).reverse.dropWhile isBlank).reverse

/-- A selector and what is declared under it: the names, each with its value. -/
structure Rule where
  selector : List Char
  declared : List (List Char × List Char)
  deriving DecidableEq, Repr

/-- A declaration with a value that is none is dropped. -/
def readDeclaration (segment : List Char) : Option (List Char × List Char) :=
  (parseDeclaration segment).bind fun d => if d.WellFormed then some (d.name, trim d.value) else none

/-- The rules of a sheet, at most `n`; a block that is not closed ends with the sheet. -/
def parseRules : ℕ → List Char → List Rule
  | 0, _ => []
  | n + 1, w =>
      match cut '{' {} w with
      | none => []
      | some (selector, rest) =>
          match cut '}' {} rest with
          | none => [⟨trim selector, (splitTop ';' {} rest).filterMap readDeclaration⟩]
          | some (body, rest) => ⟨trim selector, (splitTop ';' {} body).filterMap readDeclaration⟩ :: parseRules n rest

def parseSheet (w : List Char) : List Rule := parseRules w.length w

/-- The values a sheet declares under a name. -/
def declaredValues (sheet : List Rule) (name : List Char) : List (List Char) :=
  sheet.flatMap fun rule => (rule.declared.filter fun entry => decide (entry.1 = name)).map Prod.snd

theorem mem_of_mem_trim {c : Char} {w : List Char} (h : c ∈ trim w) : c ∈ w := by
  rw [trim, List.mem_reverse] at h
  exact List.dropWhile_subset _ (List.mem_reverse.1 (List.dropWhile_subset _ h))

theorem mem_trim {c : Char} {w : List Char} (h : c ∈ w) (hblank : isBlank c = false) : c ∈ trim w := by
  have hdrop : ∀ v : List Char, c ∈ v → c ∈ v.dropWhile isBlank := by
    intro v hv
    rw [← List.takeWhile_append_dropWhile (p := isBlank) (l := v), List.mem_append] at hv
    rcases hv with hv | hv
    · exact absurd (List.mem_takeWhile_imp hv) (by simp [hblank])
    · exact hv
  exact List.mem_reverse.2 (hdrop _ (List.mem_reverse.2 (hdrop w h)))

theorem readDeclaration_eq_some {segment : List Char} {entry : List Char × List Char}
    (h : readDeclaration segment = some entry) :
    ∃ d, parseDeclaration segment = some d ∧ d.WellFormed ∧ entry = (d.name, trim d.value) := by
  obtain ⟨d, hparse, hd⟩ := Option.bind_eq_some_iff.1 h
  split_ifs at hd with hwell
  exact ⟨d, hparse, hwell, (Option.some.inj hd).symm⟩

theorem parseRules_nil (n : ℕ) : parseRules n [] = [] := by
  cases n <;> rfl

end Totem.Lib.Css
