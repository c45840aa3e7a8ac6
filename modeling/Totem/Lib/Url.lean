import Mathlib.Data.List.DropRight
import Mathlib.Data.List.TakeWhile
import Mathlib.Tactic.SplitIfs
import Mathlib.Tactic.Tauto

/-!
# Totem.Lib.Url — the parts of a URL

Python's `urlsplit` and `urlunsplit`.  The checks of `urlsplit` on the host (brackets, characters beyond ASCII) are left
out: the host of a request has been checked before.

* `urlsplit_urlunsplit`: an absolute URL is read back from its parts.
* `isAbsolute_urlsplit`: what has a scheme of the web and a host is absolute.
* `urlsplit_path`: the path and the query of a URL that has no host.
-/

namespace Totem.Lib.Url

structure SplitResult where
  scheme : List Char
  netloc : List Char
  path : List Char
  query : List Char
  fragment : List Char
  deriving DecidableEq, Repr

/-! ## Splitting -/

/-- `s.partition(sep)`, without the separator. -/
def partition (sep : Char) (s : List Char) : List Char × List Char :=
  (s.takeWhile fun c => decide (c ≠ sep), (s.dropWhile fun c => decide (c ≠ sep)).drop 1)

def isSchemeChar (c : Char) : Bool := c.isAlphanum || ['+', '-', '.'].contains c

/-- The scheme in front of the first colon, if it is one, and what comes after. -/
def splitScheme (url : List Char) : List Char × List Char :=
  if ':' ∈ url ∧ url.head?.any Char.isAlpha ∧ (partition ':' url).1.all isSchemeChar then
    ((partition ':' url).1.map Char.toLower, (partition ':' url).2)
  else ([], url)

def isNetlocChar (c : Char) : Bool := !(['/', '?', '#'].contains c)

def splitNetloc : List Char → List Char × List Char
  | '/' :: '/' :: url => (url.takeWhile isNetlocChar, url.dropWhile isNetlocChar)
  | url => ([], url)

/-- Tabs and line breaks, which are removed. -/
def isUnsafe (c : Char) : Bool := ['\t', '\r', '\n'].contains c

def isControlOrSpace (c : Char) : Bool := decide (c.toNat ≤ 0x20)

def urlsplit (url : List Char) : SplitResult :=
  let schemed := splitScheme ((url.dropWhile isControlOrSpace).filter fun c => !isUnsafe c)
  let hosted := splitNetloc schemed.2
  let fragmented := partition '#' hosted.2
  let queried := partition '?' fragmented.1
  ⟨schemed.1, hosted.1, queried.1, queried.2, fragmented.2⟩

/-- `_splitparams`: what is in front of the parameters of the last segment. -/
def withoutParams (path : List Char) : List Char :=
  if ';' ∈ path then
    path.rdropWhile (fun c => decide (c ≠ '/')) ++ (partition ';' (path.rtakeWhile fun c => decide (c ≠ '/'))).1
  else path

/-- `urlparse(url).path`. -/
def urlparsePath (url : List Char) : List Char := withoutParams (urlsplit url).path

/-! ## Joining -/

/-- Schemes of URLs with a host. -/
def usesNetloc : List String := ["", "ftp", "http", "gopher", "nntp", "telnet", "imap", "wais", "file", "mms", "https",
  "shttp", "snews", "prospero", "rtsp", "rtsps", "rtspu", "sftp", "svn", "svn+ssh", "nfs", "git", "git+ssh", "ws",
  "wss", "itms-services"]

/-- The host and the path. -/
def SplitResult.location (s : SplitResult) : List Char :=
  if s.netloc ≠ [] then
    '/' :: '/' :: s.netloc ++ (if s.path ≠ [] ∧ s.path.head? ≠ some '/' then '/' :: s.path else s.path)
  else if ['/', '/'].isPrefixOf s.path then '/' :: '/' :: s.path
  else if s.scheme ≠ [] ∧ String.ofList s.scheme ∈ usesNetloc ∧ (s.path = [] ∨ s.path.head? = some '/') then
    '/' :: '/' :: s.path
  else s.path

/-- A part after its separator, if there is one. -/
def optionalPart (sep : Char) (s : List Char) : List Char := if s ≠ [] then sep :: s else []

def urlunsplit (s : SplitResult) : List Char :=
  (if s.scheme ≠ [] then s.scheme ++ ':' :: s.location else s.location) ++ optionalPart '?' s.query ++
    optionalPart '#' s.fragment

/-! ## Absolute URLs -/

/-- The parts of an absolute URL of the web. -/
structure SplitResult.IsAbsolute (s : SplitResult) : Prop where
  scheme : s.scheme = ['h', 't', 't', 'p'] ∨ s.scheme = ['h', 't', 't', 'p', 's']
  netloc_ne : s.netloc ≠ []
  netloc : ∀ c ∈ s.netloc, isNetlocChar c = true
  path : s.path = [] ∨ s.path.head? = some '/'
  path_chars : '?' ∉ s.path ∧ '#' ∉ s.path
  query : '#' ∉ s.query
  safe : ∀ c ∈ s.netloc ++ s.path ++ s.query ++ s.fragment, isUnsafe c = false

theorem partition_of_notMem {sep : Char} {s : List Char} (h : sep ∉ s) : partition sep s = (s, []) := by
  have hall : ∀ c ∈ s, decide (c ≠ sep) = true := fun c hc => decide_eq_true fun heq => h (heq ▸ hc)
  rw [partition, List.takeWhile_eq_self_iff.2 hall, List.dropWhile_eq_nil_iff.2 hall]
  rfl

theorem partition_append {sep : Char} {s : List Char} (h : sep ∉ s) (rest : List Char) :
    partition sep (s ++ sep :: rest) = (s, rest) := by
  have hall : ∀ c ∈ s, decide (c ≠ sep) = true := fun c hc => decide_eq_true fun heq => h (heq ▸ hc)
  rw [partition, List.takeWhile_append_of_pos hall, List.dropWhile_append_of_pos hall,
    List.takeWhile_cons_of_neg (by simp), List.dropWhile_cons_of_neg (by simp), List.append_nil]
  rfl

/-- What comes after the last separator, and what ends with it. -/
theorem rtakeWhile_append {sep : Char} {t : List Char} (h : sep ∉ t) (s : List Char) :
    (s ++ sep :: t).rtakeWhile (fun c => decide (c ≠ sep)) = t ∧
      (s ++ sep :: t).rdropWhile (fun c => decide (c ≠ sep)) = s ++ [sep] := by
  have hall : ∀ c ∈ t.reverse, decide (c ≠ sep) = true :=
    fun c hc => decide_eq_true fun heq => h (heq ▸ List.mem_reverse.1 hc)
  have hreverse : (s ++ sep :: t).reverse = t.reverse ++ sep :: s.reverse := by
    rw [List.reverse_append, List.reverse_cons, List.append_assoc, List.singleton_append]
  constructor
  · rw [List.rtakeWhile, hreverse, List.takeWhile_append_of_pos hall, List.takeWhile_cons_of_neg (by simp),
      List.append_nil, List.reverse_reverse]
  · rw [List.rdropWhile, hreverse, List.dropWhile_append_of_pos hall, List.dropWhile_cons_of_neg (by simp),
      List.reverse_cons, List.reverse_reverse]

theorem partition_optionalPart {sep : Char} {s : List Char} (h : sep ∉ s) (rest : List Char) :
    partition sep (s ++ optionalPart sep rest) = (s, rest) := by
  unfold optionalPart
  by_cases hrest : rest = []
  · rw [if_neg (not_not.2 hrest), List.append_nil, partition_of_notMem h, hrest]
  · rw [if_pos hrest, partition_append h]

theorem notMem_partition (sep : Char) (s : List Char) : sep ∉ (partition sep s).1 := by
  intro h
  have hsep := List.mem_takeWhile_imp h
  simp at hsep

theorem mem_of_mem_partition {sep c : Char} {s : List Char} (h : c ∈ (partition sep s).1 ∨ c ∈ (partition sep s).2) :
    c ∈ s := by
  obtain h | h := h
  · exact List.takeWhile_sublist _ |>.mem h
  · exact (List.dropWhile_sublist _).mem (List.mem_of_mem_drop h)

theorem splitScheme_append {scheme rest : List Char}
    (h : scheme = ['h', 't', 't', 'p'] ∨ scheme = ['h', 't', 't', 'p', 's']) :
    splitScheme (scheme ++ ':' :: rest) = (scheme, rest) := by
  have hcolon : ':' ∉ scheme := by obtain rfl | rfl := h <;> decide
  have hhead : (scheme ++ ':' :: rest).head?.any Char.isAlpha = true := by obtain rfl | rfl := h <;> rfl
  have hall : scheme.all isSchemeChar = true := by obtain rfl | rfl := h <;> decide
  have hlower : scheme.map Char.toLower = scheme := by obtain rfl | rfl := h <;> decide
  have hmem : ':' ∈ scheme ++ ':' :: rest := List.mem_append_right _ List.mem_cons_self
  rw [splitScheme, partition_append hcolon, if_pos ⟨hmem, hhead, hall⟩, hlower]

theorem splitNetloc_append {netloc rest : List Char} (h : ∀ c ∈ netloc, isNetlocChar c = true)
    (hrest : ∀ c ∈ rest.head?, isNetlocChar c = false) :
    splitNetloc ('/' :: '/' :: netloc ++ rest) = (netloc, rest) := by
  show ((netloc ++ rest).takeWhile isNetlocChar, (netloc ++ rest).dropWhile isNetlocChar) = _
  rw [List.takeWhile_append_of_pos h, List.dropWhile_append_of_pos h]
  cases rest with
  | nil => rw [List.takeWhile_nil, List.dropWhile_nil, List.append_nil]
  | cons c rest =>
    have hc : ¬ isNetlocChar c = true := by
      rw [hrest c rfl]
      decide
    rw [List.takeWhile_cons_of_neg hc, List.dropWhile_cons_of_neg hc, List.append_nil]

theorem isNetlocChar_head?_optionalPart {sep : Char} (hsep : isNetlocChar sep = false) (s : List Char) :
    ∀ c ∈ (optionalPart sep s).head?, isNetlocChar c = false := by
  intro c hc
  unfold optionalPart at hc
  split_ifs at hc
  · cases hc
    exact hsep
  · cases hc

variable {s : SplitResult}

theorem SplitResult.IsAbsolute.urlunsplit_eq (h : s.IsAbsolute) : urlunsplit s = s.scheme ++ ':' ::
    ('/' :: '/' :: s.netloc ++ (s.path ++ optionalPart '?' s.query ++ optionalPart '#' s.fragment)) := by
  have hscheme : s.scheme ≠ [] := by
    obtain hs | hs := h.scheme <;> rw [hs] <;> exact List.cons_ne_nil _ _
  have hpath : ¬ (s.path ≠ [] ∧ s.path.head? ≠ some '/') := fun hne => h.path.elim hne.1 hne.2
  rw [urlunsplit, if_pos hscheme, SplitResult.location, if_pos h.netloc_ne, if_neg hpath]
  simp only [List.append_assoc, List.cons_append]

theorem mem_optionalPart {sep c : Char} {w : List Char} (h : c ∈ optionalPart sep w) : c = sep ∨ c ∈ w := by
  unfold optionalPart at h
  split_ifs at h
  · exact List.mem_cons.1 h
  · cases h

/-- An absolute URL has nothing to remove. -/
theorem SplitResult.IsAbsolute.clean (h : s.IsAbsolute) :
    ((urlunsplit s).dropWhile isControlOrSpace).filter (fun c => !isUnsafe c) = urlunsplit s := by
  have hsafe : ∀ c ∈ urlunsplit s, isUnsafe c = false := by
    intro c hc
    have hpart : ∀ c, c ∈ s.netloc ∨ c ∈ s.path ∨ c ∈ s.query ∨ c ∈ s.fragment → isUnsafe c = false := by
      intro c hc
      refine h.safe c ?_
      simp only [List.mem_append]
      tauto
    rw [h.urlunsplit_eq] at hc
    simp only [List.mem_append, List.mem_cons] at hc
    obtain hc | rfl | (rfl | rfl | hc) | (hc | hc) | hc := hc
    · obtain hs | hs := h.scheme <;> rw [hs] at hc <;> simp only [List.mem_cons, List.not_mem_nil, or_false] at hc
      · obtain rfl | rfl | rfl | rfl := hc <;> decide
      · obtain rfl | rfl | rfl | rfl | rfl := hc <;> decide
    · decide
    · decide
    · decide
    · exact hpart c (Or.inl hc)
    · exact hpart c (Or.inr (Or.inl hc))
    · obtain rfl | hc := mem_optionalPart hc
      · decide
      · exact hpart c (Or.inr (Or.inr (Or.inl hc)))
    · obtain rfl | hc := mem_optionalPart hc
      · decide
      · exact hpart c (Or.inr (Or.inr (Or.inr hc)))
  have hhead : (urlunsplit s).dropWhile isControlOrSpace = urlunsplit s := by
    rw [h.urlunsplit_eq]
    obtain hs | hs := h.scheme <;> rw [hs] <;> rfl
  rw [hhead, List.filter_eq_self]
  intro c hc
  rw [hsafe c hc]
  rfl

/-- **An absolute URL is read back from its parts.** -/
theorem urlsplit_urlunsplit (h : s.IsAbsolute) : urlsplit (urlunsplit s) = s := by
  have hrest : ∀ c ∈ (s.path ++ optionalPart '?' s.query ++ optionalPart '#' s.fragment).head?,
      isNetlocChar c = false := by
    obtain hpath | hpath := h.path
    · rw [hpath, List.nil_append]
      by_cases hquery : s.query = []
      · rw [hquery]
        exact isNetlocChar_head?_optionalPart (by decide) _
      · rw [optionalPart, if_pos hquery]
        rintro c ⟨⟩
        decide
    · cases hp : s.path with
      | nil =>
        rw [hp] at hpath
        cases hpath
      | cons c path =>
        rw [hp] at hpath
        obtain rfl := Option.some.inj hpath
        rintro c ⟨⟩
        decide
  have hfragment : '#' ∉ s.path ++ optionalPart '?' s.query := by
    rw [List.mem_append, not_or]
    refine ⟨h.path_chars.2, fun hmem => ?_⟩
    obtain hmem | hmem := mem_optionalPart hmem
    · cases hmem
    · exact h.query hmem
  unfold urlsplit
  rw [h.clean, h.urlunsplit_eq, splitScheme_append h.scheme]
  simp only [splitNetloc_append h.netloc hrest, partition_optionalPart hfragment,
    partition_optionalPart h.path_chars.1]

theorem mem_of_mem_splitScheme {url : List Char} {c : Char} (h : c ∈ (splitScheme url).2) : c ∈ url := by
  unfold splitScheme at h
  split_ifs at h
  · exact mem_of_mem_partition (Or.inr h)
  · exact h

/-- What is split off as a host, and what is left. -/
theorem splitNetloc_cases (url : List Char) : (splitNetloc url).1 = [] ∨
    (∀ c ∈ (splitNetloc url).1, isNetlocChar c = true ∧ c ∈ url) ∧ (∀ c ∈ (splitNetloc url).2, c ∈ url) ∧
      ∀ c ∈ (splitNetloc url).2.head?, isNetlocChar c = false := by
  unfold splitNetloc
  split
  · rename_i url'
    have hmem : ∀ c ∈ url', c ∈ '/' :: '/' :: url' := fun c hc => List.mem_cons_of_mem _ (List.mem_cons_of_mem _ hc)
    refine Or.inr ⟨fun c hc => ⟨List.mem_takeWhile_imp hc, hmem c ((List.takeWhile_sublist _).mem hc)⟩,
      fun c hc => hmem c ((List.dropWhile_sublist _).mem hc), fun c hc => ?_⟩
    have hnot := List.head?_dropWhile_not isNetlocChar url'
    rw [Option.mem_def.1 hc] at hnot
    exact hnot
  · exact Or.inl rfl

/-- **What has a scheme of the web and a host is absolute.** -/
theorem isAbsolute_urlsplit {url : List Char}
    (hscheme : (urlsplit url).scheme = ['h', 't', 't', 'p'] ∨ (urlsplit url).scheme = ['h', 't', 't', 'p', 's'])
    (hnetloc : (urlsplit url).netloc ≠ []) : (urlsplit url).IsAbsolute := by
  unfold urlsplit at hscheme hnetloc ⊢
  have hsafe : ∀ c ∈ (splitScheme ((url.dropWhile isControlOrSpace).filter fun c => !isUnsafe c)).2,
      isUnsafe c = false := by
    intro c hc
    have hfilter := (List.mem_filter.1 (mem_of_mem_splitScheme hc)).2
    rwa [Bool.not_eq_true'] at hfilter
  generalize splitScheme ((url.dropWhile isControlOrSpace).filter fun c => !isUnsafe c) = schemed at *
  obtain hnone | ⟨hhost, hrest, hhead⟩ := splitNetloc_cases schemed.2
  · exact absurd hnone hnetloc
  · refine ⟨hscheme, hnetloc, fun c hc => (hhost c hc).1, ?_, ⟨notMem_partition _ _, fun h => ?_⟩, fun h => ?_,
      fun c hc => ?_⟩
    · show (partition '?' (partition '#' (splitNetloc schemed.2).2).1).1 = [] ∨
        (partition '?' (partition '#' (splitNetloc schemed.2).2).1).1.head? = some '/'
      cases hw : (splitNetloc schemed.2).2 with
      | nil => exact Or.inl rfl
      | cons c w =>
        rw [hw] at hhead
        have hc : isNetlocChar c = false := hhead c rfl
        have hcases : c = '/' ∨ c = '?' ∨ c = '#' := by
          rw [isNetlocChar, Bool.not_eq_false', List.contains_iff_mem] at hc
          simpa using hc
        obtain rfl | rfl | rfl := hcases
        · exact Or.inr rfl
        · exact Or.inl rfl
        · exact Or.inl rfl
    · exact notMem_partition _ _ (mem_of_mem_partition (Or.inl h))
    · exact notMem_partition _ _ (mem_of_mem_partition (Or.inr h))
    · rw [List.mem_append, List.mem_append, List.mem_append] at hc
      obtain ((hc | hc) | hc) | hc := hc
      · exact hsafe c (hhost c hc).2
      · exact hsafe c (hrest c (mem_of_mem_partition (Or.inl (mem_of_mem_partition (Or.inl hc)))))
      · exact hsafe c (hrest c (mem_of_mem_partition (Or.inl (mem_of_mem_partition (Or.inr hc)))))
      · exact hsafe c (hrest c (mem_of_mem_partition (Or.inr hc)))

/-! ## Paths with a query -/

theorem optionalPart_cons (sep c : Char) (s : List Char) : optionalPart sep (c :: s) = sep :: c :: s :=
  if_pos (List.cons_ne_nil _ _)

theorem partition_append_right {sep : Char} {s : List Char} (h : sep ∉ s) (t : List Char) :
    partition sep (s ++ t) = (s ++ (partition sep t).1, (partition sep t).2) := by
  have hall : ∀ c ∈ s, decide (c ≠ sep) = true := fun c hc => decide_eq_true fun heq => h (heq ▸ hc)
  rw [partition, List.takeWhile_append_of_pos hall, List.dropWhile_append_of_pos hall]
  rfl

/-- A path and a query, without a scheme or a host. -/
theorem urlsplit_path {path query : List Char} (hroot : ∃ c rest, path = '/' :: c :: rest ∧ c ≠ '/')
    (hpath : '?' ∉ path ∧ '#' ∉ path) (hsafe : ∀ c ∈ path ++ query, isUnsafe c = false) :
    (urlsplit (path ++ optionalPart '?' query)).path = path ∧
      (urlsplit (path ++ optionalPart '?' query)).query = (partition '#' query).1 := by
  have hclean : ((path ++ optionalPart '?' query).dropWhile isControlOrSpace).filter (fun c => !isUnsafe c) =
      path ++ optionalPart '?' query := by
    have hhead : (path ++ optionalPart '?' query).dropWhile isControlOrSpace = path ++ optionalPart '?' query := by
      obtain ⟨c, rest, rfl, -⟩ := hroot
      rfl
    rw [hhead, List.filter_eq_self]
    intro c hc
    have hsafe : isUnsafe c = false := by
      obtain hc | hc := List.mem_append.1 hc
      · exact hsafe c (List.mem_append_left _ hc)
      · obtain rfl | hc := mem_optionalPart hc
        · decide
        · exact hsafe c (List.mem_append_right _ hc)
    rw [hsafe]
    rfl
  have hscheme : splitScheme (path ++ optionalPart '?' query) = ([], path ++ optionalPart '?' query) := by
    obtain ⟨c, rest, rfl, -⟩ := hroot
    have hslash : ('/' :: c :: rest ++ optionalPart '?' query).head?.any Char.isAlpha = false := rfl
    exact if_neg fun h => Bool.false_ne_true (hslash.symm.trans h.2.1)
  have hnetloc : splitNetloc (path ++ optionalPart '?' query) = ([], path ++ optionalPart '?' query) := by
    obtain ⟨c, rest, rfl, hc⟩ := hroot
    unfold splitNetloc
    split
    · rename_i url heq
      exact absurd (List.cons.inj (List.cons.inj heq).2).1 hc
    · rfl
  have hfragment : (partition '#' (path ++ optionalPart '?' query)).1 =
      path ++ optionalPart '?' query ∧ query = [] ∨
        (partition '#' (path ++ optionalPart '?' query)).1 = path ++ '?' :: (partition '#' query).1 := by
    rw [partition_append_right hpath.2]
    cases query with
    | nil => exact Or.inl ⟨rfl, rfl⟩
    | cons c query =>
      refine Or.inr ?_
      rw [optionalPart_cons]
      rfl
  unfold urlsplit
  rw [hclean, hscheme]
  simp only [hnetloc]
  obtain ⟨hwhole, rfl⟩ | hcut := hfragment
  · rw [hwhole, partition_optionalPart hpath.1]
    exact ⟨rfl, rfl⟩
  · rw [hcut, partition_append hpath.1]
    exact ⟨rfl, rfl⟩

theorem withoutParams_of_notMem {path : List Char} (h : ';' ∉ path) : withoutParams path = path := if_neg h

end Totem.Lib.Url
