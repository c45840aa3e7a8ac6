import Totem.Lib.Decimal
import Totem.Lib.QueryString
import Mathlib.Data.Rat.Floor

/-!
# Totem.Api.Pagination — page numbers

`PageNumberPagination` (`core/api/pagination.py`) with the URL functions of `core/utils/urls.py`, Django's `Paginator`,
and the links to the next and the previous page, which a client follows: the page and its size are read from the query
of each URL.  `page_size` is bounded from above only.

* `sameButPage_replaceQueryParam`, `sameButPage_removeQueryParam`: a link asks for what its URL asks for, on another
  page.
* `lists_from`: following `next` from a page gives the records from there on.
* `paginates_iff`: the page sizes that are served.
-/

namespace Totem.Api

open Totem.Lib Totem.Lib.Url Totem.Lib.QueryString

/-! ## core/utils/urls.py -/

/-- `path` with a slash at its end. -/
def withSlash (path : List Char) : List Char := if path.getLast? = some '/' then path else path ++ ['/']

def ensureTrailingSlash (url : List Char) : List Char :=
  urlunsplit { urlsplit url with path := withSlash (urlsplit url).path }

/-- `a <= b`, by code points. -/
def textLe : List Char → List Char → Bool
  | [], _ => true
  | _ :: _, [] => false
  | c :: a, d :: b => decide (c.toNat < d.toNat) || decide (c = d) && textLe a b

/-- `sorted(query_dict.items())`: the keys are different. -/
def sortedItems (queryDict : Dict (List Char) (List (List Char))) : List (List Char × List (List Char)) :=
  queryDict.entries.mergeSort fun a b => textLe a.1 b.1

def replaceQueryParam (url key : List Char) (val : ℤ) : List Char :=
  urlunsplit { urlsplit url with
    query := urlencode (sortedItems ((parseQs (urlsplit url).query true).set key [intText val])) }

def removeQueryParam (url key : List Char) : List Char :=
  urlunsplit { urlsplit url with query := urlencode (sortedItems ((parseQs (urlsplit url).query true).pop key)) }

/-! ## Django's paginator -/

/-- `EmptyPage`, with its texts. -/
inductive InvalidPage where
  | lessThanOne
  | noResults
  deriving DecidableEq, Repr

def InvalidPage.str : InvalidPage → String
  | .lessThanOne => "That page number is less than 1"
  | .noResults => "That page contains no results"

inductive Failure where
  | zeroDivisionError
  | invalidPage (exc : InvalidPage)
  | http404 (msg : String)
  /-- The `Input` is refused. -/
  | unprocessable
  deriving DecidableEq, Repr

structure Paginator (R : Type) where
  objectList : List R
  perPage : ℤ

structure Page (R : Type) where
  objectList : List R
  number : ℤ
  paginator : Paginator R

section

variable {R : Type}

def Paginator.count (p : Paginator R) : ℤ := p.objectList.length

def Paginator.numPages (p : Paginator R) : Except Failure ℤ :=
  if p.perPage = 0 then .error .zeroDivisionError else .ok ⌈((max 1 p.count : ℤ) : ℚ) / p.perPage⌉

def Paginator.validateNumber (p : Paginator R) (number : ℤ) : Except Failure ℤ :=
  if number < 1 then .error (.invalidPage .lessThanOne)
  else p.numPages.bind fun numPages => if number > numPages then .error (.invalidPage .noResults) else .ok number

/-- `object_list[bottom:top]`; neither is negative. -/
def slice (objectList : List R) (bottom top : ℤ) : List R := (objectList.take top.toNat).drop bottom.toNat

def Paginator.page (p : Paginator R) (number : ℤ) : Except Failure (Page R) :=
  (p.validateNumber number).bind fun number =>
    let bottom := (number - 1) * p.perPage
    let top := bottom + p.perPage
    .ok ⟨slice p.objectList bottom (if top ≥ p.count then p.count else top), number, p⟩

def Page.hasNext (page : Page R) : Except Failure Bool :=
  page.paginator.numPages.map fun numPages => decide (page.number < numPages)

def Page.hasPrevious (page : Page R) : Bool := decide (page.number > 1)

def Page.nextPageNumber (page : Page R) : Except Failure ℤ := page.paginator.validateNumber (page.number + 1)

def Page.previousPageNumber (page : Page R) : Except Failure ℤ := page.paginator.validateNumber (page.number - 1)

end

/-! ## core/api/pagination.py -/

structure Input where
  page : ℤ
  pageSize : ℤ
  deriving DecidableEq, Repr

structure Response (D : Type) where
  count : ℤ
  next : Option (List Char)
  previous : Option (List Char)
  results : List D

def pageQueryParam : List Char := "page".toList

def pageSizeQueryParam : List Char := "page_size".toList

/-- `PageNumberPagination(page_size, max_page_size)`. -/
structure PageNumberPagination where
  pageSize : ℤ := 20
  maxPageSize : ℤ := 200

section

variable {R D : Type}

def Page.getNextLink (page : Page R) (url : List Char) : Except Failure (Option (List Char)) :=
  page.hasNext.bind fun hasNext =>
    if hasNext then page.nextPageNumber.map fun number => some (replaceQueryParam url pageQueryParam number)
    else .ok none

def Page.getPreviousLink (page : Page R) (url : List Char) : Except Failure (Option (List Char)) :=
  if page.hasPrevious then
    page.previousPageNumber.map fun number =>
      some (if number = 1 then removeQueryParam url pageQueryParam else replaceQueryParam url pageQueryParam number)
  else .ok none

def Page.getPaginatedResponse (page : Page R) (toDict : R → D) (baseUrl : List Char) :
    Except Failure (Response D) :=
  (page.getNextLink baseUrl).bind fun next =>
    (page.getPreviousLink baseUrl).map fun previous =>
      ⟨page.paginator.count, next, previous, page.objectList.map toDict⟩

/-- `except InvalidPage`. -/
def orHttp404 (pageNumber : ℤ) : Except Failure (Response D) → Except Failure (Response D)
  | .error (.invalidPage exc) => .error (.http404 ("Invalid page. " ++ toString pageNumber ++ " " ++ exc.str))
  | answer => answer

def apaginateQueryset (toDict : R → D) (queryset : List R) (pagination : Input) (absoluteUri : List Char) :
    Except Failure (Response D) :=
  orHttp404 pagination.page
    (((⟨queryset, pagination.pageSize⟩ : Paginator R).page pagination.page).bind fun page =>
      page.getPaginatedResponse toDict (ensureTrailingSlash absoluteUri))

/-- A field of the `Input`: the last value of its parameter, which is checked, or the default, which is not. -/
def readField (reader : IntReader) (url name : List Char) (default : ℤ) (check : ℤ → Bool) : Option ℤ :=
  match (parseQs (urlsplit url).query true).get name with
  | none => some default
  | some values => (values.getLast?.bind reader.toInt).filter check

/-- `DynamicInput`. -/
def PageNumberPagination.readInput (p : PageNumberPagination) (reader : IntReader) (url : List Char) : Option Input :=
  (readField reader url pageQueryParam 1 fun page => decide (page > 0)).bind fun page =>
    (readField reader url pageSizeQueryParam p.pageSize fun pageSize => decide (pageSize < p.maxPageSize)).map
      fun pageSize => ⟨page, pageSize⟩

/-- The answer to a request. -/
def PageNumberPagination.answer (p : PageNumberPagination) (reader : IntReader) (toDict : R → D) (queryset : List R)
    (url : List Char) : Except Failure (Response D) :=
  match p.readInput reader url with
  | none => .error .unprocessable
  | some pagination => apaginateQueryset toDict queryset pagination url

end

/-! ## Links -/

/-- Absolute URLs of the web. -/
structure IsRequestUrl (url : List Char) : Prop where
  scheme : (urlsplit url).scheme = ['h', 't', 't', 'p'] ∨ (urlsplit url).scheme = ['h', 't', 't', 'p', 's']
  netloc : (urlsplit url).netloc ≠ []

/-- The URLs differ in the page parameter and the slash at the end of the path only. -/
structure SameButPage (url link : List Char) : Prop where
  scheme : (urlsplit link).scheme = (urlsplit url).scheme
  netloc : (urlsplit link).netloc = (urlsplit url).netloc
  path : withSlash (urlsplit link).path = withSlash (urlsplit url).path
  fragment : (urlsplit link).fragment = (urlsplit url).fragment
  params : ∀ key ≠ pageQueryParam,
    (parseQs (urlsplit link).query true).get key = (parseQs (urlsplit url).query true).get key

theorem IsRequestUrl.isAbsolute {url : List Char} (h : IsRequestUrl url) : (urlsplit url).IsAbsolute :=
  isAbsolute_urlsplit h.scheme h.netloc

theorem withSlash_withSlash (path : List Char) : withSlash (withSlash path) = withSlash path := by
  have hlast : (withSlash path).getLast? = some '/' := by
    unfold withSlash
    split_ifs with h
    · exact h
    · exact List.getLast?_concat
  rw [withSlash, if_pos hlast]

theorem isAbsolute_withSlash {s : SplitResult} (h : s.IsAbsolute) :
    SplitResult.IsAbsolute { s with path := withSlash s.path } := by
  have hmem : ∀ c ∈ withSlash s.path, c = '/' ∨ c ∈ s.path := by
    intro c hc
    unfold withSlash at hc
    split_ifs at hc
    · exact Or.inr hc
    · exact (List.mem_append.1 hc).symm.imp_left List.mem_singleton.1
  refine ⟨h.scheme, h.netloc_ne, h.netloc, Or.inr ?_, ⟨fun hc => ?_, fun hc => ?_⟩, h.query, fun c hc => ?_⟩
  · show (withSlash s.path).head? = some '/'
    unfold withSlash
    split_ifs with hlast
    · refine h.path.resolve_left fun hnil => ?_
      rw [hnil] at hlast
      cases hlast
    · obtain hpath | hpath := h.path
      · rw [hpath]
        rfl
      · rw [List.head?_append, hpath]
        rfl
  · exact h.path_chars.1 ((hmem _ hc).resolve_left (by decide))
  · exact h.path_chars.2 ((hmem _ hc).resolve_left (by decide))
  · simp only [List.mem_append] at hc
    have hsafe := h.safe c
    simp only [List.mem_append] at hsafe
    obtain ((hc | hc) | hc) | hc := hc
    · exact hsafe (Or.inl (Or.inl (Or.inl hc)))
    · obtain rfl | hc := hmem c hc
      · decide
      · exact hsafe (Or.inl (Or.inl (Or.inr hc)))
    · exact hsafe (Or.inl (Or.inr hc))
    · exact hsafe (Or.inr hc)

theorem isAbsolute_urlencode {s : SplitResult} (h : s.IsAbsolute) (items : List (List Char × List (List Char))) :
    SplitResult.IsAbsolute { s with query := urlencode items } := by
  refine ⟨h.scheme, h.netloc_ne, h.netloc, h.path, h.path_chars, not_mem_urlencode (by decide) items, fun c hc => ?_⟩
  simp only [List.mem_append] at hc
  have hsafe := h.safe c
  simp only [List.mem_append] at hsafe
  obtain ((hc | hc) | hc) | hc := hc
  · exact hsafe (Or.inl (Or.inl (Or.inl hc)))
  · exact hsafe (Or.inl (Or.inl (Or.inr hc)))
  · rw [← Bool.not_eq_true, isUnsafe, List.contains_iff_mem]
    intro hmem
    have hmem : c ∈ ['#', '?', '\t', '\n', '\r'] := by
      simp only [List.mem_cons, List.not_mem_nil, or_false] at hmem ⊢
      tauto
    exact not_mem_urlencode hmem items hc
  · exact hsafe (Or.inr hc)

theorem urlsplit_ensureTrailingSlash {url : List Char} (h : IsRequestUrl url) :
    urlsplit (ensureTrailingSlash url) = { urlsplit url with path := withSlash (urlsplit url).path } :=
  urlsplit_urlunsplit (isAbsolute_withSlash h.isAbsolute)

theorem get_parseQs_sortedItems {d : Dict (List Char) (List (List Char))} (hne : ∀ k, d.get k ≠ some [])
    (k : List Char) : (parseQs (urlencode (sortedItems d)) true).get k = d.get k :=
  get_parseQs_urlencode (List.mergeSort_perm _ _) hne k

section

variable {url : List Char}

/-- A URL that has the query of another dict, and its path with a slash. -/
theorem urlsplit_withQuery (h : IsRequestUrl url) (d : Dict (List Char) (List (List Char))) :
    urlsplit (urlunsplit { urlsplit (ensureTrailingSlash url) with query := urlencode (sortedItems d) }) =
      { urlsplit url with path := withSlash (urlsplit url).path, query := urlencode (sortedItems d) } := by
  rw [urlsplit_ensureTrailingSlash h]
  exact urlsplit_urlunsplit (isAbsolute_urlencode (isAbsolute_withSlash h.isAbsolute) _)

/-- Such a URL asks for the same, but for the page. -/
theorem sameButPage_withQuery (h : IsRequestUrl url) {d : Dict (List Char) (List (List Char))}
    (hne : ∀ k, d.get k ≠ some [])
    (hd : ∀ k ≠ pageQueryParam, d.get k = (parseQs (urlsplit url).query true).get k) {link : List Char}
    (hlink : link = urlunsplit { urlsplit (ensureTrailingSlash url) with query := urlencode (sortedItems d) }) :
    IsRequestUrl link ∧ SameButPage url link ∧
      (parseQs (urlsplit link).query true).get pageQueryParam = d.get pageQueryParam := by
  subst hlink
  have hparts := urlsplit_withQuery h d
  refine ⟨⟨?_, ?_⟩, ⟨?_, ?_, ?_, ?_, fun key hkey => ?_⟩, ?_⟩
  · rw [hparts]
    exact h.scheme
  · rw [hparts]
    exact h.netloc
  · rw [hparts]
  · rw [hparts]
  · rw [hparts]
    exact withSlash_withSlash _
  · rw [hparts]
  · rw [hparts, get_parseQs_sortedItems hne, hd key hkey]
  · rw [hparts, get_parseQs_sortedItems hne]

/-- The link to a page. -/
theorem sameButPage_replaceQueryParam (h : IsRequestUrl url) (n : ℤ) {link : List Char}
    (hlink : link = replaceQueryParam (ensureTrailingSlash url) pageQueryParam n) :
    IsRequestUrl link ∧ SameButPage url link ∧
      (parseQs (urlsplit link).query true).get pageQueryParam = some [intText n] := by
  have hquery : (urlsplit (ensureTrailingSlash url)).query = (urlsplit url).query := by
    rw [urlsplit_ensureTrailingSlash h]
  rw [replaceQueryParam, hquery] at hlink
  have hget (k : List Char) : ((parseQs (urlsplit url).query true).set pageQueryParam [intText n]).get k =
      if k = pageQueryParam then some [intText n] else (parseQs (urlsplit url).query true).get k := Dict.get_set
  obtain ⟨hurl, hsame, hpage⟩ := sameButPage_withQuery h (fun k => by
    rw [hget]
    split_ifs
    · exact fun heq => List.cons_ne_nil _ _ (Option.some.inj heq)
    · exact get_parseQs_ne_nil _ _ k) (fun k hk => by rw [hget, if_neg hk]) hlink
  exact ⟨hurl, hsame, by rw [hpage, hget, if_pos rfl]⟩

/-- The link to the first page. -/
theorem sameButPage_removeQueryParam (h : IsRequestUrl url) {link : List Char}
    (hlink : link = removeQueryParam (ensureTrailingSlash url) pageQueryParam) :
    IsRequestUrl link ∧ SameButPage url link ∧
      (parseQs (urlsplit link).query true).get pageQueryParam = none := by
  have hquery : (urlsplit (ensureTrailingSlash url)).query = (urlsplit url).query := by
    rw [urlsplit_ensureTrailingSlash h]
  rw [removeQueryParam, hquery] at hlink
  have hget (k : List Char) : ((parseQs (urlsplit url).query true).pop pageQueryParam).get k =
      if k = pageQueryParam then none else (parseQs (urlsplit url).query true).get k := Dict.get_pop
  obtain ⟨hurl, hsame, hpage⟩ := sameButPage_withQuery h (fun k => by
    rw [hget]
    split_ifs
    · exact Option.some_ne_none _ ∘ Eq.symm
    · exact get_parseQs_ne_nil _ _ k) (fun k hk => by rw [hget, if_neg hk]) hlink
  exact ⟨hurl, hsame, by rw [hpage, hget, if_pos rfl]⟩

theorem SameButPage.symm {link : List Char} (h : SameButPage url link) : SameButPage link url :=
  ⟨h.scheme.symm, h.netloc.symm, h.path.symm, h.fragment.symm, fun key hkey => (h.params key hkey).symm⟩

theorem SameButPage.trans {link back : List Char} (h : SameButPage url link) (h' : SameButPage link back) :
    SameButPage url back :=
  ⟨h'.scheme.trans h.scheme, h'.netloc.trans h.netloc, h'.path.trans h.path, h'.fragment.trans h.fragment,
    fun key hkey => (h'.params key hkey).trans (h.params key hkey)⟩

end

/-! ## Pages -/

section

variable {R D : Type}

/-- The pages of a positive size: the last one ends at the count or past it, those before end before it. -/
theorem numPages_spec {p : Paginator R} (h : 0 < p.perPage) :
    ∃ n, p.numPages = .ok n ∧ 1 ≤ n ∧ p.count ≤ n * p.perPage ∧ ∀ k, 1 ≤ k → k < n → k * p.perPage < p.count := by
  have hpos : (0 : ℚ) < p.perPage := Int.cast_pos.2 h
  have hcount : 0 ≤ p.count := Int.natCast_nonneg _
  refine ⟨_, if_neg h.ne', ?_, ?_, fun k hk hlt => ?_⟩
  · rw [Int.one_le_ceil_iff]
    have hhits : (0 : ℚ) < ((max 1 p.count : ℤ) : ℚ) := Int.cast_pos.2 (by omega)
    exact div_pos hhits hpos
  · have hle := Int.le_ceil (((max 1 p.count : ℤ) : ℚ) / p.perPage)
    rw [div_le_iff₀ hpos, ← Int.cast_mul, Int.cast_le] at hle
    omega
  · rw [Int.lt_ceil, lt_div_iff₀ hpos, ← Int.cast_mul, Int.cast_lt] at hlt
    have hprod : 1 ≤ k * p.perPage := by
      have hmul := mul_le_mul hk (show 1 ≤ p.perPage from h) (by norm_num) (by omega)
      rwa [one_mul] at hmul
    omega

theorem validateNumber_eq {p : Paginator R} {n number : ℤ} (hn : p.numPages = .ok n) (hnumber : 1 ≤ number) :
    p.validateNumber number = if number > n then .error (.invalidPage .noResults) else .ok number := by
  rw [Paginator.validateNumber, if_neg (by omega), hn]
  rfl

/-- The records of a page. -/
theorem page_eq {p : Paginator R} {n number : ℤ} (hn : p.numPages = .ok n) (hsize : 0 < p.perPage) (h : 1 ≤ number)
    (hle : number ≤ n) : p.page number =
      .ok ⟨(p.objectList.drop ((number - 1) * p.perPage).toNat).take p.perPage.toNat, number, p⟩ := by
  have hbottom : 0 ≤ (number - 1) * p.perPage := mul_nonneg (by omega) (by omega)
  have hslice : slice p.objectList ((number - 1) * p.perPage) (if (number - 1) * p.perPage + p.perPage ≥ p.count then
      p.count else (number - 1) * p.perPage + p.perPage) =
        (p.objectList.drop ((number - 1) * p.perPage).toNat).take p.perPage.toNat := by
    have hcount : p.count.toNat = p.objectList.length := Int.toNat_natCast _
    unfold slice
    by_cases htop : (number - 1) * p.perPage + p.perPage ≥ p.count
    · have hlength : (p.objectList.drop ((number - 1) * p.perPage).toNat).length ≤ p.perPage.toNat := by
        rw [List.length_drop]
        omega
      rw [if_pos htop, hcount, List.take_length, List.take_of_length_le hlength]
    · rw [if_neg htop, List.drop_take]
      congr 1
      omega
  rw [Paginator.page, validateNumber_eq hn h, if_neg (by omega)]
  show Except.ok (Page.mk _ _ _) = _
  rw [hslice]

/-- What is asked for on a page. -/
structure Requests (p : PageNumberPagination) (reader : IntReader) (url : List Char) (page pageSize : ℤ) : Prop where
  isRequestUrl : IsRequestUrl url
  input : p.readInput reader url = some ⟨page, pageSize⟩

/-- The link from a page of `url` to page `n`. -/
def linkTo (url : List Char) (n : ℤ) : List Char :=
  if n = 1 then removeQueryParam (ensureTrailingSlash url) pageQueryParam
  else replaceQueryParam (ensureTrailingSlash url) pageQueryParam n

/-- The answer to the request of a page there is. -/
theorem apaginateQueryset_eq (toDict : R → D) {queryset : List R} {pageSize n number : ℤ} (hsize : 0 < pageSize)
    (hn : (⟨queryset, pageSize⟩ : Paginator R).numPages = .ok n) (h : 1 ≤ number) (hle : number ≤ n)
    (url : List Char) : apaginateQueryset toDict queryset ⟨number, pageSize⟩ url =
      .ok ⟨queryset.length, if number < n then some (linkTo url (number + 1)) else none,
        if 1 < number then some (linkTo url (number - 1)) else none,
        ((queryset.drop ((number - 1) * pageSize).toNat).take pageSize.toNat).map toDict⟩ := by
  have hnext : (⟨(queryset.drop ((number - 1) * pageSize).toNat).take pageSize.toNat, number, ⟨queryset, pageSize⟩⟩ :
      Page R).getNextLink (ensureTrailingSlash url) =
        .ok (if number < n then some (linkTo url (number + 1)) else none) := by
    rw [Page.getNextLink, Page.hasNext, hn]
    show (if decide (number < n) = true then _ else _) = _
    by_cases hlt : number < n
    · rw [if_pos (decide_eq_true hlt), if_pos hlt, Page.nextPageNumber,
        validateNumber_eq hn (show 1 ≤ number + 1 by omega), if_neg (show ¬ number + 1 > n by omega), linkTo,
        if_neg (by omega)]
      rfl
    · rw [if_neg (by simpa using hlt), if_neg hlt]
  have hprevious : (⟨(queryset.drop ((number - 1) * pageSize).toNat).take pageSize.toNat, number,
      ⟨queryset, pageSize⟩⟩ : Page R).getPreviousLink (ensureTrailingSlash url) =
        .ok (if 1 < number then some (linkTo url (number - 1)) else none) := by
    rw [Page.getPreviousLink, Page.hasPrevious]
    by_cases hlt : 1 < number
    · rw [if_pos (decide_eq_true hlt), if_pos hlt, Page.previousPageNumber,
        validateNumber_eq hn (show 1 ≤ number - 1 by omega), if_neg (show ¬ number - 1 > n by omega)]
      rfl
    · rw [if_neg (by simpa using hlt), if_neg hlt]
  rw [apaginateQueryset, page_eq hn hsize h hle]
  show orHttp404 number (Page.getPaginatedResponse _ _ _) = _
  rw [Page.getPaginatedResponse, hnext, hprevious]
  rfl

/-- A link asks for its page of what the URL asks for. -/
theorem linkTo_spec {p : PageNumberPagination} {reader : IntReader} {url : List Char} {page pageSize n : ℤ}
    (h : Requests p reader url page pageSize) (hn : 1 ≤ n) :
    Requests p reader (linkTo url n) n pageSize ∧ SameButPage url (linkTo url n) := by
  have hspec : IsRequestUrl (linkTo url n) ∧ SameButPage url (linkTo url n) ∧
      readField reader (linkTo url n) pageQueryParam 1 (fun page => decide (page > 0)) = some n := by
    by_cases hone : n = 1
    · obtain ⟨hurl, hsame, hpage⟩ := sameButPage_removeQueryParam h.isRequestUrl
        (show linkTo url n = _ from if_pos hone)
      exact ⟨hurl, hsame, by rw [readField, hpage, hone]⟩
    · obtain ⟨hurl, hsame, hpage⟩ := sameButPage_replaceQueryParam h.isRequestUrl n
        (show linkTo url n = _ from if_neg hone)
      refine ⟨hurl, hsame, ?_⟩
      rw [readField, hpage]
      show (reader.toInt (intText n)).filter _ = _
      rw [reader.toInt_intText, Option.filter_some, if_pos (decide_eq_true (show n > 0 by omega))]
  obtain ⟨hurl, hsame, hpage⟩ := hspec
  refine ⟨⟨hurl, ?_⟩, hsame⟩
  obtain ⟨page', -, hinput⟩ := Option.bind_eq_some_iff.1 h.input
  obtain ⟨size, hsize, hinput⟩ := Option.map_eq_some_iff.1 hinput
  obtain rfl : size = pageSize := congrArg Input.pageSize hinput
  have hfield : readField reader (linkTo url n) pageSizeQueryParam p.pageSize
      (fun pageSize => decide (pageSize < p.maxPageSize)) = some size := by
    rw [← hsize, readField, readField, hsame.params pageSizeQueryParam (by decide)]
  rw [PageNumberPagination.readInput, hpage, Option.bind_some, hfield, Option.map_some]

/-- What a client gets that follows `next` to the end. -/
inductive Lists (answer : List Char → Except Failure (Response D)) : List Char → List D → Prop
  | last {url : List Char} {r : Response D} (h : answer url = .ok r) (hnext : r.next = none) :
      Lists answer url r.results
  | next {url link : List Char} {r : Response D} {rest : List D} (h : answer url = .ok r) (hnext : r.next = some link)
      (hrest : Lists answer link rest) : Lists answer url (r.results ++ rest)

theorem Lists.answer_ok {answer : List Char → Except Failure (Response D)} {url : List Char} {results : List D}
    (h : Lists answer url results) : ∃ r, answer url = .ok r := by
  cases h with
  | last h => exact ⟨_, h⟩
  | next h => exact ⟨_, h⟩

variable {p : PageNumberPagination} {reader : IntReader} {toDict : R → D} {queryset : List R}

theorem answer_eq {url : List Char} {page pageSize : ℤ} (h : Requests p reader url page pageSize) :
    p.answer reader toDict queryset url = apaginateQueryset toDict queryset ⟨page, pageSize⟩ url := by
  rw [PageNumberPagination.answer, h.input]

/-- **Following `next` from a page gives the records from there on.** -/
theorem lists_from {pageSize n : ℤ} (hsize : 0 < pageSize)
    (hn : (⟨queryset, pageSize⟩ : Paginator R).numPages = .ok n) {url : List Char} {page : ℤ}
    (hurl : Requests p reader url page pageSize) (h : 1 ≤ page) (hle : page ≤ n) :
    Lists (p.answer reader toDict queryset) url
      ((queryset.drop ((page - 1) * pageSize).toNat).map toDict) := by
  obtain ⟨n', hn', -, hlast, hbefore⟩ := @numPages_spec R ⟨queryset, pageSize⟩ hsize
  obtain rfl : n' = n := Except.ok.inj (hn'.symm.trans hn)
  -- by induction on the number of the pages that come after
  obtain ⟨j, hj⟩ : ∃ j : ℕ, n' - page = j := ⟨_, (Int.toNat_of_nonneg (by omega)).symm⟩
  induction j generalizing url page with
  | zero =>
    have hpage : page = n' := by omega
    subst hpage
    have hanswer := (answer_eq hurl).trans (apaginateQueryset_eq toDict hsize hn h hle url)
    rw [if_neg (lt_irrefl page)] at hanswer
    have hall : (queryset.drop ((page - 1) * pageSize).toNat).length ≤ pageSize.toNat := by
      have hcount : (queryset.length : ℤ) ≤ page * pageSize := hlast
      have hmul : page * pageSize = (page - 1) * pageSize + pageSize := by ring
      rw [List.length_drop]
      omega
    rw [List.take_of_length_le hall] at hanswer
    exact Lists.last hanswer rfl
  | succ j ih =>
    have hanswer := (answer_eq hurl).trans (apaginateQueryset_eq toDict hsize hn h hle url)
    rw [if_pos (show page < n' by omega)] at hanswer
    have hrest := ih (linkTo_spec hurl (show 1 ≤ page + 1 by omega)).1 (by omega) (by omega) (by omega)
    have hsplit : (queryset.drop ((page - 1) * pageSize).toNat).take pageSize.toNat ++
        queryset.drop ((page + 1 - 1) * pageSize).toNat = queryset.drop ((page - 1) * pageSize).toNat := by
      have hbottom : 0 ≤ (page - 1) * pageSize := mul_nonneg (by omega) (by omega)
      have hmul : (page + 1 - 1) * pageSize = (page - 1) * pageSize + pageSize := by ring
      rw [show ((page + 1 - 1) * pageSize).toNat = ((page - 1) * pageSize).toNat + pageSize.toNat by omega,
        ← List.drop_drop, List.take_append_drop]
    have hlists := Lists.next hanswer rfl hrest
    rwa [← List.map_append, hsplit] at hlists

variable (p reader toDict queryset)

/-- The pages of a size: no division by zero, `next` from the first page lists every record once, `previous` leads back
to where `next` came from, and the links ask for what their URL asks for. -/
structure Paginates (pageSize : ℤ) : Prop where
  noZeroDivision : ∀ url page, Requests p reader url page pageSize →
    p.answer reader toDict queryset url ≠ .error .zeroDivisionError
  lists : ∀ url, Requests p reader url 1 pageSize → Lists (p.answer reader toDict queryset) url (queryset.map toDict)
  previous_next : ∀ url page r link, Requests p reader url page pageSize →
    p.answer reader toDict queryset url = .ok r → r.next = some link →
      ∃ r' back r'', p.answer reader toDict queryset link = .ok r' ∧ r'.previous = some back ∧ SameButPage url back ∧
        Requests p reader back page pageSize ∧ p.answer reader toDict queryset back = .ok r'' ∧ r''.results = r.results
  links : ∀ url page r, Requests p reader url page pageSize → p.answer reader toDict queryset url = .ok r →
    (∀ link, r.next = some link → SameButPage url link ∧ Requests p reader link (page + 1) pageSize) ∧
      ∀ link, r.previous = some link → SameButPage url link ∧ Requests p reader link (page - 1) pageSize

variable {p reader toDict queryset}

theorem page_pos {url : List Char} {page pageSize : ℤ} (h : Requests p reader url page pageSize) : 1 ≤ page := by
  obtain ⟨page', hpage, hinput⟩ := Option.bind_eq_some_iff.1 h.input
  obtain ⟨size, -, hinput⟩ := Option.map_eq_some_iff.1 hinput
  obtain rfl : page' = page := congrArg Input.page hinput
  unfold readField at hpage
  split at hpage
  · exact (Option.some.inj hpage).le
  · exact of_decide_eq_true (Option.filter_eq_some_iff.1 hpage).2

/-- A page that is past the last one. -/
theorem apaginateQueryset_past (toDict : R → D) {pageSize n number : ℤ}
    (hn : (⟨queryset, pageSize⟩ : Paginator R).numPages = .ok n) (h : 1 ≤ number) (hlt : n < number)
    (url : List Char) : apaginateQueryset toDict queryset ⟨number, pageSize⟩ url =
      .error (.http404 ("Invalid page. " ++ toString number ++ " " ++ InvalidPage.noResults.str)) := by
  rw [apaginateQueryset, Paginator.page, validateNumber_eq hn h, if_pos hlt]
  rfl

/-- A positive page size is served. -/
theorem paginates_of_pos {pageSize : ℤ} (hsize : 0 < pageSize) : Paginates p reader toDict queryset pageSize := by
  obtain ⟨n, hn, hone, -, -⟩ := @numPages_spec R ⟨queryset, pageSize⟩ hsize
  have hserved (url : List Char) (page : ℤ) (r : Response D) (h : Requests p reader url page pageSize)
      (hr : p.answer reader toDict queryset url = .ok r) : page ≤ n ∧
        r = ⟨queryset.length, if page < n then some (linkTo url (page + 1)) else none,
          if 1 < page then some (linkTo url (page - 1)) else none,
          ((queryset.drop ((page - 1) * pageSize).toNat).take pageSize.toNat).map toDict⟩ := by
    rw [answer_eq h] at hr
    by_cases hle : page ≤ n
    · rw [apaginateQueryset_eq toDict hsize hn (page_pos h) hle] at hr
      exact ⟨hle, (Except.ok.inj hr).symm⟩
    · rw [apaginateQueryset_past toDict hn (page_pos h) (by omega)] at hr
      cases hr
  constructor
  · intro url page h
    rw [answer_eq h]
    by_cases hle : page ≤ n
    · rw [apaginateQueryset_eq toDict hsize hn (page_pos h) hle]
      nofun
    · rw [apaginateQueryset_past toDict hn (page_pos h) (by omega)]
      nofun
  · intro url h
    have hlists := @lists_from R D p reader toDict queryset _ _ hsize hn _ _ h le_rfl hone
    rwa [sub_self, zero_mul, Int.toNat_zero, List.drop_zero] at hlists
  · intro url page r link h hr hnext
    obtain ⟨-, rfl⟩ := hserved url page r h hr
    have hlt : page < n := by
      by_contra hlt
      rw [if_neg hlt] at hnext
      cases hnext
    rw [if_pos hlt, Option.some_inj] at hnext
    subst hnext
    have hpage := page_pos h
    obtain ⟨hlink, hsame⟩ := linkTo_spec h (show 1 ≤ page + 1 by omega)
    obtain ⟨hback, hsame'⟩ := linkTo_spec hlink hpage
    refine ⟨_, linkTo (linkTo url (page + 1)) page, _, (answer_eq hlink).trans
      (apaginateQueryset_eq toDict hsize hn (by omega) (by omega) _), ?_, hsame.trans hsame', hback,
      (answer_eq hback).trans (apaginateQueryset_eq toDict hsize hn hpage hlt.le _), rfl⟩
    show (if 1 < page + 1 then some (linkTo (linkTo url (page + 1)) (page + 1 - 1)) else none) = _
    rw [if_pos (by omega), add_sub_cancel_right]
  · intro url page r h hr
    obtain ⟨-, rfl⟩ := hserved url page r h hr
    have hpage := page_pos h
    constructor
    · intro link hnext
      have hnext : (if page < n then some (linkTo url (page + 1)) else none) = some link := hnext
      split_ifs at hnext
      obtain rfl := Option.some.inj hnext
      exact (linkTo_spec h (by omega)).symm
    · intro link hprevious
      have hprevious : (if 1 < page then some (linkTo url (page - 1)) else none) = some link := hprevious
      split_ifs at hprevious
      obtain rfl := Option.some.inj hprevious
      exact (linkTo_spec h (by omega)).symm

/-- A URL that asks for a page size. -/
def sizedUrl (pageSize : ℤ) : List Char :=
  urlunsplit ⟨"http".toList, "testserver".toList, ['/'], urlencode
    ((Dict.empty : Dict (List Char) (List (List Char))).set pageSizeQueryParam [intText pageSize]).entries, []⟩

theorem requests_sizedUrl {pageSize : ℤ} (h : pageSize < p.maxPageSize) :
    Requests p reader (sizedUrl pageSize) 1 pageSize := by
  have hnetloc : "testserver".toList.all isNetlocChar = true := by decide
  have hsafe : ("testserver".toList ++ ['/'] ++ [] ++ []).all (fun c => !isUnsafe c) = true := by decide
  have hsplit : urlsplit (sizedUrl pageSize) = ⟨"http".toList, "testserver".toList, ['/'], urlencode
      ((Dict.empty : Dict (List Char) (List (List Char))).set pageSizeQueryParam [intText pageSize]).entries, []⟩ :=
    urlsplit_urlunsplit (@isAbsolute_urlencode ⟨"http".toList, "testserver".toList, ['/'], [], []⟩
      ⟨Or.inl rfl, by decide, List.all_eq_true.1 hnetloc, Or.inr rfl, by decide, by decide,
        fun c hc => by simpa using List.all_eq_true.1 hsafe c hc⟩ _)
  have hget (k : List Char) : (parseQs (urlsplit (sizedUrl pageSize)).query true).get k =
      if k = pageSizeQueryParam then some [intText pageSize] else none := by
    rw [hsplit, get_parseQs_urlencode (List.Perm.refl _) (fun k => ?_), Dict.get_set, Dict.get_empty]
    rw [Dict.get_set, Dict.get_empty]
    split_ifs
    · exact fun heq => List.cons_ne_nil _ _ (Option.some.inj heq)
    · exact Option.some_ne_none _ ∘ Eq.symm
  refine ⟨⟨?_, ?_⟩, ?_⟩
  · rw [hsplit]
    exact Or.inl rfl
  · rw [hsplit]
    show "testserver".toList ≠ []
    decide
  · have hpage : readField reader (sizedUrl pageSize) pageQueryParam 1 (fun page => decide (page > 0)) = some 1 := by
      rw [readField, hget, if_neg (by decide)]
    have hsize : readField reader (sizedUrl pageSize) pageSizeQueryParam p.pageSize
        (fun pageSize => decide (pageSize < p.maxPageSize)) = some pageSize := by
      rw [readField, hget, if_pos rfl]
      show (reader.toInt (intText pageSize)).filter _ = _
      rw [reader.toInt_intText, Option.filter_some, if_pos (decide_eq_true h)]
    rw [PageNumberPagination.readInput, hpage, Option.bind_some, hsize, Option.map_some]

/-- The first page of size zero. -/
theorem answer_sizedUrl_zero (h : 0 < p.maxPageSize) :
    p.answer reader toDict queryset (sizedUrl 0) = .error .zeroDivisionError :=
  answer_eq (requests_sizedUrl h)

/-- The first page of a negative size. -/
theorem answer_sizedUrl_neg {pageSize : ℤ} (h : pageSize < p.maxPageSize) (hneg : pageSize < 0) :
    ∃ msg, p.answer reader toDict queryset (sizedUrl pageSize) = .error (.http404 msg) := by
  have hn : (⟨queryset, pageSize⟩ : Paginator R).numPages =
      .ok ⌈((max 1 (⟨queryset, pageSize⟩ : Paginator R).count : ℤ) : ℚ) / pageSize⌉ := if_neg hneg.ne
  have hzero : ⌈((max 1 (⟨queryset, pageSize⟩ : Paginator R).count : ℤ) : ℚ) / pageSize⌉ ≤ 0 := by
    rw [Int.ceil_le, Int.cast_zero]
    exact div_nonpos_of_nonneg_of_nonpos (Int.cast_nonneg (by omega)) (Int.cast_nonpos.2 hneg.le)
  exact ⟨_, (answer_eq (requests_sizedUrl h)).trans (apaginateQueryset_past toDict hn le_rfl (by omega) _)⟩

/-- **A page size is served exactly when it is positive.** -/
theorem paginates_iff {pageSize : ℤ} (h : pageSize < p.maxPageSize) :
    Paginates p reader toDict queryset pageSize ↔ 0 < pageSize := by
  refine ⟨fun hpaginates => ?_, paginates_of_pos⟩
  have hurl : Requests p reader (sizedUrl pageSize) 1 pageSize := requests_sizedUrl h
  obtain hneg | rfl | hpos := lt_trichotomy pageSize 0
  · obtain ⟨msg, hmsg⟩ := @answer_sizedUrl_neg R D p reader toDict queryset _ h hneg
    obtain ⟨r, hr⟩ := (hpaginates.lists _ hurl).answer_ok
    rw [hmsg] at hr
    cases hr
  · exact absurd (answer_sizedUrl_zero h) (hpaginates.noZeroDivision _ _ hurl)
  · exact hpos

end

theorem paginates_sample : Paginates {} decimalReader (id : ℕ → ℕ) (List.range 12) 5 ∧
    ¬ Paginates {} decimalReader (id : ℕ → ℕ) (List.range 12) (-5) :=
  ⟨(paginates_iff (by decide)).2 (by decide), fun h => absurd ((paginates_iff (by decide)).1 h) (by decide)⟩

/-- `?page_size=0` is admitted, and divides by zero. -/
theorem page_size_zero : ¬ ∀ (queryset : List ℕ) (pageSize : ℤ), pageSize < 200 →
    Paginates {} decimalReader id queryset pageSize := by
  intro h
  exact (h [] 0 (by decide)).noZeroDivision _ _ (requests_sizedUrl (by decide)) (answer_sizedUrl_zero (by decide))

end Totem.Api
