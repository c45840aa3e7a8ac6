import Totem.Files.Storage
import Totem.Lib.Decimal
import Totem.Lib.QueryString
import Totem.Lib.Replace
import Mathlib.Data.NNRat.Floor

/-!
# Totem.Files.SignedUrls — URLs of the private media

`PrivateMediaFileSystemStorage.url` writes the symbolic name of a file into a URL and signs it
(`core/utils/signing.py`); `ServeSignedUrlsStorageNginxView` checks the signature of what Django makes of the request,
and looks the file up by the path of the URL, which is still quoted.

* `serve_of_plain`: a URL of a plain name leads to the file.
* `changed_refused`: a signature is good for one path, one expiry and one tenant.
* `roundTrips_iff`: the names that are served.
-/

namespace Totem.Files

open Lib Lib.Percent Lib.Url Lib.QueryString

/-! ## django.core.signing and core/utils/signing.py -/

/-- The signatures of a secret key, `base64_hmac(salt, value, key)`, and how `int` reads a text.  No two values have the
same signature. -/
structure Signing where
  base64Hmac : List Char → List Char → List Char
  base64Hmac_inj : ∀ {salt salt' value value' : List Char},
    base64Hmac salt value = base64Hmac salt' value' → salt = salt' ∧ value = value'
  base64Hmac_ne_nil : ∀ salt value, base64Hmac salt value ≠ []
  base64Hmac_safe : ∀ salt value, ∀ c ∈ base64Hmac salt value, isAlwaysSafe c = true
  int : IntReader

section

variable (signing : Signing)

/-- `Signer(salt=salt).signature(value)`. -/
def Signing.signature (salt value : List Char) : List Char := signing.base64Hmac (salt ++ "signer".toList) value

/-- `Signer(salt=salt).sign(value)`. -/
def Signing.sign (salt value : List Char) : List Char := value ++ ':' :: signing.signature salt value

/-- Whether `Signer(salt=salt).unsign(signed_value)` returns: it raises `BadSignature` otherwise. -/
def Signing.unsigns (salt signedValue : List Char) : Bool :=
  decide (':' ∈ signedValue) && decide (signedValue.rtakeWhile (fun c => decide (c ≠ ':')) =
    signing.signature salt (signedValue.rdropWhile fun c => decide (c ≠ ':')).dropLast)

/-- `int(timezone.now().timestamp() + hours * 3600)`. -/
def expiresAt (now hours : ℚ≥0) : ℕ := ⌊now + hours * 3600⌋₊

/-- `"{}-{}".format(url, expires)`. -/
def fullValue (url : List Char) (expires : ℤ) : List Char := url ++ '-' :: intText expires

def signatureParam : List Char := "signature".toList

def expiresParam : List Char := "expires".toList

def Signing.signUrl (url : List Char) (now hours : ℚ≥0) (salt : List Char) : List Char :=
  let expires := expiresAt now hours
  let fullSignature := signing.sign salt (fullValue url expires)
  let signature := fullSignature.rtakeWhile fun c => decide (c ≠ ':')
  url ++ '?' :: urlencode [(signatureParam, [signature]), (expiresParam, [intText expires])]

def Signing.checkSignature (url : List Char) (now : ℚ≥0) (salt : List Char) : Bool :=
  let queryDict := parseQs (urlsplit url).query false
  match (queryDict.get signatureParam).bind List.head?,
    ((queryDict.get expiresParam).bind List.head?).bind signing.int.toInt with
  | some signature, some expires =>
    signing.unsigns salt (fullValue (urlparsePath url) expires ++ ':' :: signature) &&
      decide ((now : ℚ) < expires)
  | _, _ => false

end

/-! ## Django's requests and URIs -/

/-- `filepath_to_uri`. -/
def filepathToUri (path : List Char) : List Char := quote "/~!*()'".toList (replaceChar '\\' '/' path)

/-- `escape_uri_path`. -/
def escapeUriPath (path : List Char) : List Char := quote "/:@&+$,-_.!~*'()".toList path

/-- `iri_to_uri`. -/
def iriToUri (iri : List Char) : List Char := quote "/#%[]=:;$&()+,!?*@'~".toList iri

/-- A request: its path, percent-decoded, and its query. -/
structure Request where
  path : List Char
  queryString : List Char
  deriving DecidableEq, Repr

/-- The request of a URL. -/
def Request.ofUrl (url : List Char) : Request := ⟨unquote (partition '?' url).1, (partition '?' url).2⟩

/-- `get_full_path`. -/
def Request.getFullPath (request : Request) : List Char :=
  escapeUriPath request.path ++ optionalPart '?' (iriToUri request.queryString)

/-! ## urljoin, of two paths -/

/-- One segment of the path that is resolved. -/
def resolveSegment (resolvedPath : List (List Char)) (seg : List Char) : List (List Char) :=
  if seg = ['.', '.'] then resolvedPath.dropLast
  else if seg = ['.'] then resolvedPath
  else resolvedPath ++ [seg]

/-- `segments[1:-1] = filter(None, segments[1:-1])`. -/
def filterMiddle (segments : List (List Char)) : List (List Char) :=
  segments.take 1 ++ (segments.drop 1).dropLast.filter (fun seg => decide (seg ≠ [])) ++
    (segments.drop 1).getLast?.toList

/-- `urljoin(base, path)`; neither has a scheme, a host, parameters, a query or a fragment. -/
def urljoin (base path : List Char) : List Char :=
  let baseParts := base.splitOn '/'
  let baseParts := if baseParts.getLast? ≠ some [] then baseParts.dropLast else baseParts
  let segments := if path.head? = some '/' then path.splitOn '/' else filterMiddle (baseParts ++ path.splitOn '/')
  let resolvedPath := segments.foldl resolveSegment []
  let resolvedPath :=
    if segments.getLast? = some ['.'] ∨ segments.getLast? = some ['.', '.'] then resolvedPath ++ [[]] else resolvedPath
  if ['/'].intercalate resolvedPath = [] then ['/'] else ['/'].intercalate resolvedPath

/-! ## base/files/storages.py -/

/-- `settings.MEDIA_URL`. -/
def mediaUrl : List Char := "/media/".toList

/-- `private_media_salt`. -/
def privateMediaSalt (database : List Char) : List Char := "private-media:".toList ++ database

/-- `PublicMediaFileSystemStorage.url`. -/
def publicUrl (privacy : Privacy) (name : List Char) : List Char :=
  urljoin mediaUrl (privacy.value.toList ++ '/' :: (filepathToUri name).dropWhile fun c => decide (c = '/'))

/-- `PrivateMediaFileSystemStorage.url`. -/
def privateUrl (signing : Signing) (database name : List Char) (now hours : ℚ≥0) : List Char :=
  signing.signUrl (publicUrl .PRIVATE name) now hours (privateMediaSalt database)

/-! ## base/views/private_media.py -/

/-- What the response says. -/
structure HttpResponse where
  xAccelRedirect : List Char
  contentType : String
  deriving DecidableEq

inductive Answer
  /-- The response, and the reference it was made from. -/
  | served (symbolicPath : String) (fileReference : FileReference) (resp : HttpResponse)
  | permissionDenied
  | http404
  deriving DecidableEq

/-- `f"{settings.MEDIA_URL.rstrip('/')}/{FileReferencePrivacy.PRIVATE}/"`. -/
def privatePart : List Char :=
  mediaUrl.rdropWhile (fun c => decide (c = '/')) ++ '/' :: Privacy.PRIVATE.value.toList ++ ['/']

/-- The header of a file: the internal location, the database, the filestore, and the file. -/
def xRedirect (database : List Char) (fileReference : FileReference) : List Char :=
  joinName (joinName (joinName "/_media_internal/".toList database) "_filestore".toList)
    (fileReference.storePath.toList.dropWhile fun c => decide (c = '/'))

/-- `^media/(?P<path>.*)$`, after the slash. -/
def routes (path : List Char) : Bool := mediaUrl.isPrefixOf path && !(path.contains '\n')

section

variable (signing : Signing) (database : List Char) (references : Table (Privacy × String) FileReference)

/-- `get`. -/
def getFile (request : Request) : Answer :=
  let filePath := String.ofList (cutAll privatePart 0 (urlparsePath request.getFullPath))
  match references.get (.PRIVATE, filePath) with
  | some fileReference =>
    .served filePath fileReference ⟨xRedirect database fileReference, fileReference.mimetype.getD "None"⟩
  | none => .http404

/-- `dispatch`. -/
def dispatch (now : ℚ≥0) (request : Request) : Answer :=
  if signing.checkSignature request.getFullPath now (privateMediaSalt database) then
    getFile database references request
  else .permissionDenied

/-- The answer to a request: another path is not for this view. -/
def answerMedia (now : ℚ≥0) (request : Request) : Answer :=
  if routes request.path then dispatch signing database references now request else .http404

end

/-! ## The path of a URL -/

/-- What `filepath_to_uri` leaves as it is. -/
def filepathSafe : List Char := "/~!*()'".toList

/-- Names that `Storage.save` returns: `validate_file_name` passes them, and the storages write slashes. -/
structure IsSymbolicName (name : List Char) : Prop where
  noBackslash : '\\' ∉ name
  relative : name.head? ≠ some '/'
  noParent : ['.', '.'] ∉ name.splitOn '/'
  fileName : ∀ seg, (name.splitOn '/').getLast? = some seg → seg ≠ [] ∧ seg ≠ ['.']

/-- Segments that `urljoin` keeps. -/
def isKept (seg : List Char) : Bool := decide (seg ≠ []) && decide (seg ≠ ['.'])

/-- A name as `urljoin` resolves it. -/
def resolvedName (name : List Char) : List Char := ['/'].intercalate ((name.splitOn '/').filter isKept)

theorem foldl_resolveSegment {segments : List (List Char)} (h : ['.', '.'] ∉ segments)
    (resolvedPath : List (List Char)) :
    segments.foldl resolveSegment resolvedPath =
      resolvedPath ++ segments.filter fun seg => decide (seg ≠ ['.']) := by
  induction segments generalizing resolvedPath with
  | nil => rw [List.foldl_nil, List.filter_nil, List.append_nil]
  | cons seg segments ih =>
    rw [List.mem_cons, not_or] at h
    rw [List.foldl_cons, ih h.2, resolveSegment, if_neg (Ne.symm h.1), List.filter_cons]
    by_cases hdot : seg = ['.']
    · rw [if_pos hdot, if_neg (by simpa using hdot)]
    · rw [if_neg hdot, if_pos (by simpa using hdot), List.append_assoc, List.singleton_append]

theorem filter_concat {α : Type} {p : α → Bool} {x : α} (h : p x = true) (xs : List α) :
    (xs ++ [x]).filter p = xs.filter p ++ [x] := by
  rw [List.filter_append, List.filter_cons_of_pos h, List.filter_nil]

/-- A path below a directory. -/
theorem urljoin_mediaUrl {path : List Char} {segments : List (List Char)} {last : List Char}
    (hpath : path.splitOn '/' = "private".toList :: (segments ++ [last])) (hhead : path.head? ≠ some '/')
    (hparent : ['.', '.'] ∉ segments ++ [last]) (hlast : isKept last = true) :
    urljoin mediaUrl path = "/media/private/".toList ++ ['/'].intercalate ((segments ++ [last]).filter isKept) := by
  have hkept : last ≠ [] ∧ last ≠ ['.'] := by simpa [isKept] using hlast
  have hfilled : (segments ++ [last]).filter (fun seg => decide (seg ≠ [])) =
      segments.filter (fun seg => decide (seg ≠ [])) ++ [last] :=
    filter_concat (p := fun seg => decide (seg ≠ [])) (decide_eq_true hkept.1) segments
  have hbase : (if (mediaUrl.splitOn '/').getLast? ≠ some [] then (mediaUrl.splitOn '/').dropLast
      else mediaUrl.splitOn '/') = [[], "media".toList, []] := by decide
  have hmiddle : filterMiddle ([[], "media".toList, []] ++ "private".toList :: (segments ++ [last])) =
      [[], "media".toList, "private".toList] ++ (segments ++ [last]).filter fun seg => decide (seg ≠ []) := by
    have hdrop : ([[], "media".toList, []] ++ "private".toList :: (segments ++ [last])).drop 1 =
        (["media".toList, [], "private".toList] ++ segments) ++ [last] := rfl
    rw [filterMiddle, hdrop, List.dropLast_concat, List.getLast?_concat, List.filter_append, hfilled]
    rfl
  have hresolved : ([[], "media".toList, "private".toList] ++
      (segments ++ [last]).filter fun seg => decide (seg ≠ [])).foldl resolveSegment [] =
        [[], "media".toList, "private".toList] ++ (segments ++ [last]).filter isKept := by
    have hnotMem : ['.', '.'] ∉ [[], "media".toList, "private".toList] ++
        (segments ++ [last]).filter fun seg => decide (seg ≠ []) := by
      rw [List.mem_append, not_or]
      exact ⟨by decide, fun h => hparent (List.mem_of_mem_filter h)⟩
    rw [foldl_resolveSegment hnotMem, List.nil_append, List.filter_append, List.filter_filter]
    congr 1
    exact List.filter_congr fun seg _ => by rw [isKept, Bool.and_comm]
  have hgetLast : ([[], "media".toList, "private".toList] ++
      (segments ++ [last]).filter fun seg => decide (seg ≠ [])).getLast? = some last := by
    rw [hfilled, ← List.append_assoc, List.getLast?_concat]
  have hlastParent : last ≠ ['.', '.'] := fun h => hparent (h ▸ List.mem_append_right _ List.mem_cons_self)
  have hne : (segments ++ [last]).filter isKept ≠ [] := by
    rw [filter_concat hlast]
    exact List.append_ne_nil_of_right_ne_nil _ (List.cons_ne_nil _ _)
  have hjoin : ['/'].intercalate ([[], "media".toList, "private".toList] ++ (segments ++ [last]).filter isKept) =
      "/media/private/".toList ++ ['/'].intercalate ((segments ++ [last]).filter isKept) := by
    obtain ⟨seg, rest, hrest⟩ := List.exists_cons_of_ne_nil hne
    rw [hrest]
    rfl
  unfold urljoin
  simp only [hpath, if_neg hhead, hbase, hmiddle, hresolved, hgetLast, Option.some_inj, hkept.2, hlastParent, or_self,
    if_false, hjoin]
  exact if_neg (List.append_ne_nil_of_left_ne_nil (by decide) _)

theorem percent_notMem_filepathSafe : '%' ∉ filepathSafe := by decide

/-- The URL of a name: its segments but for the empty ones and the dots, quoted. -/
theorem publicUrl_eq {name : List Char} (h : IsSymbolicName name) :
    publicUrl .PRIVATE name = "/media/private/".toList ++ quote filepathSafe (resolvedName name) := by
  have hquoted : filepathToUri name = quote filepathSafe name := by
    have hreplace : replaceChar '\\' '/' name = name :=
      (List.map_congr_left fun c hc => if_neg fun heq : c = '\\' => h.noBackslash (heq ▸ hc)).trans (List.map_id name)
    rw [filepathToUri, hreplace]
    rfl
  have hsplit : (quote filepathSafe name).splitOn '/' = (name.splitOn '/').map (quote filepathSafe) :=
    splitOn_quote (by decide) name
  obtain ⟨segments, last, hsegments⟩ : ∃ segments last, name.splitOn '/' = segments ++ [last] :=
    ⟨_, _, (List.dropLast_append_getLast (List.splitOn_ne_nil '/' name)).symm⟩
  have hlast : last ≠ [] ∧ last ≠ ['.'] := h.fileName last (by rw [hsegments, List.getLast?_concat])
  have hdot : quote filepathSafe ['.'] = ['.'] := rfl
  have hkeeps (seg : List Char) : isKept (quote filepathSafe seg) = isKept seg := by
    have hnil : quote filepathSafe seg = [] ↔ seg = [] :=
      ⟨fun heq => quote_injective percent_notMem_filepathSafe heq, fun heq => by rw [heq]; rfl⟩
    have hone : quote filepathSafe seg = ['.'] ↔ seg = ['.'] :=
      ⟨fun heq => quote_injective percent_notMem_filepathSafe (heq.trans hdot.symm), fun heq => by rw [heq]; rfl⟩
    simp only [isKept, ne_eq, hnil, hone]
  have hstripped : (quote filepathSafe name).dropWhile (fun c => decide (c = '/')) = quote filepathSafe name := by
    cases name with
    | nil => rfl
    | cons c name =>
      have hc : c ≠ '/' := fun heq => h.relative (by rw [heq]; rfl)
      have hhead : ∃ d rest, quote filepathSafe (c :: name) = d :: rest ∧ d ≠ '/' := by
        rw [quote, List.flatMap_cons, quoteChar]
        by_cases hsafe : isSafe filepathSafe c = true
        · exact ⟨c, _, by rw [if_pos hsafe]; rfl, hc⟩
        · rw [if_neg hsafe]
          obtain ⟨b, bytes, hbytes⟩ := List.exists_cons_of_ne_nil (utf8Encode_ne_nil c)
          exact ⟨'%', _, by rw [hbytes]; rfl, by decide⟩
      obtain ⟨d, rest, hquote, hd⟩ := hhead
      rw [hquote, List.dropWhile_cons_of_neg (by simpa using hd)]
  have hprivate : Privacy.PRIVATE.value.toList = "private".toList := rfl
  rw [publicUrl, hquoted, hstripped, hprivate, @urljoin_mediaUrl _ (segments.map (quote filepathSafe))
    (quote filepathSafe last)]
  · have hfilter : (segments.map (quote filepathSafe) ++ [quote filepathSafe last]).filter isKept =
        ((segments ++ [last]).filter isKept).map (quote filepathSafe) := by
      rw [← List.map_singleton, ← List.map_append, List.filter_map]
      congr 1
      exact List.filter_congr fun seg _ => hkeeps seg
    rw [hfilter, ← quote_intercalate (by decide), ← hsegments]
    rfl
  · rw [List.splitOn_append_cons_self_of_not_mem (by decide), hsplit, hsegments, List.map_append, List.map_singleton]
  · exact fun heq => absurd heq (by simp)
  · rw [← List.map_singleton, ← List.map_append, ← hsegments]
    intro hmem
    obtain ⟨seg, hseg, heq⟩ := List.mem_map.1 hmem
    have hdots : quote filepathSafe ['.', '.'] = ['.', '.'] := rfl
    obtain rfl : seg = ['.', '.'] := quote_injective percent_notMem_filepathSafe (heq.trans hdots.symm)
    exact h.noParent hseg
  · rw [hkeeps, isKept, decide_eq_true hlast.1, decide_eq_true hlast.2]
    rfl

/-! ## Signatures -/

section

variable {signing : Signing} {salt : List Char}

theorem unsigns_iff {value signature : List Char} (h : ':' ∉ signature) :
    signing.unsigns salt (value ++ ':' :: signature) = true ↔ signature = signing.signature salt value := by
  obtain ⟨htail, hhead⟩ := rtakeWhile_append h value
  have hmem : ':' ∈ value ++ ':' :: signature := List.mem_append_right _ List.mem_cons_self
  rw [Signing.unsigns, htail, hhead, List.dropLast_concat, decide_eq_true hmem, Bool.true_and, decide_eq_true_iff]

theorem colon_notMem_signature (signing : Signing) (salt value : List Char) : ':' ∉ signing.signature salt value :=
  fun h => absurd (signing.base64Hmac_safe _ _ _ h) (by decide)

theorem signUrl_eq (url : List Char) (now hours : ℚ≥0) : signing.signUrl url now hours salt =
    url ++ '?' :: urlencode [(signatureParam, [signing.signature salt (fullValue url (expiresAt now hours))]),
      (expiresParam, [intText (expiresAt now hours)])] := by
  have htail := (rtakeWhile_append (colon_notMem_signature signing salt (fullValue url (expiresAt now hours)))
    (fullValue url (expiresAt now hours))).1
  rw [Signing.signUrl, Signing.sign, htail]

theorem intText_injective : Function.Injective intText := by
  intro m n h
  have hm := decimalReader.toInt_intText m
  rw [h, decimalReader.toInt_intText] at hm
  exact (Option.some.inj hm).symm

theorem dash_notMem_intText (n : ℕ) : '-' ∉ intText n := by
  intro h
  have hdigits : intText n = Nat.toDigits 10 n := Nat.toList_repr
  rw [hdigits] at h
  exact absurd (Nat.isDigit_of_mem_toDigits (by decide) (by decide) h) (by decide)

/-- The value that is signed tells the path and the expiry, if the expiry is not negative. -/
theorem fullValue_inj {url url' : List Char} {m n : ℕ} (h : fullValue url m = fullValue url' n) :
    url = url' ∧ m = n := by
  have hmn : intText m = intText n := by
    have htail (url : List Char) (n : ℕ) : (fullValue url n).rtakeWhile (fun c => decide (c ≠ '-')) = intText n :=
      (rtakeWhile_append (dash_notMem_intText n) url).1
    rw [← htail url m, h, htail]
  have heq : m = n := Int.ofNat_inj.1 (intText_injective hmn)
  subst heq
  exact ⟨List.append_cancel_right h, rfl⟩

end

/-! ## Requests -/

/-- The signature of a request. -/
def signatureOf (request : Request) : Option (List Char) :=
  ((parseQs (urlsplit request.getFullPath).query false).get signatureParam).bind List.head?

/-- When a request expires. -/
def expiryOf (signing : Signing) (request : Request) : Option ℤ :=
  (((parseQs (urlsplit request.getFullPath).query false).get expiresParam).bind List.head?).bind signing.int.toInt

/-- What the view makes of a request below the media. -/
theorem getFullPath_spec {request : Request} (h : mediaUrl <+: request.path) :
    urlparsePath request.getFullPath = escapeUriPath request.path ∧
      (urlsplit request.getFullPath).query = (partition '#' (iriToUri request.queryString)).1 := by
  have hnot {c : Char} (hc : c ∈ ['?', '#', ';', '\t', '\r', '\n']) (s : List Char) : c ∉ escapeUriPath s := by
    simp only [List.mem_cons, List.not_mem_nil, or_false] at hc
    obtain rfl | rfl | rfl | rfl | rfl | rfl := hc <;> exact notMem_quote (by decide) (by decide) (by decide) s
  have hroot : ∃ c rest, escapeUriPath request.path = '/' :: c :: rest ∧ c ≠ '/' := by
    obtain ⟨rest, hrest⟩ := h
    refine ⟨'m', "edia/".toList ++ escapeUriPath rest, ?_, by decide⟩
    rw [← hrest, escapeUriPath, quote_append]
    rfl
  have hsafe : ∀ c ∈ escapeUriPath request.path ++ iriToUri request.queryString, isUnsafe c = false := by
    intro c hc
    rw [← Bool.not_eq_true, isUnsafe, List.contains_iff_mem]
    intro hquoted
    obtain hc | hc := List.mem_append.1 hc
    · exact hnot (List.mem_append_right ['?', '#', ';'] hquoted) _ hc
    · simp only [List.mem_cons, List.not_mem_nil, or_false] at hquoted
      obtain rfl | rfl | rfl := hquoted <;> exact notMem_quote (by decide) (by decide) (by decide) _ hc
  obtain ⟨hpath, hquery⟩ := urlsplit_path hroot ⟨hnot (by decide) _, hnot (by decide) _⟩ hsafe
  refine ⟨?_, hquery⟩
  rw [urlparsePath, Request.getFullPath, hpath, withoutParams_of_notMem (hnot (by decide) _)]

section

variable {signing : Signing} {salt : List Char}

theorem checkSignature_iff {request : Request} (h : mediaUrl <+: request.path) {now : ℚ≥0} :
    signing.checkSignature request.getFullPath now salt = true ↔ ∃ signature expires,
      signatureOf request = some signature ∧ expiryOf signing request = some expires ∧
        signing.unsigns salt (fullValue (escapeUriPath request.path) expires ++ ':' :: signature) = true ∧
          (now : ℚ) < expires := by
  rw [Signing.checkSignature, (getFullPath_spec h).1]
  show (match signatureOf request, expiryOf signing request with
    | some signature, some expires => _
    | _, _ => _) = true ↔ _
  cases signatureOf request with
  | none => simp
  | some signature =>
    cases expiryOf signing request with
    | none => simp
    | some expires => simp

variable {database name : List Char} {now hours : ℚ≥0}

/-- The request of the URL of a name. -/
theorem ofUrl_privateUrl (h : IsSymbolicName name) : Request.ofUrl (privateUrl signing database name now hours) =
    ⟨"/media/private/".toList ++ resolvedName name, urlencode [(signatureParam, [signing.signature
      (privateMediaSalt database) (fullValue (publicUrl .PRIVATE name) (expiresAt now hours))]),
        (expiresParam, [intText (expiresAt now hours)])]⟩ := by
  have hquoted : publicUrl .PRIVATE name = quote filepathSafe ("/media/private/".toList ++ resolvedName name) := by
    rw [publicUrl_eq h, quote_append]
    rfl
  have hmark : '?' ∉ publicUrl .PRIVATE name := by
    rw [hquoted]
    exact notMem_quote (by decide) (by decide) (by decide) _
  rw [privateUrl, signUrl_eq, Request.ofUrl, partition_append hmark, hquoted,
    unquote_quote percent_notMem_filepathSafe]

theorem media_starts (name : List Char) : mediaUrl <+: "/media/private/".toList ++ name :=
  ⟨"private/".toList ++ name, rfl⟩

/-- The parameters of the URL of a name. -/
theorem params_ofUrl (h : IsSymbolicName name) :
    signatureOf (Request.ofUrl (privateUrl signing database name now hours)) = some (signing.signature
      (privateMediaSalt database) (fullValue (publicUrl .PRIVATE name) (expiresAt now hours))) ∧
    expiryOf signing (Request.ofUrl (privateUrl signing database name now hours)) = some (expiresAt now hours : ℤ) := by
  rw [ofUrl_privateUrl h]
  have hsignature : signing.signature (privateMediaSalt database)
      (fullValue (publicUrl .PRIVATE name) (expiresAt now hours)) ≠ [] := signing.base64Hmac_ne_nil _ _
  have hexpires : intText (expiresAt now hours) ≠ [] := by
    have hdigits : intText (expiresAt now hours) = Nat.toDigits 10 (expiresAt now hours) := Nat.toList_repr
    rw [hdigits]
    exact Nat.toDigits_ne_nil
  generalize signing.signature (privateMediaSalt database)
    (fullValue (publicUrl .PRIVATE name) (expiresAt now hours)) = signature at hsignature
  have hquery : (urlsplit (Request.getFullPath ⟨"/media/private/".toList ++ resolvedName name,
      urlencode [(signatureParam, [signature]), (expiresParam, [intText (expiresAt now hours)])]⟩)).query =
        urlencode [(signatureParam, [signature]), (expiresParam, [intText (expiresAt now hours)])] := by
    rw [(getFullPath_spec (media_starts _)).2]
    have huri : iriToUri (urlencode [(signatureParam, [signature]), (expiresParam, [intText (expiresAt now hours)])]) =
        urlencode [(signatureParam, [signature]), (expiresParam, [intText (expiresAt now hours)])] := by
      refine quote_eq_self fun c hc => ?_
      obtain hsafe | hsafe := mem_urlencode hc
      · rw [isSafe, hsafe, Bool.true_or]
      · simp only [List.mem_cons, List.not_mem_nil, or_false] at hsafe
        obtain rfl | rfl | rfl | rfl := hsafe <;> decide
    show (partition '#' (iriToUri _)).1 = _
    rw [huri, partition_of_notMem (not_mem_urlencode (by decide) _)]
  have hfields : ∀ field ∈ [(signatureParam, [signature]), (expiresParam, [intText (expiresAt now hours)])].flatMap
      fieldsOf, field.2 ≠ [] ∨ false = true := by
    intro field hfield
    have hcases : field = (signatureParam, signature) ∨ field = (expiresParam, intText (expiresAt now hours)) := by
      simpa [fieldsOf] using hfield
    obtain rfl | rfl := hcases
    · exact Or.inl hsignature
    · exact Or.inl hexpires
  have hget (k : List Char) := get_parseQs
    (urlencode [(signatureParam, [signature]), (expiresParam, [intText (expiresAt now hours)])]) false k
  constructor
  · rw [signatureOf, hquery, hget, parseQsl_urlencode hfields]
    rfl
  · rw [expiryOf, hquery, hget, parseQsl_urlencode hfields]
    exact signing.int.toInt_intText _

/-- **A signature is good for one path, one expiry and one tenant.** -/
theorem eq_of_checkSignature (h : IsSymbolicName name) {request : Request} (hpath : mediaUrl <+: request.path)
    (hsignature : signatureOf request = signatureOf (Request.ofUrl (privateUrl signing database name now hours)))
    {database' : List Char} {now' : ℚ≥0}
    (hcheck : signing.checkSignature request.getFullPath now' (privateMediaSalt database') = true) :
    database' = database ∧ escapeUriPath request.path = publicUrl .PRIVATE name ∧
      expiryOf signing request = some (expiresAt now hours : ℤ) := by
  obtain ⟨signature, expires, hsome, hexpiry, hunsigns, hlt⟩ := (checkSignature_iff hpath).1 hcheck
  rw [hsignature, (params_ofUrl h).1, Option.some_inj] at hsome
  subst hsome
  rw [unsigns_iff (colon_notMem_signature _ _ _)] at hunsigns
  obtain ⟨hsalt, hvalue⟩ := signing.base64Hmac_inj hunsigns
  have hdatabase : privateMediaSalt database = privateMediaSalt database' := List.append_cancel_right hsalt
  have hpos : 0 < expires := by
    have hlt' : (0 : ℚ) < expires := lt_of_le_of_lt now'.coe_nonneg hlt
    exact Int.cast_pos.1 hlt'
  obtain ⟨n, rfl⟩ := Int.eq_ofNat_of_zero_le hpos.le
  obtain ⟨hurl, hn⟩ := fullValue_inj hvalue
  exact ⟨(List.append_cancel_left hdatabase).symm, hurl.symm, by rw [hexpiry, hn]⟩

end

/-! ## The names that are served -/

/-- Names that are written in a URL as they are, and that have the private part in front only. -/
structure IsPlainName (name : List Char) : Prop where
  safe : ∀ c ∈ name, isSafe filepathSafe c = true
  segments : ∀ seg ∈ name.splitOn '/', seg ≠ [] ∧ seg ≠ ['.']
  noPrivatePart : ¬ privatePart <:+: name

section

variable (signing : Signing) (database : List Char) (references : Table (Privacy × String) FileReference)
  (name : List Char)

/-- The round trip of a name: its URL leads to the reference saved under the name before it expires, and a request with
its signature, but with another path, another expiry or to another tenant, is refused. -/
structure RoundTrips : Prop where
  served : ∀ now hours now' : ℚ≥0, now' < expiresAt now hours → ∃ fileReference,
    references.get (.PRIVATE, String.ofList name) = some fileReference ∧
      answerMedia signing database references now' (Request.ofUrl (privateUrl signing database name now hours)) =
        .served (String.ofList name) fileReference
          ⟨xRedirect database fileReference, fileReference.mimetype.getD "None"⟩
  refused : ∀ (now hours now' : ℚ≥0) (database' : List Char) (references' : Table (Privacy × String) FileReference)
    (request : Request), routes request.path = true →
      signatureOf request = signatureOf (Request.ofUrl (privateUrl signing database name now hours)) →
        (request.path ≠ (Request.ofUrl (privateUrl signing database name now hours)).path ∨
          expiryOf signing request ≠ expiryOf signing (Request.ofUrl (privateUrl signing database name now hours)) ∨
            database' ≠ database) →
          answerMedia signing database' references' now' request = .permissionDenied

variable {signing database references name}

theorem media_starts_of_routes {path : List Char} (h : routes path = true) : mediaUrl <+: path := by
  rw [routes, Bool.and_eq_true] at h
  exact List.isPrefixOf_iff_prefix.1 h.1

/-- A changed URL is refused. -/
theorem changed_refused (h : IsSymbolicName name) {now hours now' : ℚ≥0} {database' : List Char}
    {references' : Table (Privacy × String) FileReference} {request : Request} (hroutes : routes request.path = true)
    (hsignature : signatureOf request = signatureOf (Request.ofUrl (privateUrl signing database name now hours)))
    (hchanged : request.path ≠ (Request.ofUrl (privateUrl signing database name now hours)).path ∨
      expiryOf signing request ≠ expiryOf signing (Request.ofUrl (privateUrl signing database name now hours)) ∨
        database' ≠ database) : answerMedia signing database' references' now' request = .permissionDenied := by
  rw [answerMedia, if_pos hroutes, dispatch]
  refine if_neg fun hcheck => ?_
  obtain ⟨hdatabase, hpath, hexpiry⟩ := eq_of_checkSignature h (media_starts_of_routes hroutes) hsignature hcheck
  obtain hne | hne | hne := hchanged
  · have hpath' : request.path = "/media/private/".toList ++ resolvedName name := by
      have hread := congrArg unquote hpath
      have hquoted : publicUrl .PRIVATE name = quote filepathSafe ("/media/private/".toList ++ resolvedName name) := by
        rw [publicUrl_eq h, quote_append]
        rfl
      rwa [escapeUriPath, unquote_quote (by decide), hquoted, unquote_quote percent_notMem_filepathSafe] at hread
    rw [ofUrl_privateUrl h] at hne
    exact hne hpath'
  · exact hne (hexpiry.trans (params_ofUrl h).2.symm)
  · exact hne hdatabase

/-- What the view looks up. -/
theorem getFile_eq {request : Request} (h : mediaUrl <+: request.path) : getFile database references request =
    match references.get (.PRIVATE, String.ofList (cutAll privatePart 0 (escapeUriPath request.path))) with
    | some fileReference => .served (String.ofList (cutAll privatePart 0 (escapeUriPath request.path))) fileReference
        ⟨xRedirect database fileReference, fileReference.mimetype.getD "None"⟩
    | none => .http404 := by
  rw [getFile, (getFullPath_spec h).1]

theorem privatePart_eq : privatePart = "/media/private/".toList := by decide

/-- What is safe in a file path is safe in the path of a URI. -/
theorem escapeUriPath_of_safe {path : List Char} (h : ∀ c ∈ path, isSafe filepathSafe c = true) :
    escapeUriPath path = path := by
  refine quote_eq_self fun c hc => ?_
  have hsafe := h c hc
  rw [isSafe, Bool.or_eq_true, Bool.and_eq_true, List.contains_iff_mem] at hsafe ⊢
  refine hsafe.imp_right fun hmem => ⟨hmem.1, ?_⟩
  have hcases : c ∈ ['/', '~', '!', '*', '(', ')', '\''] := hmem.2
  simp only [List.mem_cons, List.not_mem_nil, or_false] at hcases
  obtain rfl | rfl | rfl | rfl | rfl | rfl | rfl := hcases <;> decide

/-- A plain name is served. -/
theorem serve_of_plain (h : IsSymbolicName name) (hplain : IsPlainName name) {fileReference : FileReference}
    (href : references.get (.PRIVATE, String.ofList name) = some fileReference) {now hours now' : ℚ≥0}
    (hlt : now' < expiresAt now hours) :
    answerMedia signing database references now' (Request.ofUrl (privateUrl signing database name now hours)) =
      .served (String.ofList name) fileReference
        ⟨xRedirect database fileReference, fileReference.mimetype.getD "None"⟩ := by
  have hresolved : resolvedName name = name := by
    have hall : (name.splitOn '/').filter isKept = name.splitOn '/' := List.filter_eq_self.2 fun seg hseg => by
      rw [isKept, decide_eq_true (hplain.segments seg hseg).1, decide_eq_true (hplain.segments seg hseg).2]
      rfl
    rw [resolvedName, hall, List.intercalate_splitOn]
  have hpath : (Request.ofUrl (privateUrl signing database name now hours)).path =
      "/media/private/".toList ++ name := by
    rw [ofUrl_privateUrl h, hresolved]
  have hsafe : ∀ c ∈ "/media/private/".toList ++ name, isSafe filepathSafe c = true := by
    intro c hc
    obtain hc | hc := List.mem_append.1 hc
    · exact List.all_eq_true.1 (show "/media/private/".toList.all (isSafe filepathSafe) = true by decide) c hc
    · exact hplain.safe c hc
  have hescaped : escapeUriPath (Request.ofUrl (privateUrl signing database name now hours)).path =
      "/media/private/".toList ++ name := by rw [hpath, escapeUriPath_of_safe hsafe]
  have hurl : publicUrl .PRIVATE name = "/media/private/".toList ++ name := by
    rw [publicUrl_eq h, hresolved, quote_eq_self hplain.safe]
  have hstarts : mediaUrl <+: (Request.ofUrl (privateUrl signing database name now hours)).path := by
    rw [hpath]
    exact media_starts name
  have hroutes : routes (Request.ofUrl (privateUrl signing database name now hours)).path = true := by
    have hbreak : (Request.ofUrl (privateUrl signing database name now hours)).path.contains '\n' = false := by
      rw [← Bool.not_eq_true, List.contains_iff_mem, hpath]
      exact fun hmem => absurd (hsafe _ hmem) (by decide)
    rw [routes, hbreak, List.isPrefixOf_iff_prefix.2 hstarts]
    rfl
  have hcheck : signing.checkSignature (Request.ofUrl (privateUrl signing database name now hours)).getFullPath now'
      (privateMediaSalt database) = true := by
    refine (checkSignature_iff hstarts).2 ⟨_, _, (params_ofUrl h).1, (params_ofUrl h).2, ?_, ?_⟩
    · rw [hescaped, ← hurl]
      exact (unsigns_iff (colon_notMem_signature _ _ _)).2 rfl
    · exact_mod_cast hlt
  have hfile : cutAll privatePart 0 ("/media/private/".toList ++ name) = name := by
    rw [← privatePart_eq, cutAll_append (by decide), cutAll_eq_self_of_notInfix hplain.noPrivatePart]
  rw [answerMedia, if_pos hroutes, dispatch, if_pos hcheck, getFile_eq hstarts, hescaped, hfile, href]

/-! ## Only plain names are served -/

/-- What an escape is made of. -/
def isEscape (c : Char) : Bool := "%0123456789ABCDEF".toList.contains c

theorem isEscape_hexDigit : ∀ n < 16, isEscape (hexDigit n) = true := by decide

theorem countP_percentBytes {bytes : List ℕ} (h : ∀ b ∈ bytes, b < 0x100) :
    (bytes.flatMap percentByte).countP isEscape = 3 * bytes.length := by
  induction bytes with
  | nil => rfl
  | cons b bytes ih =>
    obtain ⟨hb, hbytes⟩ := List.forall_mem_cons.1 h
    have hbyte : (percentByte b).countP isEscape = 3 := by
      rw [percentByte, List.countP_cons_of_pos (by decide), List.countP_cons_of_pos (isEscape_hexDigit _ (by omega)),
        List.countP_cons_of_pos (isEscape_hexDigit _ (by omega)), List.countP_nil]
    rw [List.flatMap_cons, List.countP_append, hbyte, ih hbytes, List.length_cons]
    omega

/-- Quoting adds to the characters of the escapes, unless there is nothing to quote. -/
theorem countP_quote (s : List Char) : s.countP isEscape ≤ (quote filepathSafe s).countP isEscape ∧
    ((quote filepathSafe s).countP isEscape = s.countP isEscape → ∀ c ∈ s, isSafe filepathSafe c = true) := by
  induction s with
  | nil => exact ⟨le_rfl, fun _ c hc => absurd hc List.not_mem_nil⟩
  | cons c s ih =>
    have hquote : (quote filepathSafe (c :: s)).countP isEscape =
        (quoteChar filepathSafe c).countP isEscape + (quote filepathSafe s).countP isEscape := by
      rw [quote, List.flatMap_cons, List.countP_append]
      rfl
    have hone : [c].countP isEscape ≤ 1 := List.countP_le_length
    have hcons : (c :: s).countP isEscape = [c].countP isEscape + s.countP isEscape := @List.countP_append _ _ [c] s
    rw [hquote, hcons, List.forall_mem_cons]
    by_cases hsafe : isSafe filepathSafe c = true
    · rw [quoteChar, if_pos hsafe]
      exact ⟨by omega, fun heq => ⟨hsafe, ih.2 (by omega)⟩⟩
    · have hthree : 3 ≤ (quoteChar filepathSafe c).countP isEscape := by
        have hpos := List.length_pos_of_ne_nil (utf8Encode_ne_nil c)
        rw [quoteChar, if_neg hsafe, countP_percentBytes (utf8Encode_lt c)]
        omega
      exact ⟨by omega, fun heq => by omega⟩

/-- The segments that `urljoin` drops hold no character of an escape. -/
theorem countP_keptSegments (segments : List (List Char)) :
    (['/'].intercalate (segments.filter isKept)).countP isEscape = (['/'].intercalate segments).countP isEscape := by
  have hslash : ['/'].countP isEscape = 0 := by decide
  have hsum (segments : List (List Char)) :
      (['/'].intercalate segments).countP isEscape = (segments.map (List.countP isEscape)).sum := by
    rcases eq_or_ne segments [] with rfl | hne
    · rfl
    · simpa only [hslash, Nat.add_zero] using countP_intercalate isEscape '/' hne
  rw [hsum, hsum]
  induction segments with
  | nil => rfl
  | cons x segments ih =>
    rw [List.filter_cons, List.map_cons, List.sum_cons]
    by_cases hx : isKept x = true
    · rw [if_pos hx, List.map_cons, List.sum_cons, ih]
    · have hzero : x.countP isEscape = 0 := by
        rw [isKept, Bool.and_eq_true, decide_eq_true_iff, decide_eq_true_iff, not_and_or, not_not, not_not] at hx
        obtain rfl | rfl := hx <;> rfl
      rw [if_neg hx, ih, hzero, Nat.zero_add]

/-- A path gets shorter with each segment that is dropped. -/
theorem length_intercalate_filter {segments : List (List Char)} (h : segments.filter isKept ≠ []) :
    (['/'].intercalate (segments.filter isKept)).length ≤ (['/'].intercalate segments).length ∧
      ((['/'].intercalate (segments.filter isKept)).length = (['/'].intercalate segments).length →
        ∀ seg ∈ segments, isKept seg = true) := by
  have hlength (segments : List (List Char)) (hne : segments ≠ []) :
      (['/'].intercalate segments).length + 1 = (segments.map fun seg => seg.length + 1).sum := by
    simpa using countP_intercalate (fun _ => true) '/' hne
  have hsum (segments : List (List Char)) : ((segments.filter isKept).map fun seg => seg.length + 1).sum ≤
      (segments.map fun seg => seg.length + 1).sum ∧
        (((segments.filter isKept).map fun seg => seg.length + 1).sum = (segments.map fun seg => seg.length + 1).sum →
          ∀ seg ∈ segments, isKept seg = true) := by
    induction segments with
    | nil => exact ⟨le_rfl, fun _ seg hseg => absurd hseg List.not_mem_nil⟩
    | cons x segments ih =>
      rw [List.filter_cons, List.map_cons, List.sum_cons, List.forall_mem_cons]
      by_cases hx : isKept x = true
      · rw [if_pos hx, List.map_cons, List.sum_cons]
        exact ⟨by omega, fun heq => ⟨hx, ih.2 (by omega)⟩⟩
      · rw [if_neg hx]
        exact ⟨by omega, fun heq => by omega⟩
  have hall := hlength segments fun hnil => h (by rw [hnil]; rfl)
  have hkept := hlength _ h
  obtain ⟨hle, heq⟩ := hsum segments
  exact ⟨by omega, fun hsame => heq (by omega)⟩

/-- Only a plain name is found under itself. -/
theorem plain_of_erase (h : IsSymbolicName name)
    (herase : cutAll privatePart 0 (publicUrl .PRIVATE name) = name) : IsPlainName name := by
  have hpart : cutAll privatePart 0 (quote filepathSafe (resolvedName name)) = name := by
    rwa [publicUrl_eq h, ← privatePart_eq, cutAll_append (by decide)] at herase
  have hjoin : ['/'].intercalate (name.splitOn '/') = name := List.intercalate_splitOn '/'
  have hresolvedCount : (resolvedName name).countP isEscape = name.countP isEscape := by
    rw [resolvedName, countP_keptSegments, hjoin]
  -- the characters of the escapes survive, so there are none
  have hcount : (quote filepathSafe (resolvedName name)).countP isEscape = (resolvedName name).countP isEscape := by
    have hnone : ∀ c ∈ privatePart, isEscape c = false := by
      have hall : privatePart.all (fun c => !isEscape c) = true := by decide
      exact fun c hc => by simpa using List.all_eq_true.1 hall c hc
    rw [← countP_cutAll (show privatePart ≠ [] by decide) hnone, hpart, hresolvedCount]
  have hsafe := (countP_quote (resolvedName name)).2 hcount
  rw [quote_eq_self hsafe] at hpart
  -- nothing is dropped or taken out, or the name would be too short
  have hne : (name.splitOn '/').filter isKept ≠ [] := by
    obtain ⟨segments, last, hsegments⟩ : ∃ segments last, name.splitOn '/' = segments ++ [last] :=
      ⟨_, _, (List.dropLast_append_getLast (List.splitOn_ne_nil '/' name)).symm⟩
    have hlast := h.fileName last (by rw [hsegments, List.getLast?_concat])
    have hkept : isKept last = true := by
      rw [isKept, decide_eq_true hlast.1, decide_eq_true hlast.2]
      rfl
    rw [hsegments, filter_concat hkept]
    exact List.append_ne_nil_of_right_ne_nil _ (List.cons_ne_nil _ _)
  obtain ⟨hle, hsame⟩ := length_intercalate_filter hne
  have hresolved : ['/'].intercalate ((name.splitOn '/').filter isKept) = resolvedName name := rfl
  rw [hresolved, hjoin] at hle hsame
  have herased : (cutAll privatePart 0 (resolvedName name)).length ≤ (resolvedName name).length :=
    length_cutAll_le 0 _
  rw [hpart] at herased
  have hkeeps := hsame (le_antisymm hle herased)
  have hwhole : resolvedName name = name := by
    rw [resolvedName, List.filter_eq_self.2 hkeeps, hjoin]
  refine ⟨hwhole ▸ hsafe, fun seg hseg => ?_, fun hinfix => ?_⟩
  · simpa [isKept] using hkeeps seg hseg
  · have hshorter := length_cutAll_lt (show privatePart ≠ [] by decide) hinfix
    rw [← hwhole, hpart, hwhole] at hshorter
    exact lt_irrefl _ hshorter

/-- A URL that leads to its file is the one of a plain name. -/
theorem plain_of_served (h : IsSymbolicName name) {now hours now' : ℚ≥0} {fileReference : FileReference}
    {resp : HttpResponse}
    (hserved : answerMedia signing database references now'
      (Request.ofUrl (privateUrl signing database name now hours)) = .served (String.ofList name) fileReference resp) :
    IsPlainName name := by
  unfold answerMedia dispatch at hserved
  split_ifs at hserved with hroutes hcheck
  have hpath := media_starts_of_routes hroutes
  have hurl := (eq_of_checkSignature h hpath rfl hcheck).2.1
  rw [getFile_eq hpath, hurl] at hserved
  refine plain_of_erase h ?_
  split at hserved
  · exact String.ofList_injective (Answer.served.inj hserved).1
  · cases hserved

/-- A URL of an hour has not expired at once. -/
theorem expiresAt_pos : (0 : ℚ≥0) < expiresAt 0 1 := by
  have hexpires : expiresAt 0 1 = 3600 := by
    rw [expiresAt, zero_add, one_mul]
    exact Nat.floor_ofNat 3600
  rw [hexpires]
  norm_num

/-- **The URL of a name makes its round trip exactly when the name is plain.** -/
theorem roundTrips_iff (h : IsSymbolicName name) {fileReference : FileReference}
    (href : references.get (.PRIVATE, String.ofList name) = some fileReference) :
    RoundTrips signing database references name ↔ IsPlainName name := by
  constructor
  · intro hround
    obtain ⟨ref, -, hserved⟩ := hround.served 0 1 0 expiresAt_pos
    exact plain_of_served h hserved
  · intro hplain
    exact ⟨fun _ _ _ hlt => ⟨fileReference, href, serve_of_plain h hplain href hlt⟩,
      fun _ _ _ _ _ _ hroutes hsignature hchanged => changed_refused h hroutes hsignature hchanged⟩

end

/-! ## Signatures that are what they sign -/

def hexByte (b : ℕ) : List Char := [hexDigit (b / 16), hexDigit (b % 16)]

/-- A text in hexadecimal digits. -/
def hexText (s : List Char) : List Char := (s.flatMap utf8Encode).flatMap hexByte

theorem hexBytes_injective {bytes bytes' : List ℕ} (h : ∀ b ∈ bytes, b < 0x100) (h' : ∀ b ∈ bytes', b < 0x100)
    (heq : bytes.flatMap hexByte = bytes'.flatMap hexByte) : bytes = bytes' := by
  induction bytes generalizing bytes' with
  | nil =>
    cases bytes' with
    | nil => rfl
    | cons b' bytes' => cases heq
  | cons b bytes ih =>
    cases bytes' with
    | nil => cases heq
    | cons b' bytes' =>
      obtain ⟨hb, hbytes⟩ := List.forall_mem_cons.1 h
      obtain ⟨hb', hbytes'⟩ := List.forall_mem_cons.1 h'
      obtain ⟨hhigh, hrest⟩ := List.cons.inj heq
      obtain ⟨hlow, hrest⟩ := List.cons.inj hrest
      have hvalue {m n : ℕ} (hm : m < 16) (hn : n < 16) (hmn : hexDigit m = hexDigit n) : m = n :=
        Option.some.inj ((hexValue_hexDigit m hm).symm.trans ((congrArg hexValue hmn).trans (hexValue_hexDigit n hn)))
      have hquotient := hvalue (by omega) (by omega) hhigh
      have hremainder := hvalue (by omega) (by omega) hlow
      have hsame : b = b' := by omega
      rw [hsame, ih hbytes hbytes' hrest]

theorem hexText_injective : Function.Injective hexText := by
  intro s t h
  have hlt (s : List Char) : ∀ b ∈ s.flatMap utf8Encode, b < 0x100 := by
    intro b hb
    obtain ⟨c, -, hc⟩ := List.mem_flatMap.1 hb
    exact utf8Encode_lt c b hc
  rw [← read_utf8Encode s, hexBytes_injective (hlt s) (hlt t) h, read_utf8Encode]

theorem isAlphanum_of_mem_hexText {s : List Char} {c : Char} (h : c ∈ hexText s) : c.isAlphanum = true := by
  obtain ⟨b, hb, hc⟩ := List.mem_flatMap.1 h
  obtain ⟨d, -, hd⟩ := List.mem_flatMap.1 hb
  have hlt := utf8Encode_lt d b hd
  simp only [hexByte, List.mem_cons, List.not_mem_nil, or_false] at hc
  obtain rfl | rfl := hc <;> exact hexDigit_alphanum _ (by omega)

def plainSigning : Signing where
  base64Hmac salt value := hexText salt ++ '_' :: hexText value
  base64Hmac_inj {salt salt' value value'} h := by
    have hmark (s : List Char) : '_' ∉ hexText s := fun hmem => absurd (isAlphanum_of_mem_hexText hmem) (by decide)
    have hsalt := congrArg (fun w => (partition '_' w).1) h
    have hvalue := congrArg (fun w => (partition '_' w).2) h
    simp only [partition_append (hmark _)] at hsalt hvalue
    exact ⟨hexText_injective hsalt, hexText_injective hvalue⟩
  base64Hmac_ne_nil salt value := List.append_ne_nil_of_right_ne_nil _ (List.cons_ne_nil _ _)
  base64Hmac_safe salt value c hc := by
    rw [List.mem_append, List.mem_cons] at hc
    obtain hc | rfl | hc := hc
    · rw [isAlwaysSafe, isAlphanum_of_mem_hexText hc, Bool.true_or]
    · decide
    · rw [isAlwaysSafe, isAlphanum_of_mem_hexText hc, Bool.true_or]
  int := decimalReader

/-- The references of one private file. -/
def oneReference (name : String) : Table (Privacy × String) FileReference :=
  Table.empty.insert (.PRIVATE, name) ⟨"ab/abc", "abc", some "image/png"⟩

theorem get_oneReference (name : String) :
    (oneReference name).get (.PRIVATE, name) = some ⟨"ab/abc", "abc", some "image/png"⟩ := by
  simp [oneReference]

theorem isSymbolicName_of_file {name : List Char} (h : '/' ∉ name) (hslash : '\\' ∉ name)
    (hname : name ≠ [] ∧ name ≠ ['.'] ∧ name ≠ ['.', '.']) : IsSymbolicName name := by
  have hsplit : name.splitOn '/' = [name] := List.splitOn_eq_singleton h
  refine ⟨hslash, fun hhead => h (List.mem_of_mem_head? hhead), ?_, fun seg hseg => ?_⟩
  · rw [hsplit, List.mem_singleton]
    exact hname.2.2.symm
  · rw [hsplit, List.getLast?_singleton, Option.some_inj] at hseg
    subst hseg
    exact ⟨hname.1, hname.2.1⟩

theorem roundTrips_sample :
    IsSymbolicName "avatar.png".toList ∧
      (oneReference "avatar.png").get (.PRIVATE, "avatar.png") = some ⟨"ab/abc", "abc", some "image/png"⟩ ∧
        RoundTrips plainSigning "tenant".toList (oneReference "avatar.png") "avatar.png".toList := by
  have hname : IsSymbolicName "avatar.png".toList := isSymbolicName_of_file (by decide) (by decide) (by decide)
  have href := get_oneReference "avatar.png"
  have hplain : IsPlainName "avatar.png".toList := by
    refine ⟨List.all_eq_true.mp (by decide), fun seg hseg => ?_, by decide⟩
    rw [List.splitOn_eq_singleton (by decide)] at hseg
    obtain rfl := List.mem_singleton.mp hseg
    decide
  exact ⟨hname, href, (roundTrips_iff hname href).2 hplain⟩

/-- The view looks for the quoted name. -/
theorem accented_name : ¬ ∀ (signing : Signing) (database : List Char)
    (references : Table (Privacy × String) FileReference) (name : List Char) (fileReference : FileReference),
    IsSymbolicName name → references.get (.PRIVATE, String.ofList name) = some fileReference →
      RoundTrips signing database references name := by
  intro h
  have hname : IsSymbolicName ['é', '.', 'p', 'n', 'g'] :=
    isSymbolicName_of_file (by decide) (by decide) (by decide)
  have hround := h plainSigning [] (oneReference (String.ofList ['é', '.', 'p', 'n', 'g'])) _ _ hname
    (get_oneReference _)
  obtain ⟨ref, -, hserved⟩ := hround.served 0 1 0 expiresAt_pos
  exact absurd ((plain_of_served hname hserved).safe 'é' List.mem_cons_self) (by decide)

end Totem.Files
