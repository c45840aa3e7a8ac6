import Totem.Lib.Dict
import Totem.Lib.Fallible
import Totem.Lib.StableSort
import Totem.Lib.Words
import Totem.Orm.OrderBy

/-!
# Totem.Api.Ordering — the ordering parameter of a list

* `orderingList`: `Ordering.ordering_queryset` of a list, a sort for each key, the last one first.
* `ordering_list`: this is one stable sort, by the keys in their order.
* `Declaration.default`, `Declaration.parse`: the default that `Input` declares, and what a parameter is read as.
* `default_round_trip_iff`: the declarations whose default is read as it is declared.
-/

namespace Totem.Api

open Std Totem.Lib

/-! ## Keys -/

/-- `o.startswith("-")`. -/
def descending (o : String) : Bool := o.toList.head? == some '-'

/-- `o[int(o.startswith("-")):]`. -/
def bareName (o : String) : String := if descending o then String.ofList o.toList.tail else o

/-! ## Lists -/

/-- What an item sort raises: what a getter does, or two values that do not compare. -/
inductive SortError (ε : Type*)
  | getter (e : ε)
  | typeError

/-- What the items of a list are to Python.  Values of one kind compare with each other; one without a kind, as
`None`, with no other. -/
structure Items (α V K ε : Type*) where
  isDict : α → Bool
  itemgetter : String → α → Except ε V
  attrgetter : String → α → Except ε V
  kind : V → Option K

/-- Two values compare. -/
def Items.SameKind {α V K ε : Type*} (P : Items α V K ε) (v w : V) : Prop :=
  (P.kind v).isSome = true ∧ P.kind v = P.kind w

instance {α V K ε : Type*} [DecidableEq K] (P : Items α V K ε) : DecidableRel P.SameKind :=
  fun _ _ => inferInstanceAs (Decidable (_ ∧ _))

variable {α V K ε : Type*} [Ord V] [DecidableEq K]

/-- Two items by a key, the other way round if `reverse`. -/
def keyCompare (key : α → Except ε V) (reverse : Bool) (a b : α) : Ordering :=
  compareOption false (if reverse then fun x y => Ord.compare y x else Ord.compare) (key a).toOption (key b).toOption

/-- `xs.sort(key=key, reverse=reverse)`: stable, also when it is reversed. -/
def sortBy (P : Items α V K ε) (xs : List α) (key : α → Except ε V) (reverse : Bool) :
    Except (SortError ε) (List α) :=
  match xs.mapM key with
  | .error e => .error (.getter e)
  | .ok values =>
    if values.Pairwise P.SameKind then
      .ok (xs.mergeSort fun a b => (keyCompare key reverse a b).isLE)
    else .error .typeError

/-- `itemgetter` or `attrgetter`, by the first of the items. -/
def Items.operator (P : Items α V K ε) (xs : List α) : String → α → Except ε V :=
  if xs.head?.any P.isDict then P.itemgetter else P.attrgetter

/-- `multisort`. -/
def multisort (P : Items α V K ε) (xs : List α) (specs : List (String × Bool)) : Except (SortError ε) (List α) :=
  specs.reverse.foldlM (fun ys spec => sortBy P ys (P.operator xs spec.1) spec.2) xs

/-- `Ordering.ordering_queryset` of a list. -/
def orderingList (P : Items α V K ε) (items : List α) (ordering : List String) : Except (SortError ε) (List α) :=
  if ordering = [] ∨ items = [] then .ok items
  else multisort P items (ordering.map fun o => (bareName o, descending o))

section Lists

variable {P : Items α V K ε} {xs ys : List α} {key : α → Except ε V} {reverse : Bool}

/-- Every item has a value, and any two of these compare. -/
def Comparable (P : Items α V K ε) (xs : List α) (key : α → Except ε V) : Prop :=
  (∀ a ∈ xs, ∃ v, key a = .ok v) ∧
    xs.Pairwise fun a b => ∀ v w, key a = .ok v → key b = .ok w → P.SameKind v w

omit [Ord V] [DecidableEq K] in
theorem Items.SameKind.symm {v w : V} (h : P.SameKind v w) : P.SameKind w v := ⟨h.2 ▸ h.1, h.2.symm⟩

omit [Ord V] [DecidableEq K] in
theorem Comparable.perm (h : Comparable P xs key) (hperm : ys.Perm xs) : Comparable P ys key := by
  refine ⟨fun a ha => h.1 a (hperm.mem_iff.mp ha), h.2.perm hperm.symm ?_⟩
  exact fun hab v w hv hw => (hab w v hw hv).symm

omit [Ord V] [DecidableEq K] in
/-- The values of the items, where they have some, compare as the items do. -/
theorem pairwise_values_iff {values : List V} (h : xs.mapM key = .ok values) :
    values.Pairwise P.SameKind ↔ xs.Pairwise fun a b => ∀ v w, key a = .ok v → key b = .ok w → P.SameKind v w := by
  have hforall := mapM_eq_ok.mp h
  clear h
  induction hforall with
  | nil => exact iff_of_true .nil .nil
  | @cons a v xs values hav hforall ih =>
    rw [List.pairwise_cons, List.pairwise_cons]
    refine and_congr ⟨fun h b hb v' w hv' hw => ?_, fun h w hw => ?_⟩ ih
    · obtain ⟨w', hw', hbw⟩ := forall₂_left hforall b hb
      rw [← Except.ok.inj (hav.symm.trans hv'), ← Except.ok.inj (hbw.symm.trans hw)]
      exact h w' hw'
    · obtain ⟨b, hb, hbw⟩ := forall₂_right hforall w hw
      exact h b hb v w hav hbw

theorem transCmp_keyCompare [TransOrd V] : TransCmp (keyCompare key reverse) := by
  refine transCmp_on (fun a => (key a).toOption) ?_
  cases reverse with
  | false => exact inferInstanceAs (TransCmp (compareOption false Ord.compare))
  | true => exact inferInstanceAs (TransCmp (compareOption false fun x y => Ord.compare y x))

/-- **One sort**: it is done where the items compare, and then it is stable. -/
theorem sortBy_spec [TransOrd V] (P : Items α V K ε) (xs : List α) (key : α → Except ε V) (reverse : Bool) :
    (Comparable P xs key ∧ ∃ ys, sortBy P xs key reverse = .ok ys ∧ StableSorted (keyCompare key reverse) xs ys) ∨
      ¬ Comparable P xs key ∧ ∃ e, sortBy P xs key reverse = .error e := by
  have hcmp : TransCmp (keyCompare key reverse) := transCmp_keyCompare
  cases hvalues : xs.mapM key with
  | error e =>
    refine .inr ⟨fun h => ?_, .getter e, by rw [sortBy, hvalues]⟩
    obtain ⟨values, hok⟩ := exists_mapM_eq_ok.mpr h.1
    rw [hvalues] at hok
    cases hok
  | ok values =>
    by_cases hkind : values.Pairwise P.SameKind
    · refine .inl ⟨⟨exists_mapM_eq_ok.mp ⟨values, hvalues⟩, (pairwise_values_iff hvalues).mp hkind⟩, _, ?_,
        stableSorted_mergeSort xs⟩
      rw [sortBy, hvalues]
      exact if_pos hkind
    · refine .inr ⟨fun h => hkind ((pairwise_values_iff hvalues).mpr h.2), .typeError, ?_⟩
      rw [sortBy, hvalues]
      exact if_neg hkind

/-- The comparator of each spec, in their order. -/
def specCompares (getter : String → α → Except ε V) (specs : List (String × Bool)) : List (α → α → Ordering) :=
  specs.map fun spec => keyCompare (getter spec.1) spec.2

/-- **The sorts, from the last spec to the first.** -/
theorem foldlM_sortBy [TransOrd V] (P : Items α V K ε) (xs : List α) (getter : String → α → Except ε V)
    (specs : List (String × Bool)) :
    ((∀ spec ∈ specs, Comparable P xs (getter spec.1)) ∧
        ∃ ys, specs.reverse.foldlM (fun ys spec => sortBy P ys (getter spec.1) spec.2) xs = .ok ys ∧
          StableSorted (compareAll (specCompares getter specs)) xs ys) ∨
      (¬ ∀ spec ∈ specs, Comparable P xs (getter spec.1)) ∧
        ∃ e, specs.reverse.foldlM (fun ys spec => sortBy P ys (getter spec.1) spec.2) xs = .error e := by
  induction specs with
  | nil =>
    refine .inl ⟨fun spec h => absurd h List.not_mem_nil, xs, rfl, .refl ?_⟩
    exact List.pairwise_of_forall_mem_list fun a _ b _ => rfl
  | cons spec specs ih =>
    rw [List.reverse_cons, List.foldlM_append, List.forall_mem_cons]
    rcases ih with ⟨hall, ys, hys, hsorted⟩ | ⟨hnot, e, he⟩
    · rw [hys]
      have hsame : Comparable P ys (getter spec.1) ↔ Comparable P xs (getter spec.1) :=
        ⟨fun h => h.perm hsorted.perm.symm, fun h => h.perm hsorted.perm⟩
      have hcmp : TransCmp (keyCompare (getter spec.1) spec.2) := transCmp_keyCompare
      rcases sortBy_spec P ys (getter spec.1) spec.2 with
        ⟨hcomparable, zs, hzs, hstable⟩ | ⟨hnot, e, he⟩
      · refine .inl ⟨⟨hsame.mp hcomparable, hall⟩, zs, ?_, hsorted.lex hstable⟩
        show (sortBy P ys (getter spec.1) spec.2 >>= pure) = _
        rw [hzs]
        rfl
      · refine .inr ⟨fun h => hnot (hsame.mpr h.1), e, ?_⟩
        show (sortBy P ys (getter spec.1) spec.2 >>= pure) = _
        rw [he]
        rfl
    · refine .inr ⟨fun h => hnot h.2, e, ?_⟩
      rw [he]
      rfl

/-- **A list that is ordered.**  Where the items have values that compare for each key, and there only, a list is
returned: the items in lexicographic order of the keys, each in its direction, and those that are equal in all of them
as they came. -/
theorem ordering_list [TransOrd V] (P : Items α V K ε) (items : List α) (ordering : List String) :
    ((∃ out, orderingList P items ordering = .ok out) ↔
      ∀ o ∈ ordering, Comparable P items (P.operator items (bareName o))) ∧
    ∀ out, orderingList P items ordering = .ok out →
      StableSorted (compareAll (ordering.map fun o => keyCompare (P.operator items (bareName o)) (descending o)))
        items out := by
  rw [orderingList]
  split_ifs with hempty
  · refine ⟨iff_of_true ⟨items, rfl⟩ fun o ho => ?_, fun out hout => ?_⟩
    · rcases hempty with rfl | rfl
      · exact absurd ho List.not_mem_nil
      · exact ⟨fun a ha => absurd ha List.not_mem_nil, .nil⟩
    · obtain rfl := Except.ok.inj hout
      rcases hempty with rfl | rfl
      · exact .refl (List.pairwise_of_forall_mem_list fun a _ b _ => rfl)
      · exact .refl .nil
  · have hspecs : specCompares (P.operator items) (ordering.map fun o => (bareName o, descending o)) =
        ordering.map fun o => keyCompare (P.operator items (bareName o)) (descending o) := by
      rw [specCompares, List.map_map]
      rfl
    have hsort := foldlM_sortBy P items (P.operator items) (ordering.map fun o => (bareName o, descending o))
    rw [hspecs, List.forall_mem_map] at hsort
    rw [multisort]
    rcases hsort with ⟨hall, ys, hys, hsorted⟩ | ⟨hnot, e, he⟩
    · refine ⟨iff_of_true ⟨ys, hys⟩ hall, fun out hout => ?_⟩
      rw [hys] at hout
      rwa [← Except.ok.inj hout]
    · rw [he]
      refine ⟨iff_of_false ?_ hnot, fun out hout => ?_⟩
      · rintro ⟨out, hout⟩
        cases hout
      · cases hout

/-- Dicts of two numbers. -/
def pairs : Items (ℕ × ℕ) ℕ Unit Unit where
  isDict _ := true
  itemgetter name pair := .ok (if name = "first" then pair.1 else pair.2)
  attrgetter _ _ := .error ()
  kind _ := some ()

theorem ordering_list_pairs : ∃ out, orderingList pairs [(1, 5), (2, 7), (1, 6)] ["-first", "second"] = .ok out ∧
    StableSorted (compareAll (["-first", "second"].map fun o =>
      keyCompare (pairs.operator [(1, 5), (2, 7), (1, 6)] (bareName o)) (descending o)))
      [(1, 5), (2, 7), (1, 6)] out := by
  have hlist := ordering_list pairs [(1, 5), (2, 7), (1, 6)] ["-first", "second"]
  obtain ⟨out, hout⟩ := hlist.1.mpr fun _ _ =>
    ⟨fun _ _ => ⟨_, rfl⟩, List.pairwise_of_forall fun _ _ _ _ _ _ => ⟨rfl, rfl⟩⟩
  exact ⟨out, hout, hlist.2 out hout⟩

end Lists

/-! ## The parameter -/

/-- What a list endpoint declares: its fields by their ORM names, the public names of a schema, and the keys that it
orders by when nothing is asked for.  `primaryKey` is the field that `pk` stands for. -/
structure Declaration where
  ormToPublic : Dict String String
  orderingFields : List String
  defaultOrderingFields : List Orm.OrderKey
  primaryKey : String
  ne_nil : orderingFields ≠ []
  noDash : ∀ fname ∈ orderingFields, '-' ∉ fname.toList
  subset : ∀ key ∈ defaultOrderingFields, key.name ∈ orderingFields

/-- `orm_to_public.get(fname, fname)`. -/
def publicName (ormToPublic : Dict String String) (fname : String) : String := (ormToPublic.get fname).getD fname

/-- `field_map`: the fields by their public names. -/
def fieldMap (ormToPublic : Dict String String) (orderingFields : List String) : Dict String String :=
  orderingFields.foldl (fun map fname => map.set (publicName ormToPublic fname) fname) .empty

/-- `orm_to_token`. -/
def ormToToken (fieldMap : Dict String String) : Dict String String :=
  fieldMap.entries.foldl (fun map e => map.set e.2 e.1) .empty

/-- One of `translated_defaults`. -/
def translatedDefault (fieldMap : Dict String String) (fname : String) : String :=
  let token := ((ormToToken fieldMap).get (bareName fname)).getD (bareName fname)
  if descending fname then "-" ++ token else token

/-- `self.default_ordering_fields`. -/
def translatedDefaults (fieldMap : Dict String String) (defaultOrderingFields : List String) : List String :=
  let translated := defaultOrderingFields.map (translatedDefault fieldMap)
  if translated = [] then ["pk"] else translated

/-- `allowed_field_map`: each field, and then each with a sign. -/
def allowedFieldMap (fieldMap : Dict String String) : Dict String String :=
  fieldMap.entries.foldl (fun map e => map.set ("-" ++ e.1) ("-" ++ e.2)) fieldMap

/-- `DelimiterList.validate` of a text. -/
def delimiterList (value : String) : List String :=
  (value.toList.splitOnP fun c => c = ',').map String.ofList

/-- `MultiChoices.validate`, where the choices are a dict. -/
def multiChoices (choices : Dict String String) (values : List String) : Except String (List String) :=
  let forbidden := values.filter fun val => decide (val ∉ choices.keys)
  if forbidden ≠ [] then .error (",".intercalate forbidden ++ " are invalid choices.")
  else .ok (values.filterMap choices.get)

theorem descending_text (key : Orm.OrderKey) : descending key.text = key.descending := by
  rw [descending, Orm.OrderKey.text]
  cases hdescending : key.descending with
  | false =>
    cases hname : key.name.toList with
    | nil => simp [hname]
    | cons c cs =>
      have hc : c ≠ '-' := fun heq => key.noDash (by rw [hname, heq]; exact List.mem_cons_self)
      simp [hname, hc]
  | true => simp

theorem bareName_text (key : Orm.OrderKey) : bareName key.text = key.name := by
  rw [bareName, descending_text, Orm.OrderKey.text]
  cases key.descending with
  | false => simp
  | true => simp

theorem multiChoices_eq_ok_iff {choices : Dict String String} {values names : List String} :
    multiChoices choices values = .ok names ↔ values.map choices.get = names.map some := by
  have hforbidden : values.filter (fun val => decide (val ∉ choices.keys)) = [] ↔
      ∀ val ∈ values, (choices.get val).isSome := by
    rw [List.filter_eq_nil_iff]
    refine forall₂_congr fun val _ => ?_
    rw [decide_eq_true_iff, not_not, Dict.mem_keys, Option.isSome_iff_exists]
  rw [multiChoices]
  by_cases hall : ∀ val ∈ values, (choices.get val).isSome
  · rw [if_neg (not_not.mpr (hforbidden.mpr hall)), Except.ok.injEq, ← map_some_filterMap hall]
    exact (List.map_inj_right fun _ _ => Option.some.inj).symm
  · rw [if_pos fun h => hall (hforbidden.mp h)]
    refine iff_of_false (fun heq => by cases heq) fun heq => hall fun val hval => ?_
    have hmem : choices.get val ∈ names.map some := heq ▸ List.mem_map_of_mem hval
    obtain ⟨name, _, hname⟩ := List.mem_map.mp hmem
    rw [← hname]
    rfl

theorem forall_ne_comma_iff {text : String} :
    (∀ c ∈ text.toList, decide (c = ',') = false) ↔ ',' ∉ text.toList := by
  simp only [decide_eq_false_iff_not]
  exact ⟨fun h hmem => h _ hmem rfl, fun h c hc heq => h (heq ▸ hc)⟩

/-- Texts that are joined are split into as many where none has a comma, and there only. -/
theorem length_delimiterList_iff {texts : List String} (hne : texts ≠ []) :
    (delimiterList (",".intercalate texts)).length = texts.length ↔ ∀ text ∈ texts, ',' ∉ text.toList := by
  have hmap : texts.map String.toList ≠ [] := fun hnil => hne (List.map_eq_nil_iff.mp hnil)
  have hsplit := @length_splitOnP_intercalate Char (fun c => decide (c = ',')) ',' (decide_eq_true rfl) _ hmap
  rw [List.length_map, List.forall_mem_map] at hsplit
  rw [delimiterList, List.length_map, String.toList_intercalate]
  exact hsplit.trans (forall₂_congr fun text _ => forall_ne_comma_iff)

theorem delimiterList_intercalate {texts : List String} (hne : texts ≠ []) (h : ∀ text ∈ texts, ',' ∉ text.toList) :
    delimiterList (",".intercalate texts) = texts := by
  have hmap : texts.map String.toList ≠ [] := fun hnil => hne (List.map_eq_nil_iff.mp hnil)
  have hcomma : ∀ w ∈ texts.map String.toList, ∀ c ∈ w, decide (c = ',') = false := by
    rw [List.forall_mem_map]
    exact fun text htext => forall_ne_comma_iff.mpr (h text htext)
  have hsplit := @splitOnP_intercalate Char (fun c => decide (c = ',')) ',' (decide_eq_true rfl) _ hmap hcomma
  rw [delimiterList, String.toList_intercalate]
  show (([','].intercalate (texts.map String.toList)).splitOnP fun c => decide (c = ',')).map String.ofList = texts
  rw [hsplit, List.map_map]
  exact (List.map_congr_left fun text _ => String.ofList_toList).trans (List.map_id' texts)

/-- Joined texts, split again and looked up. -/
theorem multiChoices_intercalate_iff {choices : Dict String String} {texts names : List String} (hne : texts ≠ [])
    (hlength : names.length = texts.length) :
    multiChoices choices (delimiterList (",".intercalate texts)) = .ok names ↔
      (∀ text ∈ texts, ',' ∉ text.toList) ∧ texts.map choices.get = names.map some := by
  rw [multiChoices_eq_ok_iff]
  constructor
  · intro heq
    have hlengths := congrArg List.length heq
    rw [List.length_map, List.length_map, hlength] at hlengths
    have hcomma := (length_delimiterList_iff hne).mp hlengths
    rw [delimiterList_intercalate hne hcomma] at heq
    exact ⟨hcomma, heq⟩
  · rintro ⟨hcomma, heq⟩
    rwa [delimiterList_intercalate hne hcomma]

namespace Declaration

variable (d : Declaration)

def fieldMap : Dict String String := Api.fieldMap d.ormToPublic d.orderingFields

/-- The default of the parameter. -/
def default : String := ",".intercalate (translatedDefaults d.fieldMap (d.defaultOrderingFields.map Orm.OrderKey.text))

/-- What the parameter is read as. -/
def parse (value : String) : Except String (List String) :=
  multiChoices (allowedFieldMap d.fieldMap) (delimiterList value)

/-- The order that is declared, which is by the primary key if there is none. -/
def Declares (names : List String) : Prop :=
  if d.defaultOrderingFields = [] then names = ["pk"] ∨ names = [d.primaryKey]
  else names = d.defaultOrderingFields.map Orm.OrderKey.text

/-- The default is accepted, as the order that is declared. -/
def RoundTrips : Prop := ∃ names, d.parse d.default = .ok names ∧ d.Declares names

/-- The field of a public name: the last of those that have it. -/
def named (name : String) : Option String :=
  d.orderingFields.findRev? fun fname => decide (publicName d.ormToPublic fname = name)

/-- The public name of a default stands for its field alone, has no comma, and is not another name with a sign; and
without a default, `pk` is a public name of the primary key. -/
structure Invertible : Prop where
  pk : d.defaultOrderingFields = [] → d.named "pk" = some "pk" ∨ d.named "pk" = some d.primaryKey
  named : ∀ key ∈ d.defaultOrderingFields, d.named (publicName d.ormToPublic key.name) = some key.name
  noComma : ∀ key ∈ d.defaultOrderingFields, ',' ∉ (publicName d.ormToPublic key.name).toList
  noSign : ∀ key ∈ d.defaultOrderingFields, key.descending = false →
    ∀ fname ∈ d.orderingFields, publicName d.ormToPublic key.name ≠ "-" ++ publicName d.ormToPublic fname

variable {d}

theorem get_fieldMap {token : String} : d.fieldMap.get token = d.named token := by
  rw [fieldMap, Api.fieldMap, Dict.get_foldl_set, Dict.get_empty, Option.or_none]
  exact Option.map_id'

theorem of_named {token fname : String} (h : d.named token = some fname) :
    fname ∈ d.orderingFields ∧ publicName d.ormToPublic fname = token := by
  obtain ⟨hmem, hname⟩ := Dict.of_findRev? h
  exact ⟨hmem, of_decide_eq_true hname⟩

theorem exists_named_iff {token : String} :
    (∃ fname, d.named token = some fname) ↔ ∃ fname ∈ d.orderingFields, publicName d.ormToPublic fname = token := by
  constructor
  · exact fun ⟨fname, h⟩ => ⟨fname, of_named h⟩
  · rintro ⟨fname, hmem, hname⟩
    cases hfound : d.named token with
    | some fname' => exact ⟨fname', rfl⟩
    | none =>
      have hfalse := Dict.findRev?_eq_none_iff.mp hfound fname hmem
      exact absurd (decide_eq_true hname) (Bool.eq_false_iff.mp hfalse)

/-- The token of a default is the public name of its field, unless another field took that name. -/
theorem named_token_iff {fname : String} :
    d.named (((ormToToken d.fieldMap).get fname).getD fname) = some fname ↔
      d.named (publicName d.ormToPublic fname) = some fname := by
  have hget : (ormToToken d.fieldMap).get fname =
      (d.fieldMap.entries.findRev? fun e => decide (e.2 = fname)).map Prod.fst := by
    rw [ormToToken, Dict.get_foldl_set, Dict.get_empty, Option.or_none]
  rw [hget]
  cases hfound : d.fieldMap.entries.findRev? fun e => decide (e.2 = fname) with
  | some e =>
    obtain ⟨hmem, hname⟩ := Dict.of_findRev? hfound
    obtain rfl : e.2 = fname := of_decide_eq_true hname
    have hnamed : d.named e.1 = some e.2 := get_fieldMap.symm.trans (Dict.mem_entries.mp hmem)
    rw [Option.map_some, Option.getD_some, (of_named hnamed).2]
  | none =>
    have hnot (token : String) : d.named token ≠ some fname := by
      intro hnamed
      rw [← get_fieldMap, ← Dict.mem_entries] at hnamed
      exact Bool.eq_false_iff.mp (Dict.findRev?_eq_none_iff.mp hfound _ hnamed) (decide_eq_true rfl)
    exact iff_of_false (hnot _) (hnot _)

theorem noSign_of_named {token fname : String} (h : d.named token = some fname) (name : String) :
    fname ≠ "-" ++ name := by
  rintro rfl
  refine d.noDash _ (of_named h).1 ?_
  rw [String.toList_append]
  exact List.mem_append_left _ List.mem_cons_self

theorem get_allowedFieldMap {token : String} : (allowedFieldMap d.fieldMap).get token =
    ((d.fieldMap.entries.findRev? fun e => decide ("-" ++ e.1 = token)).map fun e => "-" ++ e.2).or
      (d.named token) := by
  rw [allowedFieldMap, Dict.get_foldl_set, get_fieldMap]

/-- A choice without a sign is the field of that name, unless it is another name with a sign. -/
theorem get_allowed_ascending_iff {token fname : String} (hname : '-' ∉ fname.toList) :
    (allowedFieldMap d.fieldMap).get token = some fname ↔
      d.named token = some fname ∧ ∀ f ∈ d.orderingFields, token ≠ "-" ++ publicName d.ormToPublic f := by
  rw [get_allowedFieldMap]
  cases hfound : d.fieldMap.entries.findRev? fun e => decide ("-" ++ e.1 = token) with
  | some e =>
    obtain ⟨hmem, htoken⟩ := Dict.of_findRev? hfound
    have hnamed : d.named e.1 = some e.2 := get_fieldMap.symm.trans (Dict.mem_entries.mp hmem)
    refine iff_of_false ?_ fun h => h.2 e.2 (of_named hnamed).1 ?_
    · rw [Option.map_some, Option.some_or, Option.some.injEq]
      rintro rfl
      rw [String.toList_append] at hname
      exact hname (List.mem_append_left _ List.mem_cons_self)
    · rw [(of_named hnamed).2]
      exact (of_decide_eq_true htoken).symm
  | none =>
    rw [Option.map_none, Option.none_or]
    refine (and_iff_left fun f hf htoken => ?_).symm
    obtain ⟨fname', hnamed⟩ := exists_named_iff.mpr ⟨f, hf, rfl⟩
    rw [← get_fieldMap, ← Dict.mem_entries] at hnamed
    exact Bool.eq_false_iff.mp (Dict.findRev?_eq_none_iff.mp hfound _ hnamed) (decide_eq_true htoken.symm)

/-- A choice with a sign is the field of the name after it, with the sign. -/
theorem get_allowed_descending_iff {token fname : String} :
    (allowedFieldMap d.fieldMap).get ("-" ++ token) = some ("-" ++ fname) ↔ d.named token = some fname := by
  have hsign : ((d.fieldMap.entries.findRev? fun e => decide ("-" ++ e.1 = "-" ++ token)).map fun e => "-" ++ e.2) =
      (d.named token).map fun name => "-" ++ name := by
    simp only [String.append_right_inj]
    rw [← get_fieldMap, ← Dict.findRev?_entries, Option.map_map]
    rfl
  rw [get_allowedFieldMap, hsign]
  cases hnamed : d.named token with
  | some name => rw [Option.map_some, Option.some_or, Option.some.injEq, Option.some.injEq, String.append_right_inj]
  | none =>
    rw [Option.map_none, Option.none_or]
    exact iff_of_false (fun h => noSign_of_named h fname rfl) (Option.some_ne_none fname).symm

/-- A default with its sign, in the public name of its field. -/
theorem translatedDefault_text {key : Orm.OrderKey} : translatedDefault d.fieldMap key.text =
    if key.descending then "-" ++ ((ormToToken d.fieldMap).get key.name).getD key.name
    else ((ormToToken d.fieldMap).get key.name).getD key.name := by
  rw [translatedDefault, descending_text, bareName_text]

/-- **One default**: it is looked up as it is declared. -/
theorem get_translatedDefault_iff {key : Orm.OrderKey} :
    (allowedFieldMap d.fieldMap).get (translatedDefault d.fieldMap key.text) = some key.text ↔
      d.named (publicName d.ormToPublic key.name) = some key.name ∧
        (key.descending = false →
          ∀ f ∈ d.orderingFields, publicName d.ormToPublic key.name ≠ "-" ++ publicName d.ormToPublic f) := by
  rw [translatedDefault_text, Orm.OrderKey.text]
  cases key.descending with
  | false =>
    rw [if_neg Bool.false_ne_true, if_neg Bool.false_ne_true, get_allowed_ascending_iff key.noDash, named_token_iff]
    refine and_congr_right fun hnamed => ?_
    rw [(of_named (named_token_iff.mpr hnamed)).2, forall_prop_of_true rfl]
  | true =>
    rw [if_pos rfl, if_pos rfl, get_allowed_descending_iff, named_token_iff]
    exact (and_iff_left fun hfalse => absurd hfalse.symm Bool.false_ne_true).symm

theorem comma_translatedDefault_iff {key : Orm.OrderKey}
    (h : d.named (publicName d.ormToPublic key.name) = some key.name) :
    ',' ∈ (translatedDefault d.fieldMap key.text).toList ↔ ',' ∈ (publicName d.ormToPublic key.name).toList := by
  rw [translatedDefault_text, (of_named (named_token_iff.mpr h)).2]
  cases key.descending with
  | false => rw [if_neg Bool.false_ne_true]
  | true => simp

/-- Without a default, the order is by `pk`, which is then a choice like the others. -/
theorem roundTrips_of_nil (h : d.defaultOrderingFields = []) :
    d.RoundTrips ↔ d.named "pk" = some "pk" ∨ d.named "pk" = some d.primaryKey := by
  have hdefault : d.default = ",".intercalate ["pk"] := by rw [default, h, List.map_nil, translatedDefaults]; rfl
  have hparse (name : String) : d.parse d.default = .ok [name] ↔ d.named "pk" = some name := by
    have hlength : [name].length = ["pk"].length := rfl
    rw [parse, hdefault, multiChoices_intercalate_iff (List.cons_ne_nil _ _) hlength, List.forall_mem_singleton,
      List.map_singleton, List.map_singleton, List.singleton_inj, and_iff_right (by decide), get_allowedFieldMap]
    have hnone : d.fieldMap.entries.findRev? (fun e => decide ("-" ++ e.1 = "pk")) = none := by
      refine Dict.findRev?_eq_none_iff.mpr fun e _ => decide_eq_false fun heq => ?_
      have hhead := congrArg (fun text => text.toList.head?) heq
      simp at hhead
    rw [hnone, Option.map_none, Option.none_or]
  simp only [RoundTrips, Declares, if_pos h]
  constructor
  · rintro ⟨names, hok, rfl | rfl⟩
    · exact .inl ((hparse _).mp hok)
    · exact .inr ((hparse _).mp hok)
  · rintro (hpk | hpk)
    · exact ⟨_, (hparse _).mpr hpk, .inl rfl⟩
    · exact ⟨_, (hparse _).mpr hpk, .inr rfl⟩

theorem roundTrips_of_ne_nil (h : d.defaultOrderingFields ≠ []) : d.RoundTrips ↔
    ∀ key ∈ d.defaultOrderingFields, ',' ∉ (translatedDefault d.fieldMap key.text).toList ∧
      (allowedFieldMap d.fieldMap).get (translatedDefault d.fieldMap key.text) = some key.text := by
  have htexts : (d.defaultOrderingFields.map Orm.OrderKey.text).map (translatedDefault d.fieldMap) ≠ [] :=
    fun hnil => h (List.map_eq_nil_iff.mp (List.map_eq_nil_iff.mp hnil))
  simp only [RoundTrips, Declares, if_neg h, exists_eq_right]
  rw [parse, default, translatedDefaults, if_neg htexts,
    multiChoices_intercalate_iff htexts (List.length_map _).symm, List.map_map, List.map_map, List.map_map,
    List.map_inj_left, List.forall_mem_map, ← forall₂_and]
  rfl

/-- **The defaults that are read as they are declared.**  The default of a list endpoint is accepted, and gives the
declared names with their signs, where each has a public name of its own without a comma, which is not another one with
a sign; and where none is declared, if `pk` is an ordering field. -/
theorem default_round_trip_iff (d : Declaration) : d.RoundTrips ↔ d.Invertible := by
  by_cases hnil : d.defaultOrderingFields = []
  · rw [roundTrips_of_nil hnil]
    have hnone {p : Orm.OrderKey → Prop} : ∀ key ∈ d.defaultOrderingFields, p key := by
      rw [hnil]
      exact fun key hkey => absurd hkey List.not_mem_nil
    exact ⟨fun hpk => ⟨fun _ => hpk, hnone, hnone, hnone⟩, fun h => h.pk hnil⟩
  · rw [roundTrips_of_ne_nil hnil]
    constructor
    · intro h
      have hget := fun key hkey => get_translatedDefault_iff.mp (h key hkey).2
      exact ⟨fun heq => absurd heq hnil, fun key hkey => (hget key hkey).1,
        fun key hkey hcomma => (h key hkey).1 ((comma_translatedDefault_iff (hget key hkey).1).mpr hcomma),
        fun key hkey => (hget key hkey).2⟩
    · intro h key hkey
      exact ⟨fun hcomma => h.noComma key hkey ((comma_translatedDefault_iff (h.named key hkey)).mp hcomma),
        get_translatedDefault_iff.mpr ⟨h.named key hkey, h.noSign key hkey⟩⟩

/-- A list of names without a default: `pk` is not among its choices. -/
theorem default_refused : ∃ d : Declaration, d.orderingFields = ["name"] ∧ d.defaultOrderingFields = [] ∧
    d.default = "pk" ∧ d.parse d.default = .error "pk are invalid choices." ∧ ¬ d.RoundTrips := by
  let d : Declaration :=
    { ormToPublic := .empty, orderingFields := ["name"], defaultOrderingFields := [], primaryKey := "id",
      ne_nil := List.cons_ne_nil _ _, noDash := by decide, subset := fun _ h => absurd h List.not_mem_nil }
  have herror : d.parse d.default = .error "pk are invalid choices." := by decide
  refine ⟨d, rfl, rfl, by decide, herror, ?_⟩
  rintro ⟨names, hok, _⟩
  rw [herror] at hok
  cases hok

end Declaration

end Totem.Api
