import Totem.Lib.Percent
import Totem.Lib.Words
import Totem.Lib.Dict
import Totem.Lib.Url

/-!
# Totem.Lib.QueryString — the parameters of a query

Python's `parse_qsl`, `parse_qs` and `urlencode(doseq=True)`.  A parameter may be repeated, and its values are in the
order they came in.

* `parseQsl_urlencode`: what is encoded is read back, pair by pair.
* `get_parseQs_urlencode`: so are the values of each parameter of a dict, in whatever order its entries are written.
-/

namespace Totem.Lib.QueryString

open Totem.Lib Totem.Lib.Percent Totem.Lib.Url

/-! ## Parameters with many values -/

section

variable {κ α : Type*} [DecidableEq κ]

/-- `parsed_result[name].append(value)`. -/
def appendValue (parsed : Dict κ (List α)) (field : κ × α) : Dict κ (List α) :=
  parsed.set field.1 ((parsed.get field.1).getD [] ++ [field.2])

/-- The fields of a parameter with many values. -/
def fieldsOf (param : κ × List α) : List (κ × α) := param.2.map fun v => (param.1, v)

/-- The values a list of fields has for a parameter. -/
def valuesOf (fields : List (κ × α)) (k : κ) : List α := (fields.filter fun field => decide (field.1 = k)).map Prod.snd

/-- No value at all is no parameter. -/
def present (values : List α) : Option (List α) := if values.isEmpty then none else some values

omit [DecidableEq κ] in
theorem present_ne_nil (values : List α) : present values ≠ some [] := by
  cases values with
  | nil => exact Option.some_ne_none _ ∘ Eq.symm
  | cons v values => exact fun h => List.cons_ne_nil _ _ (Option.some.inj h)

omit [DecidableEq κ] in
theorem present_getD {values : Option (List α)} (h : values ≠ some []) : present (values.getD []) = values := by
  cases values with
  | none => rfl
  | some values =>
    cases values with
    | nil => exact absurd rfl h
    | cons v values => rfl

theorem get_foldl_appendValue (fields : List (κ × α)) (parsed : Dict κ (List α)) (k : κ)
    (hparsed : parsed.get k ≠ some []) : (fields.foldl appendValue parsed).get k =
      present ((parsed.get k).getD [] ++ valuesOf fields k) := by
  induction fields generalizing parsed with
  | nil =>
    rw [List.foldl_nil, valuesOf, List.filter_nil, List.map_nil, List.append_nil, present_getD hparsed]
  | cons field fields ih =>
    have hget : (appendValue parsed field).get k = if k = field.1 then some ((parsed.get field.1).getD [] ++ [field.2])
        else parsed.get k := Dict.get_set
    have hnext : (appendValue parsed field).get k ≠ some [] := by
      rw [hget]
      split_ifs
      · intro h
        exact List.append_ne_nil_of_right_ne_nil _ (List.cons_ne_nil _ _) (Option.some.inj h)
      · exact hparsed
    rw [List.foldl_cons, ih _ hnext, hget, valuesOf, valuesOf, List.filter_cons]
    by_cases hk : k = field.1
    · subst hk
      rw [if_pos rfl, if_pos (decide_eq_true rfl), Option.getD_some, List.map_cons, List.append_assoc,
        List.singleton_append]
    · have hk' : ¬ decide (field.1 = k) = true := fun h => hk (of_decide_eq_true h).symm
      rw [if_neg hk, if_neg hk']

theorem valuesOf_fieldsOf (param : κ × List α) (k : κ) :
    valuesOf (fieldsOf param) k = if param.1 = k then param.2 else [] := by
  have hfilter : (fieldsOf param).filter (fun field => decide (field.1 = k)) =
      if param.1 = k then fieldsOf param else [] := by
    split_ifs with hk
    · refine List.filter_eq_self.2 fun field hfield => ?_
      obtain ⟨v, -, rfl⟩ := List.mem_map.1 hfield
      exact decide_eq_true hk
    · refine List.filter_eq_nil_iff.2 fun field hfield => ?_
      obtain ⟨v, -, rfl⟩ := List.mem_map.1 hfield
      exact fun h => hk (of_decide_eq_true h)
  rw [valuesOf, hfilter]
  split_ifs with hk
  · rw [fieldsOf, List.map_map]
    exact List.map_id _
  · rfl

theorem valuesOf_flatMap {items : List (κ × List α)} (hnodup : (items.map Prod.fst).Nodup) (k : κ) :
    valuesOf (items.flatMap fieldsOf) k = (items.lookup k).getD [] := by
  induction items with
  | nil => rfl
  | cons item items ih =>
    rw [List.map_cons, List.nodup_cons] at hnodup
    have happend : valuesOf ((item :: items).flatMap fieldsOf) k =
        valuesOf (fieldsOf item) k ++ valuesOf (items.flatMap fieldsOf) k := by
      rw [List.flatMap_cons, valuesOf, List.filter_append, List.map_append]
      rfl
    rw [happend, valuesOf_fieldsOf, ih hnodup.2, Dict.lookup_cons]
    by_cases hk : k = item.1
    · subst hk
      have hnone : items.lookup item.1 = none := by
        rw [List.lookup_eq_none_iff]
        intro e he
        have hne : item.1 ≠ e.1 := fun heq => hnodup.1 (heq ▸ List.mem_map_of_mem he)
        simpa using hne
      rw [if_pos rfl, if_pos rfl, hnone, Option.getD_some, Option.getD_none, List.append_nil]
    · rw [if_neg (Ne.symm hk), if_neg hk, List.nil_append]

/-- Entries in another order. -/
theorem lookup_perm {xs ys : List (κ × α)} (h : xs.Perm ys)
    (hnodup : (xs.map Prod.fst).Nodup) (k : κ) : xs.lookup k = ys.lookup k := by
  have hys : (ys.map Prod.fst).Nodup := (h.map Prod.fst).nodup_iff.1 hnodup
  refine Option.ext fun v => ?_
  rw [Dict.lookup_eq_some hnodup, Dict.lookup_eq_some hys, h.mem_iff]

end

/-! ## Reading and writing a query -/

/-- One field of a query; `none` where it is skipped. -/
def parseField (keepBlankValues : Bool) (nameValue : List Char) : Option (List Char × List Char) :=
  if nameValue = [] then none
  else if (partition '=' nameValue).2 ≠ [] ∨ keepBlankValues then
    some (unquotePlus (partition '=' nameValue).1, unquotePlus (partition '=' nameValue).2)
  else none

def parseQsl (qs : List Char) (keepBlankValues : Bool) : List (List Char × List Char) :=
  (qs.splitOnP fun c => decide (c = '&')).filterMap (parseField keepBlankValues)

def parseQs (qs : List Char) (keepBlankValues : Bool) : Dict (List Char) (List (List Char)) :=
  (parseQsl qs keepBlankValues).foldl appendValue .empty

def encodeField (field : List Char × List Char) : List Char := quotePlus field.1 ++ '=' :: quotePlus field.2

/-- `urlencode(items, doseq=True)`. -/
def urlencode (items : List (List Char × List (List Char))) : List Char :=
  ['&'].intercalate ((items.flatMap fieldsOf).map encodeField)

/-! ## What is encoded is read back -/

variable {keepBlankValues : Bool}

theorem quotePlus_ne_nil {s : List Char} (h : s ≠ []) : quotePlus s ≠ [] := by
  intro hnil
  have hread := unquotePlus_quotePlus s
  rw [hnil] at hread
  exact h hread.symm

theorem parseField_encodeField {field : List Char × List Char} (h : field.2 ≠ [] ∨ keepBlankValues = true) :
    parseField keepBlankValues (encodeField field) = some field := by
  have hne : encodeField field ≠ [] := List.append_ne_nil_of_right_ne_nil _ (List.cons_ne_nil _ _)
  have hpartition : partition '=' (encodeField field) = (quotePlus field.1, quotePlus field.2) :=
    partition_append (fun heq => by obtain h | h | h := mem_quotePlus heq <;> exact absurd h (by decide)) _
  rw [parseField, if_neg hne, hpartition, if_pos (h.imp_left quotePlus_ne_nil), unquotePlus_quotePlus,
    unquotePlus_quotePlus]

/-- What an encoded field is made of. -/
theorem mem_encodeField {c : Char} {field : List Char × List Char} (h : c ∈ encodeField field) :
    isAlwaysSafe c = true ∨ c ∈ ['%', '+', '='] := by
  have hquote (s : List Char) (hc : c ∈ quotePlus s) : isAlwaysSafe c = true ∨ c ∈ ['%', '+', '='] := by
    obtain hsafe | rfl | rfl := mem_quotePlus hc
    · exact Or.inl hsafe
    · exact Or.inr (by decide)
    · exact Or.inr (by decide)
  rw [encodeField, List.mem_append, List.mem_cons] at h
  obtain hc | rfl | hc := h
  · exact hquote _ hc
  · exact Or.inr (by decide)
  · exact hquote _ hc

/-- **What is encoded is read back**, but for the blank values if they are not kept. -/
theorem parseQsl_urlencode {items : List (List Char × List (List Char))}
    (h : ∀ field ∈ items.flatMap fieldsOf, field.2 ≠ [] ∨ keepBlankValues = true) :
    parseQsl (urlencode items) keepBlankValues = items.flatMap fieldsOf := by
  unfold parseQsl urlencode
  cases hfields : items.flatMap fieldsOf with
  | nil => rfl
  | cons field fields =>
    have hsep : ∀ w ∈ (field :: fields).map encodeField, ∀ c ∈ w, decide (c = '&') = false := by
      intro w hw c hc
      obtain ⟨f, -, rfl⟩ := List.mem_map.1 hw
      refine decide_eq_false fun heq => ?_
      subst heq
      obtain h | h := mem_encodeField hc <;> exact absurd h (by decide)
    have hne : (field :: fields).map encodeField ≠ [] := List.cons_ne_nil _ _
    rw [splitOnP_intercalate (by rfl) hne hsep, List.filterMap_map]
    refine (List.filterMap_congr fun f hf => ?_).trans List.filterMap_some
    exact parseField_encodeField (h f (hfields ▸ hf))

/-- What an encoded query is made of. -/
theorem mem_urlencode {c : Char} {items : List (List Char × List (List Char))} (h : c ∈ urlencode items) :
    isAlwaysSafe c = true ∨ c ∈ ['%', '+', '=', '&'] := by
  unfold urlencode at h
  have hfield (field : List Char × List Char) (hc : c ∈ encodeField field) :
      isAlwaysSafe c = true ∨ c ∈ ['%', '+', '=', '&'] :=
    (mem_encodeField hc).imp_right fun hmem => List.mem_append_left ['&'] hmem
  generalize items.flatMap fieldsOf = fields at h
  induction fields with
  | nil => exact absurd h List.not_mem_nil
  | cons field fields ih =>
    cases fields with
    | nil =>
      rw [List.map_singleton, List.intercalate_singleton] at h
      exact hfield field h
    | cons field' fields =>
      rw [List.map_cons, List.map_cons, List.intercalate_cons_cons, List.mem_append, List.mem_append,
        List.mem_singleton] at h
      obtain (hc | rfl) | hc := h
      · exact hfield field hc
      · exact Or.inr (by decide)
      · exact ih hc

theorem not_mem_urlencode {c : Char} (hc : c ∈ ['#', '?', '\t', '\n', '\r'])
    (items : List (List Char × List (List Char))) : c ∉ urlencode items := by
  intro h
  simp only [List.mem_cons, List.not_mem_nil, or_false] at hc
  obtain rfl | rfl | rfl | rfl | rfl := hc <;> obtain h | h := mem_urlencode h <;> exact absurd h (by decide)

theorem get_parseQs (qs : List Char) (keepBlankValues : Bool) (k : List Char) :
    (parseQs qs keepBlankValues).get k = present (valuesOf (parseQsl qs keepBlankValues) k) := by
  rw [parseQs, get_foldl_appendValue _ _ _ (by simp), Dict.get_empty, Option.getD_none, List.nil_append]

/-- A parameter that is there has a value. -/
theorem get_parseQs_ne_nil (qs : List Char) (keepBlankValues : Bool) (k : List Char) :
    (parseQs qs keepBlankValues).get k ≠ some [] := by
  rw [get_parseQs]
  exact present_ne_nil _

/-- **The parameters of a dict are read back**, in whatever order they are written. -/
theorem get_parseQs_urlencode {d : Dict (List Char) (List (List Char))} {items : List (List Char × List (List Char))}
    (hitems : items.Perm d.entries) (hne : ∀ k, d.get k ≠ some []) (k : List Char) :
    (parseQs (urlencode items) true).get k = d.get k := by
  have hnodup : (items.map Prod.fst).Nodup := (hitems.map Prod.fst).nodup_iff.2 d.nodup
  rw [get_parseQs, parseQsl_urlencode fun _ _ => Or.inr rfl, valuesOf_flatMap hnodup, lookup_perm hitems hnodup]
  exact present_getD (hne k)

end Totem.Lib.QueryString
