import Totem.Lib.Table

/-!
# Totem.Lib.ContentStore — equal contents kept once

Names are given contents, and a store keeps each content under its address.

* `Holds`: the store keeps the contents of the names, and nothing else.
* `Holds.save`: a content saved under a free name is kept once.
* `Holds.erase_last`, `Holds.erase_shared`: a name erased, with the content if no other name has it.
-/

namespace Totem.Lib

namespace Table

variable {K R : Type*} [DecidableEq K]

/-- Drop the row of a key. -/
def erase (k : K) (t : Table K R) : Table K R := t.filter fun k' _ => decide (k' ≠ k)

@[simp] theorem get_erase_self (k : K) (t : Table K R) : (t.erase k).get k = none := by
  cases h : t.get k <;> simp [erase, h, Option.filter]

theorem get_erase_of_ne {k k' : K} (h : k' ≠ k) (t : Table K R) : (t.erase k).get k' = t.get k' := by
  cases hget : t.get k' <;> simp [erase, hget, h, Option.filter]

theorem get_erase_eq_some {k k' : K} {r : R} {t : Table K R} :
    (t.erase k).get k' = some r ↔ t.get k' = some r ∧ k' ≠ k := by
  by_cases h : k' = k
  · subst h
    simp
  · simp [get_erase_of_ne h, h]

theorem erase_of_get_eq_none {k : K} {t : Table K R} (h : t.get k = none) : t.erase k = t := by
  ext1 k'
  by_cases hk : k' = k
  · rw [hk, get_erase_self, h]
  · exact get_erase_of_ne hk t

end Table

namespace ContentStore

variable {K A B : Type*} [DecidableEq A]

/-- Keep a content at its address, unless the address is taken. -/
def keep (a : A) (b : B) (store : Table A B) : Table A B :=
  if (store.get a).isSome = true then store else store.insert a b

theorem keep_of_get {a : A} {b b' : B} {store : Table A B} (h : store.get a = some b') :
    keep a b store = store := by
  simp [keep, h]

theorem keep_of_none {a : A} {b : B} {store : Table A B} (h : store.get a = none) :
    keep a b store = store.insert a b := by
  simp [keep, h]

theorem get_keep_of_ne {a a' : A} (h : a' ≠ a) (b : B) (store : Table A B) :
    (keep a b store).get a' = store.get a' := by
  unfold keep
  split_ifs
  · rfl
  · exact Table.get_insert_of_ne h b store

theorem keep_eq_self {a : A} {b : B} {store : Table A B} : keep a b store = store ↔ store.get a ≠ none := by
  cases h : store.get a with
  | none =>
    rw [keep_of_none h]
    simp only [ne_eq, not_true_eq_false, iff_false]
    intro heq
    rw [← heq, Table.get_insert_self] at h
    cases h
  | some b' => simp [keep_of_get h]

/-- What is kept at an address: the content that was there, or else the new one. -/
theorem get_keep_self (a : A) (b : B) (store : Table A B) : (keep a b store).get a = some ((store.get a).getD b) := by
  cases h : store.get a with
  | none => simp [keep_of_none h]
  | some b' => simp [keep_of_get h, h]

/-- The contents of the names are kept at their addresses, and nothing else is kept. -/
structure Holds (address : B → A) (names : Table K B) (store : Table A B) : Prop where
  kept : ∀ k b, names.get k = some b → store.get (address b) = some b
  named : ∀ a, store.get a ≠ none → ∃ k b, names.get k = some b ∧ address b = a

namespace Holds

variable {address : B → A} {names : Table K B} {store : Table A B} {k : K} {b : B}

omit [DecidableEq A] in
theorem empty : Holds address (Table.empty : Table K B) Table.empty where
  kept _ _ h := by simp at h
  named _ h := absurd rfl h

/-- The content that is kept at the address of `b` is `b`. -/
theorem get_keep (hinj : Function.Injective address) (h : Holds address names store) (b : B) :
    (keep (address b) b store).get (address b) = some b := by
  cases hget : store.get (address b) with
  | none => rw [keep_of_none hget, Table.get_insert_self]
  | some b' =>
    obtain ⟨k, b'', hk, haddress⟩ := h.named (address b) (by simp [hget])
    obtain rfl : b'' = b := hinj haddress
    rw [keep_of_get hget]
    exact h.kept k b'' hk

variable [DecidableEq K]

/-- **A content is saved** under a free name. -/
theorem save (hinj : Function.Injective address) (h : Holds address names store) (hfree : names.get k = none) :
    Holds address (names.insert k b) (keep (address b) b store) where
  kept k' b' hk' := by
    by_cases heq : address b' = address b
    · obtain rfl : b' = b := hinj heq
      exact h.get_keep hinj b'
    · have hne : k' ≠ k := by
        rintro rfl
        rw [Table.get_insert_self] at hk'
        exact heq (congrArg address (Option.some.inj hk').symm)
      rw [get_keep_of_ne heq]
      exact h.kept k' b' (by rw [← hk', Table.get_insert_of_ne hne])
  named a ha := by
    by_cases heq : a = address b
    · exact ⟨k, b, Table.get_insert_self .., heq.symm⟩
    · rw [get_keep_of_ne heq] at ha
      obtain ⟨k', b', hk', haddress⟩ := h.named a ha
      refine ⟨k', b', ?_, haddress⟩
      rw [Table.get_insert_of_ne, hk']
      rintro rfl
      rw [hfree] at hk'
      cases hk'

/-- **A name is erased with its content**, if no other name has it. -/
theorem erase_last (h : Holds address names store)
    (hlast : ∀ k' b', names.get k' = some b' → address b' = address b → k' = k) (hk : names.get k = some b) :
    Holds address (names.erase k) (store.erase (address b)) where
  kept k' b' hk' := by
    obtain ⟨hk', hne⟩ := Table.get_erase_eq_some.1 hk'
    rw [Table.get_erase_of_ne]
    · exact h.kept k' b' hk'
    · exact fun heq => hne (hlast k' b' hk' heq)
  named a ha := by
    have hne : a ≠ address b := by
      rintro rfl
      simp at ha
    rw [Table.get_erase_of_ne hne] at ha
    obtain ⟨k', b', hk', haddress⟩ := h.named a ha
    refine ⟨k', b', Table.get_erase_eq_some.2 ⟨hk', ?_⟩, haddress⟩
    rintro rfl
    rw [hk, Option.some.injEq] at hk'
    subst hk'
    exact hne haddress.symm

omit [DecidableEq A] in
/-- **A name is erased and its content stays**, if another name has it. -/
theorem erase_shared (h : Holds address names store) (hk : names.get k = some b)
    (hshared : ∃ k' b', names.get k' = some b' ∧ address b' = address b ∧ k' ≠ k) :
    Holds address (names.erase k) store where
  kept k' b' hk' := h.kept k' b' (Table.get_erase_eq_some.1 hk').1
  named a ha := by
    obtain ⟨k', b', hk', haddress⟩ := h.named a ha
    by_cases hne : k' = k
    · subst hne
      rw [hk, Option.some.injEq] at hk'
      subst hk'
      obtain ⟨k', b', hk', heq, hne⟩ := hshared
      exact ⟨k', b', Table.get_erase_eq_some.2 ⟨hk', hne⟩, heq.trans haddress⟩
    · exact ⟨k', b', Table.get_erase_eq_some.2 ⟨hk', hne⟩, haddress⟩

end Holds

end ContentStore

end Totem.Lib
