import Mathlib.Data.Nat.ModEq
import Mathlib.Data.List.Basic

/-!
# Totem.Lib.Repr — texts as they are printed in quotes

`repr` of a text, and of a list of texts: what is not printable, the quotes and the backslashes are escaped, so that
a printed text ends at its closing quote.

* `reprText_inj`: texts printed alike are the same, whatever follows them.
* `reprTexts_injective`: so are lists of them.
-/

namespace Totem.Lib

/-! ## Digits -/

/-- `n` in so many hexadecimal digits. -/
def hexDigits : ℕ → ℕ → List ℕ
  | 0, _ => []
  | width + 1, n => hexDigits width (n / 16) ++ [n % 16]

def digitChar (n : ℕ) : Char := if n < 10 then Char.ofNat (48 + n) else Char.ofNat (87 + n)

theorem length_hexDigits (width n : ℕ) : (hexDigits width n).length = width := by
  induction width generalizing n with
  | zero => rfl
  | succ width ih => rw [hexDigits, List.length_append, ih, List.length_singleton]

theorem lt_of_mem_hexDigits {width n d : ℕ} (h : d ∈ hexDigits width n) : d < 16 := by
  induction width generalizing n with
  | zero => cases h
  | succ width ih =>
    obtain h | h := List.mem_append.1 h
    · exact ih h
    · rw [List.mem_singleton.1 h]
      exact Nat.mod_lt n (by decide)

theorem hexDigits_inj {width n m : ℕ} (hn : n < 16 ^ width) (hm : m < 16 ^ width)
    (h : hexDigits width n = hexDigits width m) : n = m := by
  induction width generalizing n m with
  | zero => omega
  | succ width ih =>
    obtain ⟨hinit, hlast⟩ := List.append_inj' h rfl
    have hdiv : n / 16 = m / 16 := ih (by omega) (by omega) hinit
    have hmod : n % 16 = m % 16 := List.singleton_inj.1 hlast
    omega

theorem digitChar_inj {n m : ℕ} (hn : n < 16) (hm : m < 16) (h : digitChar n = digitChar m) : n = m := by
  have hall : ∀ a < 16, ∀ b < 16, digitChar a = digitChar b → a = b := by decide
  exact hall n hn m hm h

theorem map_digitChar_inj {l l' : List ℕ} (hl : ∀ d ∈ l, d < 16) (hl' : ∀ d ∈ l', d < 16)
    (h : l.map digitChar = l'.map digitChar) : l = l' := by
  induction l generalizing l' with
  | nil => exact (List.map_eq_nil_iff.1 h.symm).symm
  | cons d l ih =>
    cases l' with
    | nil => cases h
    | cons d' l' =>
      obtain ⟨hd, hl⟩ := List.forall_mem_cons.1 hl
      obtain ⟨hd', hl'⟩ := List.forall_mem_cons.1 hl'
      obtain ⟨hhead, htail⟩ := List.cons_eq_cons.1 h
      rw [digitChar_inj hd hd' hhead, ih hl hl' htail]

/-! ## Characters -/

section

variable (printable : Char → Bool)

/-- The letter of the escape of a character, and how many digits follow it. -/
def escapeKind (c : Char) : Char × ℕ :=
  if c = '\n' then ('n', 0)
  else if c = '\r' then ('r', 0)
  else if c = '\t' then ('t', 0)
  else if c.toNat < 0x100 then ('x', 2)
  else if c.toNat < 0x10000 then ('u', 4)
  else ('U', 8)

/-- What follows the backslash. -/
def escape (c : Char) : List Char := (escapeKind c).1 :: (hexDigits (escapeKind c).2 c.toNat).map digitChar

/-- A character as it stands between quotes. -/
def reprChar (quote c : Char) : List Char :=
  if c = '\\' ∨ c = quote then ['\\', c]
  else if printable c then [c]
  else '\\' :: escape c

/-- What the letter of an escape says. -/
theorem escapeKind_spec (c : Char) : escapeKind c = ('n', 0) ∧ c = '\n' ∨ escapeKind c = ('r', 0) ∧ c = '\r' ∨
    escapeKind c = ('t', 0) ∧ c = '\t' ∨ escapeKind c = ('x', 2) ∧ c.toNat < 16 ^ 2 ∨
      escapeKind c = ('u', 4) ∧ c.toNat < 16 ^ 4 ∨ escapeKind c = ('U', 8) ∧ c.toNat < 16 ^ 8 := by
  have hvalid : c.toNat < 16 ^ 8 := UInt32.toNat_lt c.val
  rw [escapeKind]
  split_ifs with hn hr ht hx hu <;> simp_all

theorem escape_inj {c d : Char} {r r' : List Char} (h : escape c ++ r = escape d ++ r') : c = d ∧ r = r' := by
  rw [escape, escape, List.cons_append, List.cons_append] at h
  obtain ⟨hletter, hrest⟩ := List.cons_eq_cons.1 h
  have hkind : escapeKind c = escapeKind d ∧ (c = d ∨ c.toNat < 16 ^ (escapeKind c).2 ∧
      d.toNat < 16 ^ (escapeKind c).2) := by
    rcases escapeKind_spec c with ⟨hc, hc'⟩ | ⟨hc, hc'⟩ | ⟨hc, hc'⟩ | ⟨hc, hc'⟩ | ⟨hc, hc'⟩ | ⟨hc, hc'⟩ <;>
      rcases escapeKind_spec d with ⟨hd, hd'⟩ | ⟨hd, hd'⟩ | ⟨hd, hd'⟩ | ⟨hd, hd'⟩ | ⟨hd, hd'⟩ | ⟨hd, hd'⟩ <;>
      rw [hc, hd] at hletter ⊢ <;>
      first
      | exact absurd hletter (by decide)
      | exact ⟨rfl, Or.inr ⟨hc', hd'⟩⟩
      | exact ⟨rfl, Or.inl (hc'.trans (Eq.symm hd'))⟩
  obtain ⟨hsame, hchars⟩ := hkind
  rw [← hsame] at hrest
  obtain ⟨hdigits, hrest⟩ := List.append_inj hrest (by simp only [List.length_map, length_hexDigits])
  refine ⟨?_, hrest⟩
  obtain hchars | ⟨hc, hd⟩ := hchars
  · exact hchars
  · have hhex := map_digitChar_inj (fun _ => lt_of_mem_hexDigits) (fun _ => lt_of_mem_hexDigits) hdigits
    exact Char.toNat_inj.1 (hexDigits_inj hc hd hhex)

/-- The quotes a text may be printed in. -/
def IsQuote (quote : Char) : Prop := quote = '\'' ∨ quote = '"'

theorem letter_ne {quote : Char} (hquote : IsQuote quote) (c : Char) :
    (escapeKind c).1 ≠ '\\' ∧ (escapeKind c).1 ≠ quote := by
  rcases hquote with rfl | rfl <;>
    rcases escapeKind_spec c with ⟨hc, -⟩ | ⟨hc, -⟩ | ⟨hc, -⟩ | ⟨hc, -⟩ | ⟨hc, -⟩ | ⟨hc, -⟩ <;> rw [hc] <;> decide

/-- A character between quotes ends where it ends. -/
theorem reprChar_inj {quote c d : Char} (hquote : IsQuote quote) {r r' : List Char}
    (h : reprChar printable quote c ++ r = reprChar printable quote d ++ r') : c = d ∧ r = r' := by
  have hescape {a b : Char} {u v : List Char} (ha : a = '\\' ∨ a = quote)
      (heq : '\\' :: a :: u = '\\' :: (escape b ++ v)) : False := by
    have hhead : a = (escapeKind b).1 := (List.cons_eq_cons.1 (List.cons_eq_cons.1 heq).2).1
    exact ha.elim (fun h => (letter_ne hquote b).1 (hhead ▸ h)) fun h => (letter_ne hquote b).2 (hhead ▸ h)
  rw [reprChar, reprChar] at h
  split_ifs at h with hc hd hd' hc' hd hd' hd hd'
  · obtain ⟨hcd, hr⟩ := List.cons_eq_cons.1 (List.cons_eq_cons.1 h).2
    exact ⟨hcd, hr⟩
  · exact absurd (Or.inl (List.cons_eq_cons.1 h).1.symm) hd
  · exact (hescape hc h).elim
  · exact absurd (Or.inl (List.cons_eq_cons.1 h).1) hc
  · exact List.cons_eq_cons.1 h
  · exact absurd (Or.inl (List.cons_eq_cons.1 h).1) hc
  · exact (hescape hd h.symm).elim
  · exact absurd (Or.inl (List.cons_eq_cons.1 h).1.symm) hd
  · exact escape_inj (List.cons_eq_cons.1 h).2

theorem reprChar_ne_quote {quote c : Char} (hquote : IsQuote quote) {r r' : List Char} :
    reprChar printable quote c ++ r ≠ quote :: r' := by
  have hslash : '\\' ≠ quote := by rcases hquote with rfl | rfl <;> decide
  intro h
  rw [reprChar] at h
  split_ifs at h with hc hp
  · exact hslash (List.cons_eq_cons.1 h).1
  · exact hc (Or.inr (List.cons_eq_cons.1 h).1)
  · exact hslash (List.cons_eq_cons.1 h).1

/-! ## Texts -/

/-- The quote a text is printed in: a double one around single ones. -/
def quoteOf (s : List Char) : Char := if '\'' ∈ s ∧ '"' ∉ s then '"' else '\''

/-- `repr(s)`. -/
def reprText (s : List Char) : List Char :=
  quoteOf s :: (s.flatMap (reprChar printable (quoteOf s)) ++ [quoteOf s])

theorem isQuote_quoteOf (s : List Char) : IsQuote (quoteOf s) := by
  rw [quoteOf]
  split_ifs
  · exact Or.inr rfl
  · exact Or.inl rfl

theorem flatMap_reprChar_inj {quote : Char} (hquote : IsQuote quote) {s s' r r' : List Char}
    (h : s.flatMap (reprChar printable quote) ++ quote :: r = s'.flatMap (reprChar printable quote) ++ quote :: r') :
    s = s' ∧ r = r' := by
  induction s generalizing s' with
  | nil =>
    cases s' with
    | nil => exact ⟨rfl, (List.cons_eq_cons.1 h).2⟩
    | cons d s' =>
      rw [List.flatMap_cons, List.append_assoc] at h
      exact absurd h.symm (reprChar_ne_quote printable hquote)
  | cons c s ih =>
    rw [List.flatMap_cons, List.append_assoc] at h
    cases s' with
    | nil => exact absurd h (reprChar_ne_quote printable hquote)
    | cons d s' =>
      rw [List.flatMap_cons, List.append_assoc] at h
      obtain ⟨rfl, hrest⟩ := reprChar_inj printable hquote h
      obtain ⟨rfl, hr⟩ := ih hrest
      exact ⟨rfl, hr⟩

/-- **Texts printed alike are the same**, whatever follows them. -/
theorem reprText_inj {s s' r r' : List Char} (h : reprText printable s ++ r = reprText printable s' ++ r') :
    s = s' ∧ r = r' := by
  rw [reprText, reprText, List.cons_append, List.cons_append] at h
  obtain ⟨hquote, hrest⟩ := List.cons_eq_cons.1 h
  rw [← hquote, List.append_assoc, List.append_assoc] at hrest
  exact flatMap_reprChar_inj printable (isQuote_quoteOf s) hrest

/-- What stands between the brackets of a list, and the closing one. -/
def reprItems : List (List Char) → List Char
  | [] => [']']
  | [s] => reprText printable s ++ [']']
  | s :: s' :: ss => reprText printable s ++ ',' :: ' ' :: reprItems (s' :: ss)

/-- `str(names)`. -/
def reprTexts (ss : List (List Char)) : List Char := '[' :: reprItems printable ss

theorem reprText_ne_bracket {s r r' : List Char} : reprText printable s ++ r ≠ ']' :: r' := by
  intro h
  have hquote : quoteOf s = ']' := (List.cons_eq_cons.1 h).1
  rcases isQuote_quoteOf s with hq | hq <;> rw [hq] at hquote <;> cases hquote

theorem reprItems_inj {ss ss' : List (List Char)} (h : reprItems printable ss = reprItems printable ss') :
    ss = ss' := by
  induction ss generalizing ss' with
  | nil =>
    match ss' with
    | [] => rfl
    | [s] => exact absurd h.symm (reprText_ne_bracket printable)
    | s :: s' :: ss' => exact absurd h.symm (reprText_ne_bracket printable)
  | cons s ss ih =>
    match ss, ss' with
    | [], [] => exact absurd h (reprText_ne_bracket printable)
    | _ :: _, [] => exact absurd h (reprText_ne_bracket printable)
    | [], [s'] => rw [(reprText_inj printable h).1]
    | [], s' :: t' :: ss' => cases (reprText_inj printable h).2
    | t :: ss, [s'] => cases (reprText_inj printable h).2
    | t :: ss, s' :: t' :: ss' =>
      obtain ⟨rfl, hrest⟩ := reprText_inj printable h
      rw [ih (List.cons_eq_cons.1 (List.cons_eq_cons.1 hrest).2).2]

/-- **Lists of texts printed alike are the same.** -/
theorem reprTexts_injective : Function.Injective (reprTexts printable) := fun _ _ h =>
  reprItems_inj printable (List.cons_eq_cons.1 h).2

end

end Totem.Lib
