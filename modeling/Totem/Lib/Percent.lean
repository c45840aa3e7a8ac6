import Totem.Lib.Utf8
import Totem.Lib.Words

/-!
# Totem.Lib.Percent — percent-encoded texts

Python's `quote` and `unquote`, with the variants that write a space as `+`.  A quoted text is read as bytes first and
as UTF-8 then; characters beyond ASCII stand for themselves.

* `unquote_quote`, `unquotePlus_quotePlus`: what is quoted is read back, whatever characters are left as they are.
* `splitOn_quote`: the segments of a quoted path.
-/

namespace Totem.Lib.Percent

/-! ## Quoting -/

/-- A letter, a digit, or one of `_.-~`. -/
def isAlwaysSafe (c : Char) : Bool := c.isAlphanum || ['_', '.', '-', '~'].contains c

def hexDigit (n : ℕ) : Char := Char.ofNat (if n < 10 then 0x30 + n else 0x37 + n)

def percentByte (b : ℕ) : List Char := ['%', hexDigit (b / 16), hexDigit (b % 16)]

def isSafe (safe : List Char) (c : Char) : Bool := isAlwaysSafe c || decide (c.toNat < 0x80) && safe.contains c

def quoteChar (safe : List Char) (c : Char) : List Char :=
  if isSafe safe c then [c] else (utf8Encode c).flatMap percentByte

def quote (safe s : List Char) : List Char := s.flatMap (quoteChar safe)

/-- `s.replace(a, b)`, for single characters. -/
def replaceChar (a b : Char) (s : List Char) : List Char := s.map fun c => if c = a then b else c

def quotePlus (s : List Char) : List Char := replaceChar ' ' '+' (quote [' '] s)

/-! ## Reading -/

def hexValue (c : Char) : Option ℕ :=
  if 0x30 ≤ c.toNat ∧ c.toNat ≤ 0x39 then some (c.toNat - 0x30)
  else if 0x41 ≤ c.toNat ∧ c.toNat ≤ 0x46 then some (c.toNat - 0x37)
  else if 0x61 ≤ c.toNat ∧ c.toNat ≤ 0x66 then some (c.toNat - 0x57)
  else none

/-- A character that is not the start of an escape. -/
def plainByte (c : Char) : ℕ ⊕ Char := if c.toNat < 0x80 then .inl c.toNat else .inr c

def unquoteBytes : List Char → List (ℕ ⊕ Char)
  | [] => []
  | '%' :: a :: b :: rest =>
    match hexValue a, hexValue b with
    | some x, some y => .inl (x * 16 + y) :: unquoteBytes rest
    | _, _ => plainByte '%' :: unquoteBytes (a :: b :: rest)
  | c :: rest => plainByte c :: unquoteBytes rest

def unquote (s : List Char) : List Char := readUtf8 none (unquoteBytes s)

def unquotePlus (s : List Char) : List Char := unquote (replaceChar '+' ' ' s)

/-! ## What is quoted is read back -/

theorem hexValue_hexDigit : ∀ n < 16, hexValue (hexDigit n) = some n := by decide

theorem hexDigit_alphanum : ∀ n < 16, (hexDigit n).isAlphanum = true := by decide

theorem unquoteBytes_percentByte {b : ℕ} (hb : b < 0x100) (rest : List Char) :
    unquoteBytes (percentByte b ++ rest) = .inl b :: unquoteBytes rest := by
  show unquoteBytes ('%' :: hexDigit (b / 16) :: hexDigit (b % 16) :: rest) = _
  rw [unquoteBytes, hexValue_hexDigit _ (by omega), hexValue_hexDigit _ (by omega)]
  show Sum.inl (b / 16 * 16 + b % 16) :: _ = _
  rw [Nat.div_add_mod']

theorem unquoteBytes_percentBytes {bs : List ℕ} (hbs : ∀ b ∈ bs, b < 0x100) (rest : List Char) :
    unquoteBytes (bs.flatMap percentByte ++ rest) = bs.map .inl ++ unquoteBytes rest := by
  induction bs with
  | nil => rfl
  | cons b bs ih =>
    obtain ⟨hb, hbs⟩ := List.forall_mem_cons.1 hbs
    rw [List.flatMap_cons, List.append_assoc, unquoteBytes_percentByte hb, ih hbs]
    rfl

theorem unquoteBytes_cons {c : Char} (hc : c ≠ '%') (rest : List Char) :
    unquoteBytes (c :: rest) = plainByte c :: unquoteBytes rest := by
  rw [unquoteBytes]
  intro a b rest' hpercent
  exact absurd hpercent hc

theorem isAlwaysSafe_lt {c : Char} (h : isAlwaysSafe c = true) : c.toNat < 0x80 := by
  have halphanum : c.isAlphanum = true → c.toNat < 0x80 := by
    intro h
    delta Char.isAlphanum Char.isAlpha Char.isUpper Char.isLower Char.isDigit at h
    simp only [Bool.or_eq_true, Bool.and_eq_true, decide_eq_true_eq, UInt32.le_iff_toNat_le, ge_iff_le] at h
    change ((65 ≤ c.toNat ∧ c.toNat ≤ 90) ∨ (97 ≤ c.toNat ∧ c.toNat ≤ 122)) ∨ (48 ≤ c.toNat ∧ c.toNat ≤ 57) at h
    omega
  rw [isAlwaysSafe, Bool.or_eq_true] at h
  obtain h | h := h
  · exact halphanum h
  · have hmem : c ∈ ['_', '.', '-', '~'] := List.contains_iff_mem.1 h
    simp only [List.mem_cons, List.not_mem_nil, or_false] at hmem
    obtain rfl | rfl | rfl | rfl := hmem <;> decide

theorem isSafe_lt {safe : List Char} {c : Char} (h : isSafe safe c = true) : c.toNat < 0x80 := by
  rw [isSafe, Bool.or_eq_true, Bool.and_eq_true, decide_eq_true_eq] at h
  obtain h | ⟨h, -⟩ := h
  · exact isAlwaysSafe_lt h
  · exact h

theorem isSafe_percent {safe : List Char} (h : '%' ∉ safe) : isSafe safe '%' = false := by
  have hcontains : safe.contains '%' = false := by
    rw [← Bool.not_eq_true, List.contains_iff_mem]
    exact h
  rw [isSafe, hcontains]
  decide

variable {safe : List Char}

theorem read_quoteChar (hsafe : '%' ∉ safe) (c : Char) (rest : List Char) :
    readUtf8 none (unquoteBytes (quoteChar safe c ++ rest)) = c :: readUtf8 none (unquoteBytes rest) := by
  unfold quoteChar
  by_cases hc : isSafe safe c = true
  · have hne : c ≠ '%' := by
      rintro rfl
      rw [isSafe_percent hsafe] at hc
      cases hc
    have hfirst : nextByte none c.toNat = ([c], none) := by
      rw [nextByte, firstByte, if_pos (isSafe_lt hc), Char.ofNat_toNat]
    rw [if_pos hc, List.singleton_append, unquoteBytes_cons hne, plainByte, if_pos (isSafe_lt hc)]
    exact readUtf8_byte hfirst _
  · rw [if_neg hc, unquoteBytes_percentBytes (utf8Encode_lt c), readUtf8_encodeChar]

/-- **What is quoted is read back.** -/
theorem unquote_quote (hsafe : '%' ∉ safe) (s : List Char) : unquote (quote safe s) = s := by
  induction s with
  | nil => rfl
  | cons c s ih =>
    unfold unquote quote at ih ⊢
    rw [List.flatMap_cons, read_quoteChar hsafe, ih]

/-- A character of a quoted text is safe, or stands in an escape. -/
theorem mem_quote {s : List Char} {c : Char} (h : c ∈ quote safe s) :
    c ∈ s ∧ isSafe safe c = true ∨ c = '%' ∨ c.isAlphanum = true := by
  obtain ⟨d, hd, hc⟩ := List.mem_flatMap.1 h
  unfold quoteChar at hc
  by_cases hsafe : isSafe safe d = true
  · rw [if_pos hsafe, List.mem_singleton] at hc
    subst hc
    exact Or.inl ⟨hd, hsafe⟩
  · rw [if_neg hsafe] at hc
    obtain ⟨b, hb, hc⟩ := List.mem_flatMap.1 hc
    have hlt := utf8Encode_lt d b hb
    simp only [percentByte, List.mem_cons, List.not_mem_nil, or_false] at hc
    obtain rfl | rfl | rfl := hc
    · exact Or.inr (Or.inl rfl)
    · exact Or.inr (Or.inr (hexDigit_alphanum _ (by omega)))
    · exact Or.inr (Or.inr (hexDigit_alphanum _ (by omega)))

theorem notMem_quote {c : Char} (hsafe : isSafe safe c = false) (hpercent : c ≠ '%') (halphanum : c.isAlphanum = false)
    (s : List Char) : c ∉ quote safe s := by
  intro h
  obtain ⟨-, h⟩ | h | h := mem_quote h
  · exact Bool.false_ne_true (hsafe.symm.trans h)
  · exact hpercent h
  · exact Bool.false_ne_true (halphanum.symm.trans h)

theorem replaceChar_replaceChar {a b : Char} {s : List Char} (h : b ∉ s) : replaceChar b a (replaceChar a b s) = s := by
  unfold replaceChar
  rw [List.map_map]
  refine (List.map_congr_left fun c hc => ?_).trans (List.map_id s)
  have hne : c ≠ b := fun heq => h (heq ▸ hc)
  show (if (if c = a then b else c) = b then a else if c = a then b else c) = c
  by_cases hca : c = a
  · rw [if_pos (if_pos hca), hca]
  · rw [if_neg hca, if_neg hne]

theorem unquotePlus_quotePlus (s : List Char) : unquotePlus (quotePlus s) = s := by
  have hplus : '+' ∉ quote [' '] s := notMem_quote (by decide) (by decide) (by decide) s
  rw [unquotePlus, quotePlus, replaceChar_replaceChar hplus, unquote_quote (by decide)]

/-- What a quoted component is made of. -/
theorem mem_quotePlus {s : List Char} {c : Char} (h : c ∈ quotePlus s) : isAlwaysSafe c = true ∨ c = '%' ∨ c = '+' := by
  obtain ⟨d, hd, hdc⟩ := List.mem_map.1 h
  by_cases hspace : d = ' '
  · rw [if_pos hspace] at hdc
    exact Or.inr (Or.inr hdc.symm)
  · rw [if_neg hspace] at hdc
    subst hdc
    obtain ⟨-, hsafe⟩ | hpercent | halphanum := mem_quote hd
    · rw [isSafe, Bool.or_eq_true, Bool.and_eq_true, List.contains_iff_mem, List.mem_singleton] at hsafe
      exact Or.inl (hsafe.resolve_right fun h => hspace h.2)
    · exact Or.inr (Or.inl hpercent)
    · exact Or.inl (by rw [isAlwaysSafe, halphanum, Bool.true_or])

/-! ## Quoted segments -/

theorem quote_append (s t : List Char) : quote safe (s ++ t) = quote safe s ++ quote safe t := List.flatMap_append

theorem quote_eq_self {s : List Char} (h : ∀ c ∈ s, isSafe safe c = true) : quote safe s = s := by
  induction s with
  | nil => rfl
  | cons c s ih =>
    obtain ⟨hc, hs⟩ := List.forall_mem_cons.1 h
    have hquote : quote safe (c :: s) = quoteChar safe c ++ quote safe s := List.flatMap_cons
    rw [hquote, quoteChar, if_pos hc, ih hs, List.singleton_append]

theorem quote_injective (hsafe : '%' ∉ safe) : Function.Injective (quote safe) := by
  intro s t h
  rw [← unquote_quote hsafe s, h, unquote_quote hsafe]

theorem quote_intercalate {sep : Char} (hsep : isSafe safe sep = true) (segments : List (List Char)) :
    quote safe ([sep].intercalate segments) = [sep].intercalate (segments.map (quote safe)) := by
  induction segments with
  | nil => rfl
  | cons x segments ih =>
    cases segments with
    | nil => rw [List.map_singleton, List.intercalate_singleton, List.intercalate_singleton]
    | cons y segments =>
      have hsep' : quote safe [sep] = [sep] := quote_eq_self fun c hc => by rwa [List.mem_singleton.1 hc]
      rw [List.intercalate_cons_cons, quote_append, quote_append, ih, hsep', List.map_cons (a := x), List.map_cons,
        List.intercalate_cons_cons]

/-- A quoted path has the quoted segments. -/
theorem splitOn_quote (hsep : isSafe safe '/' = true) (s : List Char) :
    (quote safe s).splitOn '/' = (s.splitOn '/').map (quote safe) := by
  have hne : (s.splitOn '/').map (quote safe) ≠ [] := fun h => List.splitOn_ne_nil '/' s (List.map_eq_nil_iff.1 h)
  have hmem : ∀ l ∈ (s.splitOn '/').map (quote safe), '/' ∉ l := by
    intro l hl hslash
    obtain ⟨seg, hseg, rfl⟩ := List.mem_map.1 hl
    obtain ⟨hmem, -⟩ | h | h := mem_quote hslash
    · exact notMem_of_mem_splitOn hseg hmem
    · exact absurd h (by decide)
    · exact absurd h (by decide)
  rw [← List.splitOn_intercalate '/' hmem hne, ← quote_intercalate hsep, List.intercalate_splitOn]

end Totem.Lib.Percent
