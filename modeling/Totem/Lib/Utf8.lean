import Mathlib.Data.List.Basic
import Mathlib.Tactic.SplitIfs

/-!
# Totem.Lib.Utf8 — UTF-8 read with replacement

The bytes of a character, and a reader that takes bytes one at a time and replaces what is no UTF-8: each longest start
of a character that does not go on becomes one replacement character.  A text that is partly decoded already holds
characters among its bytes.

* `read_utf8Encode`: a text is read back from its bytes.
-/

namespace Totem.Lib

/-- The bytes of a character. -/
def utf8Encode (c : Char) : List ℕ :=
  if c.toNat < 0x80 then [c.toNat]
  else if c.toNat < 0x800 then [0xC0 + c.toNat / 0x40, 0x80 + c.toNat % 0x40]
  else if c.toNat < 0x10000 then [0xE0 + c.toNat / 0x1000, 0x80 + c.toNat / 0x40 % 0x40, 0x80 + c.toNat % 0x40]
  else [0xF0 + c.toNat / 0x40000, 0x80 + c.toNat / 0x1000 % 0x40, 0x80 + c.toNat / 0x40 % 0x40, 0x80 + c.toNat % 0x40]

theorem utf8Encode_ne_nil (c : Char) : utf8Encode c ≠ [] := by
  unfold utf8Encode
  split_ifs <;> exact List.cons_ne_nil _ _

theorem utf8Encode_lt (c : Char) : ∀ b ∈ utf8Encode c, b < 0x100 := by
  have hvalid : c.toNat < 0x110000 := by
    obtain h | h := c.valid
    · exact Nat.lt_trans h (by decide)
    · exact h.2
  intro b hb
  unfold utf8Encode at hb
  split_ifs at hb <;> simp only [List.mem_cons, List.not_mem_nil, or_false] at hb <;> omega

/-- A character that has been started: what has been read of it, the bounds of its next byte, and how many bytes come
after that one. -/
structure Pending where
  value : ℕ
  lower : ℕ
  upper : ℕ
  more : ℕ
  deriving DecidableEq, Repr

def replacement : Char := '\uFFFD'

/-- The first byte of a character. -/
def firstByte (b : ℕ) : List Char × Option Pending :=
  if b < 0x80 then ([Char.ofNat b], none)
  else if 0xC2 ≤ b ∧ b ≤ 0xDF then ([], some ⟨b - 0xC0, 0x80, 0xBF, 0⟩)
  else if 0xE0 ≤ b ∧ b ≤ 0xEF then
    ([], some ⟨b - 0xE0, if b = 0xE0 then 0xA0 else 0x80, if b = 0xED then 0x9F else 0xBF, 1⟩)
  else if 0xF0 ≤ b ∧ b ≤ 0xF4 then
    ([], some ⟨b - 0xF0, if b = 0xF0 then 0x90 else 0x80, if b = 0xF4 then 0x8F else 0xBF, 2⟩)
  else ([replacement], none)

/-- A byte that goes on with a character, or breaks it off. -/
def nextByte : Option Pending → ℕ → List Char × Option Pending
  | none, b => firstByte b
  | some p, b =>
    if p.lower ≤ b ∧ b ≤ p.upper then
      match p.more with
      | 0 => ([Char.ofNat (p.value * 0x40 + (b - 0x80))], none)
      | more + 1 => ([], some ⟨p.value * 0x40 + (b - 0x80), 0x80, 0xBF, more⟩)
    else (replacement :: (firstByte b).1, (firstByte b).2)

def flush : Option Pending → List Char
  | none => []
  | some _ => [replacement]

/-- What the bytes and characters of a text read as. -/
def readUtf8 : Option Pending → List (ℕ ⊕ Char) → List Char
  | p, [] => flush p
  | p, .inl b :: rest => (nextByte p b).1 ++ readUtf8 (nextByte p b).2 rest
  | p, .inr c :: rest => flush p ++ c :: readUtf8 none rest

theorem nextByte_last {p : Pending} {b : ℕ} (hmore : p.more = 0) (hlower : p.lower ≤ b) (hupper : b ≤ p.upper) :
    nextByte (some p) b = ([Char.ofNat (p.value * 0x40 + (b - 0x80))], none) := by
  rw [nextByte, if_pos ⟨hlower, hupper⟩, hmore]

theorem nextByte_more {p : Pending} {b more : ℕ} (hmore : p.more = more + 1) (hlower : p.lower ≤ b)
    (hupper : b ≤ p.upper) :
    nextByte (some p) b = ([], some ⟨p.value * 0x40 + (b - 0x80), 0x80, 0xBF, more⟩) := by
  rw [nextByte, if_pos ⟨hlower, hupper⟩, hmore]

theorem readUtf8_byte {p q : Option Pending} {b : ℕ} {cs : List Char} (h : nextByte p b = (cs, q))
    (rest : List (ℕ ⊕ Char)) : readUtf8 p (.inl b :: rest) = cs ++ readUtf8 q rest := by
  rw [readUtf8, h]

/-- A character is read back from its bytes. -/
theorem readUtf8_encodeChar (c : Char) (rest : List (ℕ ⊕ Char)) :
    readUtf8 none ((utf8Encode c).map .inl ++ rest) = c :: readUtf8 none rest := by
  have hvalid : c.toNat < 0xD800 ∨ 0xDFFF < c.toNat ∧ c.toNat < 0x110000 := c.valid
  have hchar : ∀ n, n = c.toNat → Char.ofNat n = c := by
    rintro n rfl
    exact Char.ofNat_toNat c
  unfold utf8Encode
  split_ifs with h₁ h₂ h₃
  · have hfirst : nextByte none c.toNat = ([c], none) := by rw [nextByte, firstByte, if_pos h₁, hchar _ rfl]
    exact readUtf8_byte hfirst rest
  · have hfirst : nextByte none (0xC0 + c.toNat / 0x40) = ([], some ⟨c.toNat / 0x40, 0x80, 0xBF, 0⟩) := by
      rw [nextByte, firstByte, if_neg (by omega), if_pos (by omega), Nat.add_sub_cancel_left]
    have hlast := @nextByte_last ⟨c.toNat / 0x40, 0x80, 0xBF, 0⟩ (0x80 + c.toNat % 0x40) rfl (by simp)
      (by show _ ≤ 0xBF; omega)
    rw [hchar _ (show c.toNat / 0x40 * 0x40 + (0x80 + c.toNat % 0x40 - 0x80) = c.toNat by omega)] at hlast
    exact (readUtf8_byte hfirst _).trans (readUtf8_byte hlast rest)
  · have hfirst : nextByte none (0xE0 + c.toNat / 0x1000) =
        ([], some ⟨c.toNat / 0x1000, if 0xE0 + c.toNat / 0x1000 = 0xE0 then 0xA0 else 0x80,
          if 0xE0 + c.toNat / 0x1000 = 0xED then 0x9F else 0xBF, 1⟩) := by
      rw [nextByte, firstByte, if_neg (by omega), if_neg (by omega), if_pos (by omega), Nat.add_sub_cancel_left]
    have hnext := @nextByte_more ⟨c.toNat / 0x1000, if 0xE0 + c.toNat / 0x1000 = 0xE0 then 0xA0 else 0x80,
      if 0xE0 + c.toNat / 0x1000 = 0xED then 0x9F else 0xBF, 1⟩ (0x80 + c.toNat / 0x40 % 0x40) 0 rfl
      (by show (if _ then 0xA0 else 0x80) ≤ _; split_ifs <;> omega)
      (by show _ ≤ (if _ then 0x9F else 0xBF); split_ifs <;> omega)
    have hlast := @nextByte_last ⟨c.toNat / 0x1000 * 0x40 + (0x80 + c.toNat / 0x40 % 0x40 - 0x80), 0x80, 0xBF, 0⟩
      (0x80 + c.toNat % 0x40) rfl (by simp) (by show _ ≤ 0xBF; omega)
    rw [hchar _ (show (c.toNat / 0x1000 * 0x40 + (0x80 + c.toNat / 0x40 % 0x40 - 0x80)) * 0x40 +
      (0x80 + c.toNat % 0x40 - 0x80) = c.toNat by omega)] at hlast
    exact (readUtf8_byte hfirst _).trans ((readUtf8_byte hnext _).trans (readUtf8_byte hlast rest))
  · have hfirst : nextByte none (0xF0 + c.toNat / 0x40000) =
        ([], some ⟨c.toNat / 0x40000, if 0xF0 + c.toNat / 0x40000 = 0xF0 then 0x90 else 0x80,
          if 0xF0 + c.toNat / 0x40000 = 0xF4 then 0x8F else 0xBF, 2⟩) := by
      rw [nextByte, firstByte, if_neg (by omega), if_neg (by omega), if_neg (by omega), if_pos (by omega),
        Nat.add_sub_cancel_left]
    have hsecond := @nextByte_more ⟨c.toNat / 0x40000, if 0xF0 + c.toNat / 0x40000 = 0xF0 then 0x90 else 0x80,
      if 0xF0 + c.toNat / 0x40000 = 0xF4 then 0x8F else 0xBF, 2⟩ (0x80 + c.toNat / 0x1000 % 0x40) 1 rfl
      (by show (if _ then 0x90 else 0x80) ≤ _; split_ifs <;> omega)
      (by show _ ≤ (if _ then 0x8F else 0xBF); split_ifs <;> omega)
    have hthird := @nextByte_more ⟨c.toNat / 0x40000 * 0x40 + (0x80 + c.toNat / 0x1000 % 0x40 - 0x80), 0x80, 0xBF, 1⟩
      (0x80 + c.toNat / 0x40 % 0x40) 0 rfl (by simp) (by show _ ≤ 0xBF; omega)
    have hlast := @nextByte_last ⟨(c.toNat / 0x40000 * 0x40 + (0x80 + c.toNat / 0x1000 % 0x40 - 0x80)) * 0x40 +
      (0x80 + c.toNat / 0x40 % 0x40 - 0x80), 0x80, 0xBF, 0⟩ (0x80 + c.toNat % 0x40) rfl (by simp)
      (by show _ ≤ 0xBF; omega)
    rw [hchar _ (show ((c.toNat / 0x40000 * 0x40 + (0x80 + c.toNat / 0x1000 % 0x40 - 0x80)) * 0x40 +
      (0x80 + c.toNat / 0x40 % 0x40 - 0x80)) * 0x40 + (0x80 + c.toNat % 0x40 - 0x80) = c.toNat by omega)] at hlast
    exact (readUtf8_byte hfirst _).trans ((readUtf8_byte hsecond _).trans
      ((readUtf8_byte hthird _).trans (readUtf8_byte hlast rest)))

/-- **A text is read back from its bytes.** -/
theorem read_utf8Encode (s : List Char) : readUtf8 none ((s.flatMap utf8Encode).map .inl) = s := by
  induction s with
  | nil => rfl
  | cons c s ih => rw [List.flatMap_cons, List.map_append, readUtf8_encodeChar, ih]

/-- Of a broken character, the longest start becomes one replacement. -/
example : readUtf8 none [.inl 0xF0, .inl 0x90, .inl 0x80, .inl 0x41] = [replacement, 'A'] := by decide

end Totem.Lib
