import Mathlib.Data.Int.Notation
import Mathlib.Data.Nat.Notation

/-!
# Totem.Lib.Decimal — integers as texts

The text of an integer, and readers of integers: what a reader takes beyond such texts (blanks, a plus sign,
underscores) is its own.

* `decimalReader`: a reader of those texts alone.
-/

namespace Totem.Lib

/-- `str(val)`. -/
def intText (val : ℤ) : List Char := (toString val).toList

/-- How a text is read as an integer. -/
structure IntReader where
  toInt : List Char → Option ℤ
  toInt_intText : ∀ n, toInt (intText n) = some n

def readNat (digits : List Char) : Option ℤ :=
  if digits ≠ [] ∧ digits.all Char.isDigit then some (Nat.ofDigitChars 10 digits 0 : ℕ) else none

def readInt : List Char → Option ℤ
  | '-' :: digits => (readNat digits).map fun n => -n
  | digits => readNat digits

theorem readNat_repr (n : ℕ) : readNat n.repr.toList = some (n : ℤ) := by
  have hall : (Nat.toDigits 10 n).all Char.isDigit = true :=
    List.all_eq_true.2 fun c hc => Nat.isDigit_of_mem_toDigits (by decide) (by decide) hc
  rw [Nat.toList_repr, readNat, if_pos ⟨Nat.toDigits_ne_nil, hall⟩, Nat.ofDigitChars_toDigits (by decide) (by decide)]

theorem readInt_of_digits {digits : List Char} (h : digits.all Char.isDigit = true) :
    readInt digits = readNat digits := by
  unfold readInt
  split
  · exact absurd (List.all_eq_true.1 h '-' List.mem_cons_self) (by decide)
  · rfl

/-- Decimal numbers, with a sign if they are negative. -/
def decimalReader : IntReader where
  toInt := readInt
  toInt_intText n := by
    have hall (n : ℕ) : n.repr.toList.all Char.isDigit = true := by
      rw [Nat.toList_repr]
      exact List.all_eq_true.2 fun c hc => Nat.isDigit_of_mem_toDigits (by decide) (by decide) hc
    cases n with
    | ofNat n =>
      show readInt n.repr.toList = _
      rw [readInt_of_digits (hall n)]
      exact readNat_repr n
    | negSucc n =>
      have htext : intText (Int.negSucc n) = '-' :: (n + 1).repr.toList := by
        show ("-" ++ (n + 1).repr).toList = _
        rw [String.toList_append]
        rfl
      rw [htext, readInt, readNat_repr]
      rfl

end Totem.Lib
