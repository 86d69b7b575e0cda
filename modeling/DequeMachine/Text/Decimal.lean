import DequeMachine.Text.Basic

namespace DequeMachine

namespace Decimal

/-- A count in the fewest digits. -/
def digits (n : Nat) : Text := Nat.toDigits 10 n

/-- A value in the fewest digits, after a minus sign if it is negative. -/
def write (v : Int32) : Text :=
  if v.toInt < 0 then '-' :: digits v.toInt.natAbs else digits v.toInt.natAbs

/-- One or more ASCII digits; leading zeros are welcome. -/
def readNat? (w : Text) : Option Nat :=
  if w.isEmpty || !w.all Char.isDigit then none else some (Nat.ofDigitChars 10 w 0)

def readInt? : Text → Option Int
  | '-' :: w => (readNat? w).map fun n => -(n : Int)
  | w => (readNat? w).map fun n => (n : Int)

/-- Refuses what does not fit in 32 bits instead of wrapping it. -/
def read? (w : Text) : Option Int32 :=
  (readInt? w).bind fun n =>
    if Int32.minValue.toInt ≤ n ∧ n ≤ Int32.maxValue.toInt then some (Int32.ofInt n) else none

theorem digits_ne_nil (n : Nat) : digits n ≠ [] := Nat.toDigits_ne_nil

theorem isDigit_of_mem_digits {n : Nat} {c : Char} (h : c ∈ digits n) : c.isDigit :=
  Nat.isDigit_of_mem_toDigits (by decide) (by decide) h

theorem all_isDigit_digits (n : Nat) : (digits n).all Char.isDigit :=
  List.all_eq_true.2 fun _ => isDigit_of_mem_digits

theorem readNat?_digits (n : Nat) : readNat? (digits n) = some n := by
  have hne : (digits n).isEmpty = false := by simp [digits_ne_nil]
  rw [readNat?, hne, all_isDigit_digits]
  simp [digits]

theorem readInt?_of_digit {c : Char} (hc : c.isDigit) (w : Text) :
    readInt? (c :: w) = (readNat? (c :: w)).map fun n => (n : Int) := by
  unfold readInt?
  split
  · rename_i h
    obtain ⟨rfl, -⟩ := List.cons.inj h
    simp at hc
  · rfl

theorem readInt?_digits (n : Nat) : readInt? (digits n) = some (n : Int) := by
  cases h : digits n with
  | nil => exact absurd h (digits_ne_nil n)
  | cons c w =>
    have hc : c.isDigit := isDigit_of_mem_digits (n := n) (by simp [h])
    rw [readInt?_of_digit hc, ← h, readNat?_digits]
    rfl

theorem readInt?_write (v : Int32) : readInt? (write v) = some v.toInt := by
  unfold write
  split
  · have hv : -(v.toInt.natAbs : Int) = v.toInt := by omega
    simp only [readInt?, readNat?_digits]
    exact congrArg some hv
  · have hv : (v.toInt.natAbs : Int) = v.toInt := by omega
    rw [readInt?_digits, hv]

/-- A written value is read back. -/
theorem read?_write (v : Int32) : read? (write v) = some v := by
  rw [read?, readInt?_write, Option.bind_some, if_pos ⟨v.minValue_le_toInt, v.toInt_le⟩,
    Int32.ofInt_toInt]

end Decimal

/-- What is said of a line begins with the number of the line. -/
def Text.onLine (line : Nat) (t : Text) : Text :=
  'L' :: Decimal.digits line ++ ": ".toList ++ t

end DequeMachine
