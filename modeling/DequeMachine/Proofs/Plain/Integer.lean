import Mathlib
import DequeMachine.Text.Decimal

namespace DequeMachine.Plain

def IsDigit (c : Char) : Prop := '0' ≤ c ∧ c ≤ '9'

instance (c : Char) : Decidable (IsDigit c) := inferInstanceAs (Decidable (_ ∧ _))

/-- The number that digits denote, the first one counting most. -/
def natural (digits : Text) : Nat := digits.foldl (fun n c => 10 * n + (c.toNat - '0'.toNat)) 0

/-- The sign of a word and what follows it. -/
def signed (w : Text) : Int × Text := if w.head? = some '-' then (-1, w.tail) else (1, w)

/-- The value of digits, at least one, behind a minus sign or none, if it fits in 32 bits. -/
def integer? (w : Text) : Option Int32 :=
  let (sign, digits) := signed w
  let n := sign * natural digits
  if (digits ≠ [] ∧ ∀ c ∈ digits, IsDigit c) ∧ -2147483648 ≤ n ∧ n ≤ 2147483647 then
    some (Int32.ofInt n)
  else none

theorem isDigit_iff {c : Char} : c.isDigit ↔ IsDigit c := by
  rw [Char.isDigit_iff_toNat]
  rfl

theorem signed_minus (w : Text) : signed ('-' :: w) = (-1, w) := rfl

theorem signed_of_head?_ne {w : Text} (h : w.head? ≠ some '-') : signed w = (1, w) := if_neg h

theorem signed_of_isDigit {w : Text} (h : ∀ c ∈ w, IsDigit c) : signed w = (1, w) :=
  signed_of_head?_ne fun hminus => absurd (h '-' (List.mem_of_mem_head? hminus)) (by decide)

theorem readNat?_eq (w : Text) :
    Decimal.readNat? w = if w ≠ [] ∧ ∀ c ∈ w, IsDigit c then some (natural w) else none := by
  cases w with
  | nil => rfl
  | cons c w =>
    have hall : (c :: w).all Char.isDigit = decide (∀ a ∈ c :: w, IsDigit a) := by
      rw [Bool.eq_iff_iff, List.all_eq_true, decide_eq_true_iff]
      simp only [isDigit_iff]
    rw [Decimal.readNat?, hall, List.isEmpty_cons, Bool.false_or]
    by_cases hdigits : ∀ a ∈ c :: w, IsDigit a
    · have hword : c :: w ≠ [] ∧ ∀ a ∈ c :: w, IsDigit a := ⟨List.cons_ne_nil c w, hdigits⟩
      rw [decide_eq_true hdigits, if_pos hword]
      rfl
    · have hword : ¬(c :: w ≠ [] ∧ ∀ a ∈ c :: w, IsDigit a) := fun h => hdigits h.2
      rw [decide_eq_false hdigits, if_neg hword]
      rfl

theorem readInt?_eq (w : Text) :
    Decimal.readInt? w =
      (Decimal.readNat? (signed w).2).map fun n : Nat => (signed w).1 * (n : Int) := by
  unfold Decimal.readInt?
  split
  · rename_i w
    rw [signed_minus]
    cases Decimal.readNat? w with
    | none => rfl
    | some n => simp
  · rename_i hsign
    have hhead : w.head? ≠ some '-' := by
      intro hhead
      obtain ⟨rest, rfl⟩ := List.head?_eq_some_iff.mp hhead
      exact hsign rest rfl
    rw [signed_of_head?_ne hhead]
    cases Decimal.readNat? w with
    | none => rfl
    | some n => simp

/-- The words that denote a value are read as that value, and no others are read. -/
theorem integer?_eq (w : Text) : integer? w = Decimal.read? w := by
  rw [Decimal.read?, readInt?_eq, readNat?_eq, integer?]
  generalize signed w = parts
  obtain ⟨sign, digits⟩ := parts
  dsimp only
  by_cases hdigits : digits ≠ [] ∧ ∀ c ∈ digits, IsDigit c
  · rw [if_pos hdigits, Option.map_some, Option.bind_some]
    exact ite_congr (propext (and_iff_right hdigits)) (fun _ => rfl) (fun _ => rfl)
  · have hword : ∀ q : Prop, ¬((digits ≠ [] ∧ ∀ c ∈ digits, IsDigit c) ∧ q) :=
      fun q h => hdigits h.1
    rw [if_neg hdigits, if_neg (hword _)]
    rfl

end DequeMachine.Plain
