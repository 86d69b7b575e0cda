import Mathlib.Data.List.Rotate
import DequeMachine.Deque

namespace DequeMachine.Plain

def frontPair? : List Int32 → Option (Int32 × Int32)
  | a :: b :: _ => some (a, b)
  | _ => none

def setFront (value : Int32) : List Int32 → List Int32
  | [] => []
  | _ :: xs => value :: xs

def swapFront : List Int32 → Bool × List Int32
  | a :: b :: xs => (true, b :: a :: xs)
  | xs => (false, xs)

/-- The front value moves to the back. -/
def rotateLeft : List Int32 → List Int32
  | [] => []
  | x :: xs => xs ++ [x]

/-- The back value moves to the front. -/
def rotateRight (xs : List Int32) : List Int32 := xs.getLast?.toList ++ xs.dropLast

/-- The first `n` answers of a walk over the values, which goes on answering `none` at the end. -/
def readings : Nat → List Int32 → List (Option Int32)
  | 0, _ => []
  | n + 1, xs => xs.head? :: readings n xs.tail

open Deque (Call Reply)

/-- What a call answers, and the values after it. -/
def perform (call : Call) (xs : List Int32) : Reply × List Int32 :=
  match call with
  | .pushFront v => (.flag true, v :: xs)
  | .pushBack v => (.flag true, xs ++ [v])
  | .popFront => (.value xs.head?, xs.tail)
  | .front => (.value xs.head?, xs)
  | .frontPair => (.pair (frontPair? xs), xs)
  | .swapFront => (.flag (swapFront xs).1, (swapFront xs).2)
  | .setFront v => (.value xs.head?, setFront v xs)
  | .rotateLeft => (.done, rotateLeft xs)
  | .rotateRight => (.done, rotateRight xs)
  | .release => (.done, [])
  | .size => (.count xs.length, xs)
  | .isEmpty => (.flag xs.isEmpty, xs)
  | .live => (.count xs.length, xs)
  | .readings n => (.readings (readings n xs), xs)
  | .inline => (.text (Deque.inlineText xs), xs)
  | .block => (.text (Deque.blockText xs), xs)

theorem rotateLeft_eq (xs : List Int32) : rotateLeft xs = xs.rotate 1 := by
  cases xs with
  | nil => rfl
  | cons x xs => simp [rotateLeft]

/-- A rotation to the right is all but one of the rotations to the left that bring the values back. -/
theorem rotateRight_eq (xs : List Int32) : rotateRight xs = xs.rotate (xs.length - 1) := by
  obtain rfl | ⟨ys, y, rfl⟩ := xs.eq_nil_or_concat
  · rfl
  · simp [rotateRight, List.concat_eq_append, List.rotate_append_length_eq]

theorem length_rotateLeft (xs : List Int32) : (rotateLeft xs).length = xs.length := by
  rw [rotateLeft_eq, List.length_rotate]

theorem length_rotateRight (xs : List Int32) : (rotateRight xs).length = xs.length := by
  rw [rotateRight_eq, List.length_rotate]

theorem rotateRight_rotateLeft (xs : List Int32) : rotateRight (rotateLeft xs) = xs := by
  cases xs with
  | nil => rfl
  | cons x xs => simp [rotateLeft, rotateRight]

theorem rotateLeft_rotateRight (xs : List Int32) : rotateLeft (rotateRight xs) = xs := by
  obtain rfl | ⟨ys, y, rfl⟩ := xs.eq_nil_or_concat
  · rfl
  · simp [rotateLeft, rotateRight]

/-- Read one by one, the values come in order and are followed by nothing. -/
theorem readings_eq (n : Nat) (xs : List Int32) :
    readings n xs = (xs.map some ++ List.replicate n none).take n := by
  induction n generalizing xs with
  | zero => rfl
  | succ n ih =>
    cases xs with
    | nil => simp [readings, ih, List.replicate_succ]
    | cons x xs =>
      simp only [readings, List.head?_cons, List.tail_cons, ih, List.map_cons, List.cons_append,
        List.take_succ_cons, List.take_append, List.take_replicate, List.length_map]
      congr 3
      omega

end DequeMachine.Plain
