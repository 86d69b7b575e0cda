import DequeMachine.Chain.Sound
import DequeMachine.Text.Decimal

/-!
# Deques of values

A deque is a sound chain seen through its values, which leave at the front and enter at either end. Its
operations are the checked ones of the chain, and since the chain is sound they all complete.
-/
namespace DequeMachine

structure Deque where
  chain : Chain
  sound : chain.Sound
  deriving DecidableEq, Repr

namespace Deque

/-- An empty deque with room for so many slots. -/
def within (limit : Option Nat) : Deque := ⟨.within limit, .within limit⟩

instance : EmptyCollection Deque := ⟨within none⟩

/-- What a checked operation answers and leaves, when it completes. -/
def complete {α : Type} (result : Option (α × Chain)) (h : Chain.Completes result) : α × Deque :=
  match result, h with
  | some (answer, chain), h => (answer, ⟨chain, h.sound⟩)
  | none, h => absurd h Chain.Completes.not_none

theorem eq_some_complete {α : Type} {result : Option (α × Chain)} (h : Chain.Completes result) :
    result = some ((complete result h).1, (complete result h).2.chain) := by
  obtain ⟨answer, c, rfl, hsound⟩ := h
  rfl

/-- The values from front to back. -/
def toList (d : Deque) : List Int32 := d.chain.toList?.get d.sound.isSome_toList?

def size (d : Deque) : Nat := d.chain.size

def isEmpty (d : Deque) : Bool := d.chain.first.isNone

/-- The slots that hold a value. -/
def live (d : Deque) : Nat := d.chain.live

def front? (d : Deque) : Option Int32 := d.chain.front?.get d.sound.isSome_front?

/-- The two front values, front first. -/
def frontPair? (d : Deque) : Option (Int32 × Int32) := d.chain.frontPair?.get d.sound.isSome_frontPair?

/-- Answers whether there was room for the value. -/
def pushFront (value : Int32) (d : Deque) : Bool × Deque :=
  complete (d.chain.pushFront? value) (d.sound.pushFront? value)

/-- Answers whether there was room for the value. -/
def pushBack (value : Int32) (d : Deque) : Bool × Deque :=
  complete (d.chain.pushBack? value) (d.sound.pushBack? value)

def popFront (d : Deque) : Option Int32 × Deque := complete d.chain.popFront? d.sound.popFront?

/-- Overwrites the front value and answers the value it had. -/
def setFront (value : Int32) (d : Deque) : Option Int32 × Deque :=
  complete (d.chain.setFront? value) (d.sound.setFront? value)

/-- Exchanges the two front values; `false` if there are fewer. -/
def swapFront (d : Deque) : Bool × Deque := complete d.chain.swapFront? d.sound.swapFront?

/-- Moves the front value to the back. -/
def rotateLeft (d : Deque) : Deque := (complete (d.chain.rotateLeft?.map ((), ·)) d.sound.rotateLeft?).2

/-- Moves the back value to the front. -/
def rotateRight (d : Deque) : Deque := (complete (d.chain.rotateRight?.map ((), ·)) d.sound.rotateRight?).2

/-- Gives up all values and all slots. -/
def release (d : Deque) : Deque := ⟨d.chain.clear, .within d.chain.limit⟩

/-- Drops the front value and overwrites the next one. -/
def collapse (value : Int32) (d : Deque) : Deque := (d.popFront.2.setFront value).2

/-- On one line the values stand between brackets with commas between them. -/
def inlineText (values : List Int32) : Text :=
  '[' :: List.intercalate ", ".toList (values.map Decimal.write) ++ [']']

/-- In a block each value has an indented line of its own, and no values leave the brackets bare. -/
def blockText (values : List Int32) : Text :=
  if values.isEmpty then "[]".toList
  else "[\n".toList ++ values.flatMap (fun v => "    ".toList ++ Decimal.write v ++ ",\n".toList)
    ++ [']']

def inline (d : Deque) : Text := inlineText d.toList

def block (d : Deque) : Text := blockText d.toList

/-- The operations of a deque as data, so that a history of a deque is a list of calls. -/
inductive Call
  | pushFront (value : Int32)
  | pushBack (value : Int32)
  | popFront
  | front
  | frontPair
  | swapFront
  | setFront (value : Int32)
  | rotateLeft
  | rotateRight
  | release
  | size
  | isEmpty
  | live
  | readings (n : Nat)
  | inline
  | block
  deriving DecidableEq, Repr

inductive Reply
  | done
  | flag (b : Bool)
  | value (v : Option Int32)
  | pair (p : Option (Int32 × Int32))
  | count (n : Nat)
  | readings (vs : List (Option Int32))
  | text (t : Text)
  deriving DecidableEq, Repr

/-- The first `n` answers of a walk from the front, which goes on answering `none` at the end. -/
def readings (n : Nat) (d : Deque) : List (Option Int32) :=
  (d.toList.map some ++ List.replicate n none).take n

def perform (call : Call) (d : Deque) : Reply × Deque :=
  match call with
  | .pushFront v => let (stored, d) := d.pushFront v; (.flag stored, d)
  | .pushBack v => let (stored, d) := d.pushBack v; (.flag stored, d)
  | .popFront => let (v, d) := d.popFront; (.value v, d)
  | .front => (.value d.front?, d)
  | .frontPair => (.pair d.frontPair?, d)
  | .swapFront => let (b, d) := d.swapFront; (.flag b, d)
  | .setFront v => let (old, d) := d.setFront v; (.value old, d)
  | .rotateLeft => (.done, d.rotateLeft)
  | .rotateRight => (.done, d.rotateRight)
  | .release => (.done, d.release)
  | .size => (.count d.size, d)
  | .isEmpty => (.flag d.isEmpty, d)
  | .live => (.count d.live, d)
  | .readings n => (.readings (d.readings n), d)
  | .inline => (.text d.inline, d)
  | .block => (.text d.block, d)

end Deque

end DequeMachine
