import DequeMachine.Proofs.Deque.Calls

/-!
# Histories of a deque

A history is a list of calls, each seen through its reply and through what the deque shows after it.
Made on checked chains, a history breaks off at the first dead slot or negative size. None does: every
history of a new deque is the history of the empty list.
-/
namespace DequeMachine

open Deque (Call Reply)

/-- What a deque shows after a call: the reply, the values a walk meets, the size kept with the links,
whether there is a first slot, and the slots that hold a cell. -/
structure Observation where
  reply : Reply
  values : List Int32
  size : Nat
  isEmpty : Bool
  live : Nat
  deriving DecidableEq, Repr

namespace Chain

def seen? (reply : Reply) (c : Chain) : Option Observation :=
  c.toList?.map fun values => ⟨reply, values, c.size, c.first.isNone, c.live⟩

def history? : List Call → Chain → Option (List Observation)
  | [], _ => some []
  | call :: calls, c => do
    let (reply, c) ← c.perform? call
    let o ← c.seen? reply
    let os ← c.history? calls
    some (o :: os)

end Chain

namespace Deque

def seen (reply : Reply) (d : Deque) : Observation :=
  ⟨reply, d.toList, d.size, d.isEmpty, d.live⟩

def history : List Call → Deque → List Observation
  | [], _ => []
  | call :: calls, d =>
    let (reply, d) := d.perform call
    d.seen reply :: d.history calls

end Deque

namespace Plain

def seen (reply : Reply) (xs : List Int32) : Observation :=
  ⟨reply, xs, xs.length, xs.isEmpty, xs.length⟩

def history : List Call → List Int32 → List Observation
  | [], _ => []
  | call :: calls, xs => seen (perform call xs).1 (perform call xs).2 ::
    history calls (perform call xs).2

end Plain

theorem Chain.Represents.seen?_eq {c : Chain} {xs : List Int32} (h : c.Represents xs)
    (reply : Reply) : c.seen? reply = some (Plain.seen reply xs) := by
  simp [Chain.seen?, h.toList?_eq, h.size_eq, h.isNone_first, h.live_eq, Plain.seen]

theorem Deque.Represents.seen_eq {d : Deque} {xs : List Int32} (h : d.Represents xs)
    (reply : Reply) : d.seen reply = Plain.seen reply xs := by
  simp [Deque.seen, h.toList_eq, h.size_eq, h.isEmpty_eq, h.live_eq, Plain.seen]

theorem Chain.Represents.history?_eq {c : Chain} {xs : List Int32} (h : c.Represents xs)
    (calls : List Call) : c.history? calls = some (Plain.history calls xs) := by
  induction calls generalizing c xs with
  | nil => rfl
  | cons call calls ih =>
    obtain ⟨d, hd, hrep⟩ := h.perform? call
    simp [Chain.history?, hd, hrep.seen?_eq, ih hrep, Plain.history]

theorem Deque.Represents.history_eq {d : Deque} {xs : List Int32} (h : d.Represents xs)
    (calls : List Call) : d.history calls = Plain.history calls xs := by
  induction calls generalizing d xs with
  | nil => rfl
  | cons call calls ih =>
    obtain ⟨hreply, hrep⟩ := h.perform call
    simp only [Deque.history, Plain.history]
    rw [ih hrep, hrep.seen_eq, hreply]

theorem Deque.Represents.after {d : Deque} {xs : List Int32} (h : d.Represents xs)
    (calls : List Call) : (d.after calls).Represents (Plain.after calls xs) := by
  induction calls generalizing d xs with
  | nil => exact h
  | cons call calls ih => exact ih (h.perform call).2

/-- No later call tells whether a value went in at the back, or at the front and was rotated to the back. -/
theorem Deque.Represents.history_pushBack {d : Deque} {xs : List Int32} (h : d.Represents xs)
    (v : Int32) (later : List Call) :
    (d.pushBack v).2.history later = (d.pushFront v).2.rotateLeft.history later := by
  rw [(h.pushBack v).2.history_eq, (h.pushFront v).2.rotateLeft.history_eq, Plain.rotateLeft]

/-- Whatever is called on a new deque in whatever order, no call breaks off, and every reply and all
that shows after it are those of the empty list. -/
theorem Deque.history_eq_plain (calls : List Call) :
    (∅ : Chain).history? calls = some (Plain.history calls []) ∧
      (∅ : Deque).history calls = Plain.history calls [] :=
  ⟨Chain.Represents.empty.history?_eq calls, Deque.Represents.empty.history_eq calls⟩

end DequeMachine
