import DequeMachine.Text.Basic

/-!
# Sources and sinks

A source gives the bytes of a program, or only some of them before it fails. A line is read when
its newline is, or when the program ends in good order; a line that the failure cuts off is not.

A sink keeps what is written to it. With a limit it keeps exactly as many bytes as it has room for
and fails on the first one beyond.
-/
namespace DequeMachine

/-- A source breaks in place of giving a byte, or the end, after so many bytes. -/
structure Source.Break where
  after : Nat
  text : Text
  deriving DecidableEq, Repr

structure Source where
  bytes : Bytes := []
  broken : Option Source.Break := none
  deriving DecidableEq, Repr

namespace Source

/-- A source that fails at once. -/
def failing (text : Text) : Source := ⟨[], some ⟨0, text⟩⟩

/-- The lines that are read, and the failure met after them. -/
def reading (s : Source) : List Bytes × Option Text :=
  match s.broken with
  | some ⟨after, text⟩ =>
    if after ≤ s.bytes.length then (Bytes.finishedLines (s.bytes.take after), some text)
    else (s.bytes.lines, none)
  | none => (s.bytes.lines, none)

end Source

structure Sink.Limit where
  room : Nat
  text : Text
  deriving DecidableEq, Repr

structure Sink where
  kept : Array UInt8 := #[]
  limit : Option Sink.Limit := none
  flushFailure : Option Text := none
  flushes : Nat := 0
  deriving DecidableEq, Repr

namespace Sink

/-- Answers the failure, if there was one. -/
def write (b : Bytes) (s : Sink) : Option Text × Sink :=
  match s.limit with
  | some ⟨room, text⟩ =>
    if s.kept.size + b.length ≤ room then (none, { s with kept := s.kept ++ b })
    else (some text, { s with kept := s.kept ++ b.take (room - s.kept.size) })
  | none => (none, { s with kept := s.kept ++ b })

def flush (s : Sink) : Option Text × Sink :=
  (s.flushFailure, { s with flushes := s.flushes + 1 })

theorem write_of_unlimited {s : Sink} (h : s.limit = none) (b : Bytes) :
    s.write b = (none, { s with kept := s.kept ++ b }) := by
  simp [write, h]

end Sink

end DequeMachine
