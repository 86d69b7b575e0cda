import DequeMachine.Machine
import DequeMachine.Journal
import DequeMachine.Streams

/-!
# Interpreters

An interpreter feeds the lines of a source to a machine, one by one, until a line fails or the
source ends. Whatever ends a run, the sink is then flushed once and the values are released; the
error of a line or of the source is reported before that of the flush. An interpreter runs once.
-/
namespace DequeMachine

inductive Lifecycle
  | running
  | haltedOk
  | haltedError
  deriving DecidableEq, Repr

def Lifecycle.name : Lifecycle → Text
  | running => "Running".toList
  | haltedOk => "HaltedOk".toList
  | haltedError => "HaltedError".toList

structure Interpreter where
  machine : Machine := {}
  lines : Nat := 0
  state : Lifecycle := .running
  sink : Sink := {}
  journal : Journal := {}

namespace Interpreter

/-- Records a change of mode on a line. -/
def noteMode (line : Nat) (before after : Mode) (j : Journal) : Journal :=
  if before = after then j
  else j.note .debug (Text.onLine line ("switching to ".toList ++ after.name ++ " mode".toList))

/-- Runs an instruction on the line counted last. A printing instruction that the sink cuts short
fails with the text of the sink. -/
def execute (i : Instruction) : Interpreter → Option Error × Interpreter
  | ⟨machine, line, state, sink, journal⟩ =>
    let journal := journal.note .debug (Text.onLine line i.opcode)
    let before := machine.mode
    match machine.step i with
    | (.error refusal, machine) => (some (refusal.onLine line), ⟨machine, line, state, sink, journal⟩)
    | (.ok printed, machine) =>
      let journal := noteMode line before machine.mode journal
      let (failure, sink) := sink.write printed
      (failure.map .io, ⟨machine, line, state, sink, journal⟩)

/-- Counts a line and runs what it holds. -/
def executeLine (line : Text) (s : Interpreter) : Option Error × Interpreter :=
  let s := { s with lines := s.lines + 1 }
  match Instruction.ofLine line with
  | .error fault => (some (.atLine s.lines fault), s)
  | .ok none =>
    (none, { s with journal := s.journal.note .trace (Text.onLine s.lines "skipped".toList) })
  | .ok (some i) => s.execute i

/-- Runs lines until one of them fails. -/
def executeLines : List Bytes → Interpreter → Option Error × Interpreter
  | [], s => (none, s)
  | line :: lines, s =>
    match s.executeLine (Utf8.decode line) with
    | (some e, s) => (some e, s)
    | (none, s) => s.executeLines lines

/-- Runs the lines of a source. What they do wrong comes before the failure of the source. -/
def consume (source : Source) (s : Interpreter) : Option Error × Interpreter :=
  let (lines, failure) := source.reading
  let (e, s) := s.executeLines lines
  (e.or (failure.map .io), s)

/-- Ends a run that met an error or none. -/
def halt (e : Option Error) : Interpreter → Option Error × Interpreter
  | ⟨machine, lines, _, sink, journal⟩ =>
    let (failure, sink) := sink.flush
    let e := e.or (failure.map .io)
    let state := if e.isNone then .haltedOk else .haltedError
    let text := "halted after ".toList ++ Decimal.digits lines ++ " lines: ".toList ++ state.name
    (e, ⟨machine.release, lines, state, sink, journal.note .info text⟩)

/-- An interpreter that has halted refuses to run and stays as it is. -/
def run (source : Source) (s : Interpreter) : Option Error × Interpreter :=
  if s.state = .running then
    let (e, s) := s.consume source
    s.halt e
  else (some .halted, s)

/-- Lines after a failing line are not run; lines after good ones go on from where those end. -/
theorem executeLines_append (a b : List Bytes) (s : Interpreter) :
    s.executeLines (a ++ b) =
      match s.executeLines a with
      | (some e, s) => (some e, s)
      | (none, s) => s.executeLines b := by
  induction a generalizing s with
  | nil => rfl
  | cons line a ih =>
    simp only [List.cons_append, executeLines]
    split
    · rfl
    · exact ih _

theorem run_of_halted {s : Interpreter} (h : s.state ≠ .running) (source : Source) :
    s.run source = (some .halted, s) := by
  simp [run, h]

theorem flushes_halt (e : Option Error) (s : Interpreter) :
    (s.halt e).2.sink.flushes = s.sink.flushes + 1 := rfl

theorem state_halt (e : Option Error) (s : Interpreter) :
    (s.halt e).2.state = if (s.halt e).1.isNone then .haltedOk else .haltedError := rfl

end Interpreter

end DequeMachine
