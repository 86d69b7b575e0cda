import DequeMachine.Proofs.Machine.Steps
import DequeMachine.Proofs.Plain.Interpreter
import DequeMachine.Proofs.Instruction.Lines
import DequeMachine.Proofs.Sink

namespace DequeMachine

namespace Interpreter

/-- The machine represents a plain one, and the sink keeps no more than it has room for. -/
structure Represents (s : Interpreter) (p : Plain.Machine) : Prop where
  machine : s.machine.Represents p
  sink : s.sink.Fits

theorem represents_new (limit : Option Sink.Limit) (flushFailure : Option Text) (journal : Journal) :
    ({ sink := { limit, flushFailure }, journal } : Interpreter).Represents {} where
  machine := ⟨Deque.Represents.empty, rfl⟩
  sink := fun l _ => Nat.zero_le l.room

/-- One line later: the interpreter represents `p`, has counted the line and left the sink so. -/
structure Counted (s : Interpreter) (p : Plain.Machine) (sink : Sink) (s' : Interpreter) : Prop where
  machine : s'.machine.Represents p
  lines : s'.lines = s.lines + 1
  state : s'.state = s.state
  sink : s'.sink = sink

variable {s : Interpreter} {p p' : Plain.Machine} {t : Text} {fault : Fault} {refusal : Refusal} {printed : Text}

theorem execute_of_error {i : Instruction} {m : Machine}
    (hstep : s.machine.step i = (.error refusal, m)) :
    s.execute i = (some (refusal.onLine s.lines),
      { s with machine := m, journal := s.journal.note .debug (Text.onLine s.lines i.opcode) }) := by
  simp only [execute, hstep]

theorem execute_of_ok {i : Instruction} {m : Machine} {b : Bytes}
    (hstep : s.machine.step i = (.ok b, m)) :
    s.execute i = ((s.sink.write b).1.map .io,
      { s with
        machine := m
        sink := (s.sink.write b).2
        journal := noteMode s.lines s.machine.mode m.mode
          (s.journal.note .debug (Text.onLine s.lines i.opcode)) }) := by
  simp only [execute, hstep]

theorem executeLine_of_instruction {i : Instruction} (h : Instruction.ofLine t = .ok (some i)) :
    s.executeLine t = { s with lines := s.lines + 1 }.execute i := by
  rw [executeLine, h]

/-- A line of an interpreter, beside the plain outcome of the line. -/
theorem executeLine_spec (h : s.Represents p) (t : Text) :
    match p.line t with
    | .error fault =>
      ∃ s', s.executeLine t = (some (.atLine (s.lines + 1) fault), s') ∧ s.Counted p s.sink s'
    | .ok (printed, p') =>
      ∃ s', s.executeLine t = ((s.sink.write (Utf8.encode printed)).1.map .io, s') ∧
        s.Counted p' (s.sink.write (Utf8.encode printed)).2 s' := by
  rw [Plain.Machine.line, executeLine, Instruction.ofLine_eq]
  cases Instruction.ofWords t.words with
  | error fault => exact ⟨_, rfl, h.machine, rfl, rfl, rfl⟩
  | ok instruction =>
    cases instruction with
    | none =>
      simp only [Plain.Machine.print, Utf8.encode_nil, Sink.write_nil h.sink]
      exact ⟨_, rfl, h.machine, rfl, rfl, rfl⟩
    | some i =>
      have hstep := h.machine.step i
      dsimp only
      generalize hanswer : s.machine.step i = answer at hstep
      generalize p.step i = outcome at hstep ⊢
      cases hstep with
      | refused fault hrep =>
        exact ⟨_, execute_of_error (s := { s with lines := s.lines + 1 }) hanswer, hrep, rfl, rfl, rfl⟩
      | done printed hrep => exact ⟨_, execute_of_ok hanswer, hrep, rfl, rfl, rfl⟩

theorem executeLine_of_error (h : s.Represents p) (hline : p.line t = .error fault) :
    ∃ s', s.executeLine t = (some (.atLine (s.lines + 1) fault), s') ∧ s.Counted p s.sink s' := by
  have hspec := executeLine_spec h t
  rwa [hline] at hspec

theorem executeLine_of_ok (h : s.Represents p) (hline : p.line t = .ok (printed, p')) :
    ∃ s', s.executeLine t = ((s.sink.write (Utf8.encode printed)).1.map .io, s') ∧
      s.Counted p' (s.sink.write (Utf8.encode printed)).2 s' := by
  have hspec := executeLine_spec h t
  rwa [hline] at hspec

/-- A line that prints nothing leaves the sink alone, however little room there is. -/
theorem executeLine_of_silent (h : s.Represents p) (hline : p.line t = .ok ([], p')) :
    ∃ s', s.executeLine t = (none, s') ∧ s.Counted p' s.sink s' := by
  obtain ⟨s', hs', hcounted⟩ := executeLine_of_ok h hline
  rw [Utf8.encode_nil, Sink.write_nil h.sink] at hs' hcounted
  exact ⟨s', hs', hcounted⟩

end Interpreter

end DequeMachine
