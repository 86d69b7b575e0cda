import DequeMachine.Interpreter
import DequeMachine.Proofs.Plain.Machine
import DequeMachine.Proofs.Text.Words

namespace DequeMachine.Plain

/-- A skipped line prints nothing and changes nothing. -/
def Machine.line (t : Text) (m : Machine) : Outcome :=
  match Instruction.ofWords t.words with
  | .error fault => .error fault
  | .ok none => m.print []
  | .ok (some i) => m.step i

/-- A plain interpreter counts lines and collects the text that they print. -/
structure Interpreter where
  machine : Machine := {}
  lines : Nat := 0
  state : Lifecycle := .running
  output : Text := []
  deriving DecidableEq, Repr

namespace Interpreter

def executeLine (t : Text) (s : Interpreter) : Option Error × Interpreter :=
  match s.machine.line t with
  | .error fault => (some (.atLine (s.lines + 1) fault), { s with lines := s.lines + 1 })
  | .ok (printed, machine) =>
    (none, { s with machine, lines := s.lines + 1, output := s.output ++ printed })

def executeLines : List Text → Interpreter → Option Error × Interpreter
  | [], s => (none, s)
  | t :: ts, s =>
    match s.executeLine t with
    | (some e, s) => (some e, s)
    | (none, s) => s.executeLines ts

/-- The values are given up; the state tells whether there was an error. -/
def halt (e : Option Error) (s : Interpreter) : Interpreter :=
  { s with
    machine := { s.machine with values := [] }
    state := if e.isNone then .haltedOk else .haltedError }

/-- Runs the lines of a program to the end or to the first that is refused. -/
def run (program : List Text) (s : Interpreter) : Option Error × Interpreter :=
  let (e, s) := s.executeLines program
  (e, s.halt e)

theorem lines_executeLine (t : Text) (s : Interpreter) : (s.executeLine t).2.lines = s.lines + 1 := by
  rw [executeLine]
  cases s.machine.line t <;> rfl

/-- All lines are taken, or those up to the first that is refused. -/
theorem executeLines_cases (ts : List Text) (s : Interpreter) :
    ((s.executeLines ts).1 = none ∧ (s.executeLines ts).2.lines = s.lines + ts.length) ∨
      ∃ k fault, k < ts.length ∧ (s.executeLines ts).1 = some (.atLine (s.lines + k + 1) fault) ∧
        (s.executeLines ts).2.lines = s.lines + k + 1 := by
  induction ts generalizing s with
  | nil => exact .inl ⟨rfl, rfl⟩
  | cons t ts ih =>
    have hlength : (t :: ts).length = ts.length + 1 := List.length_cons
    rw [executeLines, executeLine]
    cases s.machine.line t with
    | error fault => exact .inr ⟨0, fault, by omega, rfl, rfl⟩
    | ok outcome =>
      dsimp only
      rcases ih { s with
          machine := outcome.2, lines := s.lines + 1, output := s.output ++ outcome.1 } with
        ⟨hnone, hlines⟩ | ⟨k, fault, hk, hsome, hlines⟩
      · refine .inl ⟨hnone, ?_⟩
        dsimp only at hlines
        omega
      · have hcount : s.lines + 1 + k + 1 = s.lines + (k + 1) + 1 := by omega
        dsimp only at hsome hlines
        rw [hcount] at hsome hlines
        exact .inr ⟨k + 1, fault, by omega, hsome, hlines⟩

theorem output_executeLine (t : Text) (s : Interpreter) :
    s.output <+: (s.executeLine t).2.output := by
  rw [executeLine]
  cases s.machine.line t with
  | error fault => exact List.prefix_rfl
  | ok outcome => exact List.prefix_append s.output outcome.1

/-- What was printed stays. -/
theorem output_executeLines (ts : List Text) (s : Interpreter) :
    s.output <+: (s.executeLines ts).2.output := by
  induction ts generalizing s with
  | nil => exact List.prefix_rfl
  | cons t ts ih =>
    have hline := output_executeLine t s
    rw [executeLines]
    generalize s.executeLine t = answer at hline
    obtain ⟨e, s'⟩ := answer
    cases e with
    | none => exact hline.trans (ih s')
    | some e => exact hline

/-- Lines after a refused line are not taken; lines after good ones go on from where those end. -/
theorem executeLines_append (ts us : List Text) (s : Interpreter) :
    s.executeLines (ts ++ us) =
      match s.executeLines ts with
      | (some e, s) => (some e, s)
      | (none, s) => s.executeLines us := by
  induction ts generalizing s with
  | nil => rfl
  | cons t ts ih =>
    simp only [List.cons_append, executeLines]
    split
    · rfl
    · exact ih _

end Interpreter

end DequeMachine.Plain
