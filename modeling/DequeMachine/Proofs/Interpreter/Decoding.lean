import DequeMachine.Proofs.Interpreter.Lifecycle
import DequeMachine.Proofs.Interpreter.Runs
import DequeMachine.Proofs.Text.DecodedLines

namespace DequeMachine.Interpreter

open Bytes (newline)
open Utf8 (decode encode)

/-- Only the decoded lines count. -/
theorem executeLines_congr_decode {xs ys : List Bytes} (h : xs.map decode = ys.map decode)
    (s : Interpreter) : s.executeLines xs = s.executeLines ys := by
  induction xs generalizing ys s with
  | nil => rw [List.map_eq_nil_iff.mp h.symm]
  | cons x xs ih =>
    obtain ⟨y, ys, rfl, hfirst, hrest⟩ := List.map_eq_cons_iff.mp h.symm
    rw [executeLines, executeLines, hfirst]
    split
    · rfl
    · exact ih hrest.symm _

theorem run_congr_decode {p q : Bytes} (h : p.lines.map decode = q.lines.map decode) (s : Interpreter) :
    s.run { bytes := p } = s.run { bytes := q } := by
  rw [run, run, consume, consume, Source.reading_program, Source.reading_program]
  dsimp only
  rw [executeLines_congr_decode h s]

/-- A new interpreter reads a program to its end, or up to a line that is refused. -/
theorem run_cases (program : Bytes) (journal : Journal) :
    let answer := ({ journal } : Interpreter).run { bytes := program }
    (answer.1 = none ∧ answer.2.lines = program.lines.length) ∨
      ∃ k fault, k < program.lines.length ∧ answer.1 = some (.atLine (k + 1) fault) ∧
        answer.2.lines = k + 1 := by
  intro answer
  obtain ⟨herror, hshows⟩ := (follows_new journal).run rfl program
  have hcases := Plain.Interpreter.executeLines_cases (program.lines.map decode) {}
  generalize hplain : ({} : Plain.Interpreter).executeLines (program.lines.map decode) = plain at hcases
  have hanswer : answer.1 = plain.1 := by rw [herror, Plain.Interpreter.run, hplain]
  have hlines : answer.2.lines = plain.2.lines := by
    rw [hshows.lines, Plain.Interpreter.run, hplain]
    rfl
  simp only [List.length_map, Nat.zero_add] at hcases
  rw [hanswer, hlines]
  exact hcases

/-- Whatever its bytes are, a program decoded line by line gives what it gives decoded as a whole, where
each longest ill-formed part is replaced. Its pieces between newlines are decoded to the pieces of its
text, so its text written out again has as many lines and runs in the same way, on every interpreter.
What is ill-formed ends no run: only a line that is refused does, and every line up to there is
counted. -/
theorem run_encode_decode (program : Bytes) :
    (∀ b t, Utf8.Lossy b t ↔ t = decode b) ∧
    (program.splitOn newline).map decode = (decode program).splitOn '\n' ∧
    program.lines.map decode = Text.lines (decode program) ∧
    (encode (decode program)).lines.length = program.lines.length ∧
    (∀ s : Interpreter, s.run { bytes := encode (decode program) } = s.run { bytes := program }) ∧
    ∀ journal,
      let answer := ({ journal } : Interpreter).run { bytes := program }
      (answer.1 = none ∧ answer.2.lines = program.lines.length) ∨
        ∃ k fault, k < program.lines.length ∧ answer.1 = some (.atLine (k + 1) fault) ∧
          answer.2.lines = k + 1 := by
  have hlines := Utf8.map_decode_lines_encode program
  refine ⟨fun b t => Utf8.lossy_iff, Utf8.map_decode_splitOn program, Utf8.map_decode_lines program,
    ?_, run_congr_decode hlines, run_cases program⟩
  have hlength := congrArg List.length hlines
  rwa [List.length_map, List.length_map] at hlength

end DequeMachine.Interpreter
