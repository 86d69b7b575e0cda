import DequeMachine.Proofs.Interpreter.Ahead
import DequeMachine.Proofs.Interpreter.Decoding
import DequeMachine.Proofs.Text.Canonical

namespace DequeMachine

open Bytes (newline canonical)
open Text (words canonicalWords canonicalArgument canonicalLine Respelled)
open Utf8 (decode encode)

theorem Instruction.alike_canonicalWords (ws : List Text) :
    Alike (ofWords ws) (ofWords (canonicalWords ws)) := by
  cases ws with
  | nil => exact .skipped
  | cons w ws =>
    rw [canonicalWords]
    by_cases hmark : w.head? = some Token.commentMark
    · have hcomment : ofWords (w :: ws) = .ok none := if_pos hmark
      rw [if_pos hmark, hcomment]
      exact .skipped
    · rw [if_neg hmark]
      by_cases halias : w = Opcode.divAlias
      · -- Both spellings name division, which reads no argument.
        subst halias
        rw [if_pos rfl, ofWords_of_opcode rfl, ofWords_of_opcode (Opcode.ofWord?_word .div)]
        exact .obeyed (Machine.step_congr rfl fun h => Opcode.noConfusion h)
      · rw [if_neg halias]
        by_cases hpush : w = Opcode.push.word
        · subst hpush
          rw [if_pos rfl, ofWords_of_opcode (Opcode.ofWord?_word .push),
            ofWords_of_opcode (Opcode.ofWord?_word .push)]
          refine .obeyed (Machine.step_congr rfl fun _ => ?_)
          cases ws with
          | nil => rfl
          | cons a ws => exact (Text.read?_canonicalArgument a).symm
        · rw [if_neg hpush]
          cases hop : Opcode.ofWord? w with
          | none =>
            rw [ofWords, ofWords, if_neg hmark, if_neg hmark, hop]
            exact .refused _
          | some op =>
            rw [ofWords_of_opcode hop, ofWords_of_opcode hop]
            refine .obeyed (Machine.step_congr rfl fun h => ?_)
            rcases Opcode.ofWord?_eq_some_iff.mp hop with rfl | ⟨rfl, -⟩
            · exact absurd (congrArg Opcode.word h) hpush
            · exact absurd rfl halias

theorem Text.alike_canonicalLine (t : Text) : t.Alike (canonicalLine t) := by
  rw [Alike, Instruction.ofLine_eq, Instruction.ofLine_eq, words_canonicalLine]
  exact Instruction.alike_canonicalWords t.words

namespace Interpreter

/-- The answer to a program, and the interpreter that it leaves, except for what that has recorded. -/
def outcome (program : Bytes) (s : Interpreter) : Option Error × Interpreter :=
  let answer := s.run { bytes := program }
  (answer.1, answer.2.unlogged)

variable {p q : Bytes}

theorem outcome_congr (h : List.Forall₂ Text.Alike (p.lines.map decode) (q.lines.map decode))
    (s : Interpreter) : s.outcome q = s.outcome p := by
  by_cases hs : s.state = .running
  · obtain ⟨herror, hahead⟩ := (Ahead.refl s).executeLines h
    obtain ⟨hanswer, hhalted⟩ := hahead.halt (s.executeLines p.lines).1
    simp only [Error.map_delayed_zero] at herror hanswer hhalted
    rw [outcome, outcome, run_of_running hs, run_of_running hs, herror]
    exact Prod.ext hanswer (ahead_zero_iff.mp hhalted)
  · rw [outcome, outcome, run_of_halted hs, run_of_halted hs]

theorem outcome_canonical (program : Bytes) (s : Interpreter) :
    s.outcome (canonical program) = s.outcome program := by
  apply outcome_congr
  rw [Bytes.map_decode_lines_canonical, List.forall₂_map_right_iff, List.forall₂_same]
  exact fun t _ => t.alike_canonicalLine

theorem canonical_congr (h : List.Forall₂ Respelled (p.lines.map decode) (q.lines.map decode)) :
    canonical q = canonical p := by
  have hlines : List.Forall₂ (· = ·) ((p.lines.map decode).map canonicalLine)
      ((q.lines.map decode).map canonicalLine) := by
    rw [List.forall₂_map_left_iff (f := canonicalLine), List.forall₂_map_right_iff (f := canonicalLine)]
    exact h.imp fun _ _ => Respelled.canonicalLine_eq
  rw [List.forall₂_eq_eq_eq] at hlines
  rw [canonical, canonical, hlines]

/-- A program in canonical form has the outcome of the program itself, on every interpreter. So have all
programs whose lines are, one by one, other spellings of its lines, and a newline behind an unfinished last
line changes nothing at all. A value in canonical form is the same value, with no zero in front of other
digits and no minus sign in front of zero. -/
theorem outcome_spelling (program : Bytes) (s : Interpreter) :
    s.outcome (canonical program) = s.outcome program ∧
    (∀ q : Bytes, List.Forall₂ Respelled (program.lines.map decode) (q.lines.map decode) →
      s.outcome q = s.outcome program) ∧
    (¬program.Whole → s.run { bytes := program ++ [newline] } = s.run { bytes := program }) ∧
    ∀ w v, Plain.integer? w = some v → Plain.integer? (canonicalArgument w) = some v ∧
      ((Plain.signed (canonicalArgument w)).2.head? = some '0' → canonicalArgument w = ['0']) := by
  refine ⟨outcome_canonical program s, fun q hq => ?_, fun hwhole => ?_, fun _ _ =>
    Text.integer?_canonicalArgument⟩
  · rw [← outcome_canonical q, canonical_congr hq, outcome_canonical]
  · apply run_congr_decode
    rw [Bytes.lines_append_newline_of_not_whole hwhole]

/-- Tabs, carriage returns, other words, an argument of `pint` and the other spelling of division. -/
theorem outcome_spelling_quotient :
    let program := encode "push -7\npush 2\ndiv\npint\nswap".toList
    let other := encode "\tpush  -7 seven\r\n push 2\r\ndiv_m 3\npint all \nswap\n".toList
    let s : Interpreter := {}
    List.Forall₂ Respelled (program.lines.map decode) (other.lines.map decode) ∧
      (s.outcome program).1 = some (.atLine 5 (.tooShort "swap".toList)) ∧
      (s.outcome program).2.sink.kept.toList = encode "-3\n".toList ∧
      s.outcome other = s.outcome program := by
  intro program other s
  have hprogram : program.lines.map decode = ["push -7".toList, "push 2".toList, "div".toList,
      "pint".toList, "swap".toList] := by decide
  have hother : other.lines.map decode = ["\tpush  -7 seven\r".toList, " push 2\r".toList,
      "div_m 3".toList, "pint all ".toList, "swap".toList] := by decide
  have hpush : words "push -7".toList = ["push".toList, "-7".toList] := by decide
  have hpush' : words "\tpush  -7 seven\r".toList =
      ["push".toList, "-7".toList, "seven".toList] := by decide
  have hdiv : words "div".toList = ["div".toList] := by decide
  have hdiv' : words "div_m 3".toList = ["div_m".toList, "3".toList] := by decide
  have hpint : words "pint".toList = ["pint".toList] := by decide
  have hpint' : words "pint all ".toList = ["pint".toList, "all".toList] := by decide
  have hne : "pint".toList ≠ Opcode.push.word := by decide
  have hrespelled : List.Forall₂ Respelled (program.lines.map decode) (other.lines.map decode) := by
    rw [hprogram, hother]
    exact .cons (.rest hpush hpush') (.cons (.blanks (by decide)) (.cons (.division hdiv hdiv')
      (.cons (.arguments hne hpint hpint') (.cons (.blanks rfl) .nil))))
  exact ⟨hrespelled, by decide, by decide, (outcome_spelling program s).2.1 other hrespelled⟩

end Interpreter

end DequeMachine
