import DequeMachine.Proofs.Interpreter.Lifecycle
import DequeMachine.Proofs.Text.Lines

namespace DequeMachine

open Bytes (IsWholePart)

namespace Source

variable {program part : Bytes} {n : Nat}

theorem reading_of_le (h : n ≤ program.length) (hpart : IsWholePart part (program.take n))
    (text : Text) : reading ⟨program, some ⟨n, text⟩⟩ = (part.lines, some text) := by
  simp only [reading, if_pos h, hpart.finishedLines_eq]

theorem reading_of_lt (h : program.length < n) (text : Text) :
    reading ⟨program, some ⟨n, text⟩⟩ = reading { bytes := program } := by
  simp only [reading, if_neg (Nat.not_le_of_lt h)]

theorem exists_break_of_reading {source : Source} {text : Text} (h : source.reading.2 = some text) :
    ∃ b ∈ source.broken, b.after ≤ source.bytes.length ∧ text = b.text := by
  unfold reading at h
  split at h
  · rename_i after text' hbroken
    split at h
    · rename_i hafter
      exact ⟨_, hbroken, hafter, (Option.some.inj h).symm⟩
    · cases h
  · cases h

/-- Whatever breaks, the lines that are read are the first ones of the program. -/
theorem reading_prefix (source : Source) : source.reading.1 <+: source.bytes.lines := by
  obtain ⟨program, _ | ⟨n, text⟩⟩ := source
  · exact List.prefix_rfl
  · rcases Nat.lt_or_ge program.length n with hlt | hle
    · rw [reading_of_lt hlt]
      exact List.prefix_rfl
    · obtain ⟨part, hpart⟩ := Bytes.exists_isWholePart (program.take n)
      obtain ⟨rest, hrest⟩ := hpart.begins.trans (List.take_prefix n program)
      rw [reading_of_le hle hpart]
      dsimp only
      rw [← hrest, Bytes.lines_append hpart.whole]
      exact List.prefix_append _ _

theorem exists_lines_eq {source : Source} {before after : List Bytes} {line : Bytes}
    (h : source.reading.1 = before ++ line :: after) :
    ∃ more, source.bytes.lines = before ++ line :: more := by
  obtain ⟨more, hmore⟩ := source.reading_prefix
  exact ⟨after ++ more, by rw [← hmore, h, List.append_assoc, List.cons_append]⟩

end Source

namespace Interpreter

variable {s : Interpreter} {source other : Source}

theorem run_congr (hs : s.state = .running) (h : source.reading = other.reading) :
    s.run source = s.run other := by
  rw [run_eq_halt hs, run_eq_halt hs, h]

section part

variable {part : Bytes} {text : Text}

/-- An error within the lines that were read comes before the break. -/
theorem run_eq_of_failing_part (hs : s.state = .running) (hflush : s.sink.flushFailure = none)
    (hreading : source.reading = (part.lines, some text)) {e : Error}
    (h : (s.run { bytes := part }).1 = some e) : s.run source = s.run { bytes := part } := by
  rw [run_fst_of_flushing hs hflush] at h
  have hlines : s.executeLines part.lines = (some e, (s.executeLines part.lines).2) :=
    Prod.ext h rfl
  rw [run_of_failing hs hreading hlines, run_of_failing hs (Source.reading_program part) hlines]

/-- Behind lines that pass the break alone makes the difference. -/
theorem exists_halt_of_passing_part (hs : s.state = .running) (hflush : s.sink.flushFailure = none)
    (hreading : source.reading = (part.lines, some text))
    (h : (s.run { bytes := part }).1 = none) :
    ∃ t : Interpreter, s.run { bytes := part } = t.halt none ∧
      s.run source = t.halt (some (.io text)) := by
  rw [run_fst_of_flushing hs hflush] at h
  have hpasses := passes_of_fst_eq_none h
  exact ⟨_, run_of_passing hs (Source.reading_program part) hpasses,
    run_of_passing hs hreading hpasses⟩

end part

/-- A break that is never met changes nothing. Any other one leaves of the program its longest whole
beginning: if that fails, so does the run, in the same way, and if not, the run fails with the text of
the break and leaves what the beginning does. The program behind has no influence. -/
theorem run_broken (program : Bytes) (n : Nat) (text : Text) (limit : Option Sink.Limit)
    (journal : Journal) :
    let s : Interpreter := { sink := { limit }, journal }
    let broken := s.run ⟨program, some ⟨n, text⟩⟩
    (program.length < n → broken = s.run { bytes := program }) ∧
    (n ≤ program.length → ∃ part : Bytes, IsWholePart part (program.take n) ∧
      let whole := s.run { bytes := part }
      (∀ e, whole.1 = some e → broken = whole) ∧
      (whole.1 = none →
        broken.1 = some (.io text) ∧ broken.2.state = .haltedError ∧
        broken.2.machine.values.Released ∧ broken.2.machine.mode = whole.2.machine.mode ∧
        broken.2.lines = whole.2.lines ∧ broken.2.sink = whole.2.sink) ∧
      ∀ (other : Bytes) (m : Nat), m ≤ other.length → IsWholePart part (other.take m) →
        s.run ⟨other, some ⟨m, text⟩⟩ = broken) := by
  intro s broken
  refine ⟨fun hlt => run_congr rfl (Source.reading_of_lt hlt text), fun hle => ?_⟩
  obtain ⟨part, hpart⟩ := Bytes.exists_isWholePart (program.take n)
  have hreading := Source.reading_of_le hle hpart text
  have hother : ∀ (other : Bytes) (m : Nat), m ≤ other.length → IsWholePart part (other.take m) →
      s.run ⟨other, some ⟨m, text⟩⟩ = broken := by
    intro other m hm hpart'
    exact run_congr rfl ((Source.reading_of_le hm hpart' text).trans hreading.symm)
  refine ⟨part, hpart, ?_⟩
  intro whole
  refine ⟨fun e he => run_eq_of_failing_part rfl rfl hreading he, fun hnone => ?_, hother⟩
  obtain ⟨t, hwhole, hbroken⟩ := exists_halt_of_passing_part rfl rfl hreading hnone
  rw [show whole = t.halt none from hwhole, show broken = t.halt (some (.io text)) from hbroken]
  exact ⟨rfl, rfl, t.machine.values.released_release, rfl, rfl, rfl⟩

/-- The break falls inside the third line, so two lines are executed. -/
theorem run_broken_third_line :
    let program := Utf8.encode "push 1\npint\npall\nswap".toList
    let part := Utf8.encode "push 1\npint\n".toList
    let text := "read failed".toList
    let s : Interpreter := {}
    let broken := s.run ⟨program, some ⟨14, text⟩⟩
    14 ≤ program.length ∧ IsWholePart part (program.take 14) ∧ (s.run { bytes := part }).1 = none ∧
      broken.1 = some (.io text) ∧ broken.2.lines = 2 ∧
      broken.2.sink = (s.run { bytes := part }).2.sink := by
  intro program part text s broken
  have hlong : 14 ≤ program.length := by decide
  have hpart : IsWholePart part (program.take 14) :=
    Bytes.isWholePart_append (.inr rfl) (by decide : Bytes.newline ∉ Utf8.encode "pa".toList)
  have hpass : (s.run { bytes := part }).1 = none := by decide
  obtain ⟨other, hother, -, hbroken, -⟩ := (run_broken program 14 text none {}).2 hlong
  obtain rfl : other = part := hother.unique hpart
  obtain ⟨herror, -, -, -, hlines, hsink⟩ := hbroken hpass
  exact ⟨hlong, hpart, hpass, herror, hlines, hsink⟩

end Interpreter

end DequeMachine
