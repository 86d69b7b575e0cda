import DequeMachine.Proofs.Interpreter.Lifecycle
import DequeMachine.Proofs.Interpreter.Runs
import DequeMachine.Proofs.Text.Lines

namespace DequeMachine.Interpreter

variable {s t : Interpreter} {p : Bytes}

theorem run_append_of_failing (hp : p.Whole) {e : Error}
    (h : s.executeLines p.lines = (some e, t)) (hs : s.state = .running) (q : Bytes) :
    s.run { bytes := p ++ q } = s.run { bytes := p } := by
  have hboth : s.executeLines (p ++ q).lines = (some e, t) := by
    rw [Bytes.lines_append hp, executeLines_append, h]
  rw [run_of_failing hs (Source.reading_program (p ++ q)) hboth,
    run_of_failing hs (Source.reading_program p) h]

theorem Passes.run_append (hp : p.Whole) (h : s.Passes p.lines t) (hs : s.state = .running)
    (q : Bytes) :
    s.run { bytes := p ++ q } = (t.executeLines q.lines).2.halt (t.executeLines q.lines).1 := by
  rw [run_of_running hs, Bytes.lines_append hp, h.executeLines_append]

/-- Lines that pass leave a new interpreter following the plain interpreter that holds what it shows. -/
theorem Passes.follows_new {lines : List Bytes} {journal : Journal}
    (h : ({ journal } : Interpreter).Passes lines t) :
    ∃ values output, t.machine.values.chain.toList? = some values ∧
      t.sink.kept.toList = Utf8.encode output ∧
      t.Follows {} ⟨⟨values, t.machine.mode⟩, t.lines, .running, output⟩ := by
  obtain ⟨-, hfollows⟩ := new_executeLines journal lines
  rw [executeLines_eq_none_iff.mpr h] at hfollows
  generalize (Plain.Interpreter.executeLines _ _).2 = plain at hfollows
  obtain ⟨⟨values, mode⟩, count, state, output⟩ := plain
  obtain rfl : t.machine.mode = mode := hfollows.machine.mode
  obtain rfl : t.lines = count := hfollows.lines
  obtain rfl : t.state = state := hfollows.state
  have hrunning : t.state = .running := h.continues.state
  rw [hrunning] at hfollows
  exact ⟨values, output, hfollows.shows.values, hfollows.shows.output, hfollows⟩

/-- A failed program ends the run. A program that succeeds hands over its values, mode, count and output:
the run goes on with the lines of the second program, and only these four matter. What the first program
printed stays in any case. -/
theorem run_whole_append (hp : p.Whole) (q : Bytes) (journal : Journal) :
    let s : Interpreter := { journal }
    let first := s.run { bytes := p }
    let both := s.run { bytes := p ++ q }
    (∀ e, first.1 = some e → both = first) ∧
    (first.1 = none →
      let t := (s.consume { bytes := p }).2
      both = (t.executeLines q.lines).2.halt (t.executeLines q.lines).1 ∧
      ∃ values output, t.machine.values.chain.toList? = some values ∧
        t.sink.kept.toList = Utf8.encode output ∧
        let handed : Plain.Interpreter := ⟨⟨values, t.machine.mode⟩, t.lines, .running, output⟩
        both.1 = (handed.run (q.lines.map Utf8.decode)).1 ∧
          both.2.Shows (handed.run (q.lines.map Utf8.decode)).2) ∧
    first.2.sink.kept.toList <+: both.2.sink.kept.toList := by
  intro s first both
  have herror : first.1 = (s.executeLines p.lines).1 := run_fst_of_flushing rfl rfl p
  have hconsumed : (s.consume { bytes := p }).2 = (s.executeLines p.lines).2 := rfl
  rw [herror, hconsumed]
  rcases hlines : s.executeLines p.lines with ⟨_ | e, t⟩
  · have hpasses : s.Passes p.lines t := executeLines_eq_none_iff.mp hlines
    have hboth : both = (t.executeLines q.lines).2.halt (t.executeLines q.lines).1 :=
      hpasses.run_append hp rfl q
    obtain ⟨values, output, hvalues, houtput, hfollows⟩ := hpasses.follows_new
    have hplain := hfollows.run hpasses.continues.state q
    rw [run_of_running hpasses.continues.state, ← hboth] at hplain
    refine ⟨fun e he => ?_, fun _ => ⟨hboth, values, output, hvalues, houtput, hplain⟩, ?_⟩
    · cases he
    · have hfirst : first = t.halt none := run_of_passing rfl (Source.reading_program p) hpasses
      rw [hfirst, hboth]
      exact (continues_executeLines q.lines t).sink.kept
  · have hsame : both = first := run_append_of_failing hp hlines rfl q
    refine ⟨fun _ _ => hsame, fun he => ?_, ?_⟩
    · cases he
    · rw [hsame]

/-- The second program adds in a queue what the first one pushed, and fails on its last line. -/
theorem run_whole_append_queue :
    let p := Utf8.encode "queue\npush 4\npush 5\npint\n".toList
    let q := Utf8.encode "add\npall\npop\nswap".toList
    let s : Interpreter := {}
    let t := (s.consume { bytes := p }).2
    p.Whole ∧ (s.run { bytes := p }).1 = none ∧ t.machine.values.toList = [4, 5] ∧ t.lines = 4 ∧
      (t.executeLines q.lines).1 = some (.atLine 8 (.tooShort "swap".toList)) ∧
      s.run { bytes := p ++ q } = (t.executeLines q.lines).2.halt (t.executeLines q.lines).1 := by
  intro p q s t
  have hp : p.Whole := by decide
  have hfirst : (s.run { bytes := p }).1 = none := by decide
  exact ⟨hp, hfirst, by decide, by decide, by decide, ((run_whole_append hp q {}).2.1 hfirst).1⟩

end DequeMachine.Interpreter
