import DequeMachine.Proofs.Command.Report

/-!
# The contract of the command

How the command ends when nobody asks for records. Arguments, the opening of the file and the run of its
program can each go wrong, and whichever does is diagnosed by one text and the exit code, behind the output
of whatever was run until then.
-/
namespace DequeMachine

/-- A source that fails at once ends the run before a line is counted. -/
theorem Interpreter.run_failing (text : Text) :
    ∃ s, ({} : Interpreter).run (Source.failing text) = (some (.io text), s) ∧ s.lines = 0 ∧
      s.sink.kept = #[] :=
  ⟨_, rfl, rfl, rfl⟩

namespace Command

open Arguments (parse louderCount)

/-- The file can be opened, and a new interpreter runs what it holds without an error. -/
def Runs (open? : Text → Option Source) (file : Text) : Prop :=
  ∃ program s, open? file = some program ∧ ({} : Interpreter).run program = (none, s)

/-- What comes of arguments: the exit code, the output and the diagnostic. A directory is opened like a
file, but nothing can be read from it. -/
inductive Ends (l : Libraries) (open? : Text → Option Source) (args : List Text) : Outcome → Prop
  | help (parsed : parse args = .error .help) (command : "Run a Monty bytecode file".toList <:+: l.help)
    (file : "Bytecode file to interpret".toList <:+: l.help)
    (verbose : "Log more details to stderr (repeat for more)".toList <:+: l.help) :
    Ends l open? args ⟨0, Utf8.encode l.help, []⟩
  | version (parsed : parse args = .error .version) :
    Ends l open? args ⟨0, Utf8.encode "monty 0.1.0\n".toList, []⟩
  | usage (parsed : parse args = .error .usage) :
    Ends l open? args ⟨1, [], "USAGE: monty file\n".toList⟩
  | unopened {a : Arguments} (parsed : parse args = .ok a) (missing : open? a.file = none) :
    Ends l open? args ⟨1, [], "Error: Can't open file ".toList ++ a.file ++ ['\n']⟩
  | unread {a : Arguments} {text : Text} {s : Interpreter} (parsed : parse args = .ok a)
    (directory : open? a.file = some (.failing text))
    (ran : ({} : Interpreter).run (.failing text) = (some (.io text), s)) (lines : s.lines = 0) :
    Ends l open? args ⟨1, [], "Error: ".toList ++ text ++ ['\n']⟩
  | finished {a : Arguments} {program : Source} {s : Interpreter} (parsed : parse args = .ok a)
    (opened : open? a.file = some program) (ran : ({} : Interpreter).run program = (none, s)) :
    Ends l open? args ⟨0, s.sink.kept.toList, []⟩
  | failed {a : Arguments} {program : Source} {s : Interpreter} {e : Error} (parsed : parse args = .ok a)
    (opened : open? a.file = some program) (ran : ({} : Interpreter).run program = (some e, s)) :
    Ends l open? args ⟨1, s.sink.kept.toList, e.message ++ ['\n']⟩

variable {l : Libraries} {open? : Text → Option Source} {args : List Text} {a : Arguments} {o : Outcome}

theorem ends_plain (h : parse args = .ok a) : Ends l open? args (Report.ofFile open? a.file).plain := by
  rw [Report.ofFile]
  cases hopen : open? a.file with
  | none => exact .unopened h hopen
  | some program =>
    dsimp only
    rcases hrun : ({} : Interpreter).run program with ⟨_ | e, s⟩
    · rw [Report.plain_ofRun hrun]
      exact .finished h hopen hrun
    · rw [Report.plain_ofRun hrun]
      exact .failed h hopen hrun

theorem ends_run (hl : l.Documented) (h : louderCount args = 0) (open? : Text → Option Source) :
    Ends l open? args (run l open? none args) := by
  cases hparse : parse args with
  | ok a =>
    rw [Report.run_of_quiet l open? hparse h]
    exact ends_plain hparse
  | error stop =>
    rw [run, hparse]
    cases stop with
    | help =>
      have htold := hl.help
      simp only [Arguments.descriptions, List.forall_mem_cons] at htold
      obtain ⟨hcommand, hfile, hverbose, -⟩ := htold
      exact .help hparse hcommand hfile hverbose
    | version =>
      dsimp only
      rw [hl.version]
      exact .version hparse
    | usage => exact .usage hparse

theorem Ends.eq_run (h : Ends l open? args o) (hl : l.Documented) (hcount : louderCount args = 0) :
    o = run l open? none args := by
  cases h with
  | help parsed => rw [run, parsed]
  | version parsed =>
    rw [run, parsed]
    dsimp only
    rw [hl.version]
    rfl
  | usage parsed =>
    rw [run, parsed]
    rfl
  | unopened parsed missing =>
    rw [Report.run_of_quiet l open? parsed hcount, Report.ofFile, missing]
    rfl
  | unread parsed directory ran lines =>
    obtain ⟨s, hrun, -, hkept⟩ := Interpreter.run_failing _
    rw [Report.run_of_quiet l open? parsed hcount, Report.ofFile, directory, Report.plain_ofRun hrun, hkept]
    rfl
  | finished parsed opened ran | failed parsed opened ran =>
    rw [Report.run_of_quiet l open? parsed hcount, Report.ofFile, opened]
    exact (Report.plain_ofRun ran).symm

theorem Ends.exit_eq (h : Ends l open? args o) :
    o.exit = 0 ∧ o.stderr = [] ∨ o.exit = 1 ∧ o.stderr ≠ [] := by
  cases h <;> simp

theorem Ends.exit_eq_zero_iff (h : Ends l open? args o) :
    o.exit = 0 ↔ parse args = .error .help ∨ parse args = .error .version ∨
      ∃ a, parse args = .ok a ∧ Runs open? a.file := by
  cases h <;> simp_all [Runs]

/-- Without flags that ask for more and without a filter the command ends, for all arguments and however files
are opened, as the contract says and in no other way. It exits with 0 or 1, with 0 when asked for help or for
the version and when a program has run without an error, and says nothing more exactly then. -/
theorem run_contract (hl : l.Documented) (h : louderCount args = 0) (open? : Text → Option Source) :
    let outcome := run l open? none args
    (∀ o, Ends l open? args o ↔ o = outcome) ∧
    (outcome.exit = 0 ∨ outcome.exit = 1) ∧
    (outcome.exit = 0 ↔ parse args = .error .help ∨ parse args = .error .version ∨
      ∃ a, parse args = .ok a ∧ Runs open? a.file) ∧
    (outcome.stderr = [] ↔ outcome.exit = 0) := by
  intro outcome
  have hends : Ends l open? args outcome := ends_run hl h open?
  refine ⟨fun o => ⟨fun ho => ho.eq_run hl h, ?_⟩, ?_, hends.exit_eq_zero_iff, ?_⟩
  · rintro rfl
    exact hends
  · exact hends.exit_eq.imp And.left And.left
  · obtain ⟨hexit, hstderr⟩ | ⟨hexit, hstderr⟩ := hends.exit_eq
    · exact iff_of_true hstderr hexit
    · exact iff_of_false hstderr (by simp [hexit])

/-- What was printed before the line that fails is written all the same. -/
theorem run_contract_failing :
    let program := Utf8.encode "push 7\npint\npop\npop\npint".toList
    let open? (file : Text) : Option Source :=
      if file = "/tmp/a.m".toList then some { bytes := program } else none
    let args := ["/tmp/a.m".toList]
    Libraries.stopped.Documented ∧ louderCount args = 0 ∧
      run .stopped open? none args =
        ⟨1, Utf8.encode "7\n".toList, "L4: can't pop an empty stack\n".toList⟩ := by
  intro program open? args
  have hcount : louderCount args = 0 := by decide
  have hparse : parse args = .ok ⟨"/tmp/a.m".toList, 0⟩ := by decide
  let answer := ({} : Interpreter).run { bytes := program }
  have herror : answer.1 = some (.atLine 4 .popEmpty) := by decide
  have hkept : answer.2.sink.kept.toList = Utf8.encode "7\n".toList := by decide
  have hrun : ({} : Interpreter).run { bytes := program } = (some (.atLine 4 .popEmpty), answer.2) :=
    Prod.ext herror rfl
  have hends : Ends .stopped open? args ⟨1, answer.2.sink.kept.toList, _⟩ := .failed hparse rfl hrun
  rw [hkept] at hends
  have hcontract := run_contract Libraries.documented_stopped hcount open?
  exact ⟨Libraries.documented_stopped, hcount, ((hcontract.1 _).mp hends).symm⟩

end Command

end DequeMachine
