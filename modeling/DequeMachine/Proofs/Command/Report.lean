import DequeMachine.Command.Run
import DequeMachine.Proofs.Command.Arguments
import DequeMachine.Proofs.Interpreter.Diagnostics
import DequeMachine.Proofs.Interpreter.Records

namespace DequeMachine

namespace Libraries

/-- Libraries whose clock stands still, and which take every pattern to fit everything. -/
def stopped : Libraries where
  help := ("Run a Monty bytecode file\n\nUsage: monty [OPTIONS] <FILE>\n\nArguments:\n" ++
    "  <FILE>  Bytecode file to interpret\n\nOptions:\n" ++
    "  -v, --verbose...  Log more details to stderr (repeat for more)\n" ++
    "  -h, --help        Print help\n  -V, --version     Print version\n").toList
  version := "monty 0.1.0\n".toList
  shown _ := line "2024-05-01T12:00:00Z".toList
  pattern? _ := .ok fun _ => true

theorem documented_stopped : stopped.Documented where
  help := by decide +kernel
  version := rfl
  shown _ r := ⟨_, rfl⟩

end Libraries

namespace Command

open Journal (Event)

structure Report where
  stdout : Bytes := []
  log : List Record := []
  diagnostic : Option Text := none
  deriving DecidableEq, Repr

namespace Report

def ofRun (answer : Option Error × Interpreter) : Report where
  stdout := answer.2.sink.kept.toList
  log := answer.2.journal.records.toList
  diagnostic := answer.1.map Error.message

/-- A new interpreter whose journal keeps every record. -/
def recorder : Interpreter := { journal := { filter := .upTo (some .trace) } }

def ofFile (open? : Text → Option Source) (file : Text) : Report :=
  match open? file with
  | none => { diagnostic := some ("Error: ".toList ++ unopened file) }
  | some program => ofRun (recorder.run program)

/-- How the command ends if nothing is logged. -/
def plain (r : Report) : Outcome where
  exit := if r.diagnostic.isSome then 1 else 0
  stdout := r.stdout
  stderr := (r.diagnostic.map fun text => text ++ ['\n']).getD []

/-- How the command ends if this filter was written. -/
def outcome (l : Libraries) (written : Journal.Filter.Written) (r : Report) : Outcome :=
  let log := l.log (r.log.filter written.filter.admits)
  { r.plain with stderr := written.complaints.flatMap warning ++ (log ++ r.plain.stderr) }

variable {l : Libraries} {open? : Text → Option Source} {file : Text} {r : Record}

theorem log_ofRun (program : Source) :
    (ofRun (recorder.run program)).log = (recorder.events program).map Event.record := by
  have hall : ∀ r ∈ (recorder.events program).map Event.record, recorder.journal.filter.admits r := by
    intro r _
    exact (Journal.Filter.admits_upTo .trace r).trans (decide_eq_true r.level.rank_le_trace)
  rw [ofRun, Interpreter.journal_run rfl, Journal.toList_records_tell, List.filter_eq_self.mpr hall]
  rfl

/-- Nothing that is logged is as grave as a warning. -/
theorem info_le_level_of_mem_log (h : r ∈ (ofFile open? file).log) :
    Level.info.rank ≤ r.level.rank := by
  unfold ofFile at h
  split at h
  · exact absurd h List.not_mem_nil
  · rw [log_ofRun] at h
    obtain ⟨e, -, rfl⟩ := List.mem_map.mp h
    exact e.info_le_level

/-- The filter of a new interpreter decides which records of a program are kept and nothing else. -/
theorem run_filtered (filter : Journal.Filter) (program : Source) :
    let s : Interpreter := { journal := { filter } }
    (s.run program).1 = (recorder.run program).1 ∧
    (s.run program).2.sink = (recorder.run program).2.sink ∧
    (s.run program).2.journal.records.toList =
      (ofRun (recorder.run program)).log.filter filter.admits := by
  intro s
  have hahead : s.Ahead 0 recorder := ⟨rfl, rfl, rfl, rfl⟩
  obtain ⟨herror, hend⟩ := hahead.run program
  refine ⟨herror, hend.sink, ?_⟩
  rw [Interpreter.journal_run rfl, Journal.toList_records_tell, hahead.events_eq, log_ofRun]
  rfl

theorem runSource_eq (l : Libraries) (written : Journal.Filter.Written) (program : Source) :
    runSource l written program = (ofRun (recorder.run program)).outcome l written := by
  obtain ⟨herror, hsink, hrecords⟩ := run_filtered written.filter program
  unfold runSource
  generalize Interpreter.run program { journal := { filter := written.filter } } = answer
    at herror hsink hrecords
  obtain ⟨e, s⟩ := answer
  dsimp only at herror hsink hrecords ⊢
  rw [outcome, plain, ← hrecords, ofRun, ← herror, ← hsink]
  cases e with
  | none => simp
  | some e => simp [failed]

/-- What the command does with a file is told by the report of the file and the filter alone. -/
theorem run_eq_outcome (l : Libraries) (open? : Text → Option Source) {args : List Text} {a : Arguments}
    (h : Arguments.parse args = .ok a) (environment : Option Text) :
    run l open? environment args = (ofFile open? a.file).outcome l (filter l environment a) := by
  rw [run, h, ofFile]
  dsimp only
  cases open? a.file with
  | none => simp [outcome, plain, failed, Libraries.log]
  | some program => exact runSource_eq l _ program

/-- Without a filter and without a flag for more nothing is logged. -/
theorem run_of_quiet (l : Libraries) (open? : Text → Option Source) {args : List Text} {a : Arguments}
    (h : Arguments.parse args = .ok a) (hcount : Arguments.louderCount args = 0) :
    run l open? none args = (ofFile open? a.file).plain := by
  have hquiet : a.verbosity = 0 := by rw [Arguments.verbosity_eq h, hcount, Nat.min_zero]
  have hfilter : filter l none a = { filter := .upTo (some .warn) } := by
    simp [filter, Arguments.level, hquiet]
  have hnone : (ofFile open? a.file).log.filter (Journal.Filter.upTo (some .warn)).admits = [] := by
    refine List.filter_eq_nil_iff.mpr fun r hr => ?_
    have hlevel := info_le_level_of_mem_log hr
    rw [Journal.Filter.admits_upTo, decide_eq_true_eq]
    exact Nat.not_le_of_lt hlevel
  rw [run_eq_outcome l open? h, hfilter]
  simp [outcome, hnone, Libraries.log]

/-- A program leaves what it leaves in any new interpreter. -/
theorem plain_ofRun {program : Source} {e : Option Error} {s : Interpreter}
    (h : ({} : Interpreter).run program = (e, s)) :
    (ofRun (recorder.run program)).plain =
      { exit := if e.isSome then 1 else 0
        stdout := s.sink.kept.toList
        stderr := (e.map fun e => e.message ++ ['\n']).getD [] } := by
  obtain ⟨herror, hsink, -⟩ := run_filtered .silent program
  rw [h] at herror hsink
  simp [plain, ofRun, ← herror, ← hsink, Function.comp_def]

end Report

end Command

end DequeMachine
