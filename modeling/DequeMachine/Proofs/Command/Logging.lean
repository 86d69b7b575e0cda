import DequeMachine.Proofs.Command.Report
import DequeMachine.Proofs.Command.Settings

/-!
# Logging does not interfere

However much is logged, the command exits with the same code and prints the same, and its diagnostic is the
same behind the lines of the log. A diagnostic is one line, and not one of those, as long as the name of a file
that cannot be opened stays on one line.
-/
namespace DequeMachine

/-- A message begins with the number of a line or says that it is an error. -/
theorem Error.exists_message_eq (e : Error) : ∃ c t, e.message = c :: t ∧ c ≠ '[' := by
  cases e with
  | atLine line fault => exact ⟨'L', _, rfl, by decide⟩
  | allocation | io text | halted => exact ⟨'E', _, rfl, by decide⟩

/-- A record is shown between brackets, so no other line can be taken for it. -/
theorem Libraries.Documented.shown_ne {l : Libraries} (hl : l.Documented) {c : Char} (hc : c ≠ '[')
    (t : Text) (n : Nat) (r : Record) : l.shown n r ≠ c :: t ++ ['\n'] := by
  obtain ⟨moment, hshown⟩ := hl.shown n r
  intro heq
  rw [hshown] at heq
  exact hc (List.cons.inj heq).1.symm

namespace Command

open Arguments (parse louderCount endOfFlags)
open Journal (Setting)

/-- What breaks off the reading of a file is told on one line. -/
def Legible (open? : Text → Option Source) : Prop :=
  ∀ file, ∀ program ∈ open? file, ∀ b ∈ program.broken, '\n' ∉ b.text

/-- How the command ends when nothing is logged: without a word, or with one line that is no line of a log. -/
inductive Terse : Outcome → Prop
  | fine (stdout : Bytes) : Terse ⟨0, stdout, []⟩
  | diagnosed (stdout : Bytes) (text : Text) (newline : '\n' ∉ text)
    (unlogged : ∀ l : Libraries, l.Documented → ∀ n r, l.shown n r ≠ text ++ ['\n']) :
    Terse ⟨1, stdout, text ++ ['\n']⟩

theorem Terse.count_newline_le {o : Outcome} (h : Terse o) : o.stderr.count '\n' ≤ 1 := by
  cases h with
  | fine stdout => exact Nat.zero_le 1
  | diagnosed stdout text newline unlogged =>
    rw [List.count_append, List.count_eq_zero.mpr newline]
    exact Nat.le_refl 1

namespace Report

variable {open? : Text → Option Source} {file : Text}

theorem newline_notMem_error {t : Text} (h : '\n' ∉ t) : '\n' ∉ "Error: ".toList ++ t := by
  have hbegin : '\n' ∉ "Error: ".toList := by decide
  exact List.not_mem_append hbegin h

theorem newline_notMem_of_run {program : Source} (hbreak : ∀ b ∈ program.broken, '\n' ∉ b.text) {e : Error}
    (h : (recorder.run program).1 = some e) : '\n' ∉ e.message := by
  have hends : recorder.Ends program (some e) := h ▸ Interpreter.ends_run rfl program
  have hrep : recorder.Represents {} := Interpreter.represents_new none none _
  cases hn : e.line? with
  | some n =>
    obtain ⟨-, hdiagnosis⟩ := hends.diagnosis hrep rfl rfl hn
    exact hdiagnosis.oneLine.newline
  | none =>
    obtain ⟨⟨text, rfl, hwhy⟩, -⟩ := hends.counts hrep rfl rfl hn
    have htext : '\n' ∉ text := by
      rcases hwhy with ⟨b, hb, -, rfl⟩ | ⟨l, hl, -⟩ | hflush
      · exact hbreak b hb
      · cases hl
      · cases hflush
    exact newline_notMem_error htext

theorem newline_notMem_of_unopened (h : '\n' ∉ file) : '\n' ∉ "Error: ".toList ++ unopened file := by
  have hopen : '\n' ∉ "Can't open file ".toList := by decide
  exact newline_notMem_error (List.not_mem_append hopen h)

theorem plain_of_unopened (h : open? file = none) :
    (ofFile open? file).plain = ⟨1, [], "Error: Can't open file ".toList ++ file ++ ['\n']⟩ := by
  rw [ofFile, h]
  rfl

theorem terse_plain (hopen : Legible open?) (hfile : '\n' ∈ file → open? file ≠ none) :
    Terse (ofFile open? file).plain := by
  cases hprogram : open? file with
  | none =>
    rw [ofFile, hprogram]
    have hnewline : '\n' ∉ file := fun hmem => hfile hmem hprogram
    have hbegin : 'E' ≠ '[' := by decide
    exact .diagnosed [] _ (newline_notMem_of_unopened hnewline) fun l hl => hl.shown_ne hbegin _
  | some program =>
    rw [ofFile, hprogram]
    dsimp only
    cases he : (recorder.run program).1 with
    | none =>
      rw [plain, ofRun, he]
      exact .fine _
    | some e =>
      have hnewline := newline_notMem_of_run (hopen file program hprogram) he
      obtain ⟨c, text, hmessage, hbegin⟩ := e.exists_message_eq
      rw [plain, ofRun, he]
      refine .diagnosed _ _ hnewline fun l hl => ?_
      rw [hmessage]
      exact hl.shown_ne hbegin text

/-- Of a setting only the lines that it enables are seen. -/
theorem outcome_of_written {s : Setting} {environment : Option Text} (h : s.Written environment)
    (l : Libraries) (a : Arguments) (report : Report) :
    report.outcome l (filter l environment a) =
      { report.plain with
        stderr := l.log (report.log.filter fun r => s.enables a.level r) ++ report.plain.stderr } := by
  have hadmits : (s.filter a.level).admits = fun r => s.enables a.level r := by
    funext r
    exact Setting.admits_filter a.level r s
  simp [h.filter_eq l a, outcome, hadmits]

end Report

/-- Of two argument lists for one file and two settings of the filter, in whatever they ask to be logged and
whenever it is, no difference is seen but in the lines that are logged, and these stand before what there is to
be diagnosed. That is what the command says when nobody asks for more. It is one line at most and none of a log,
unless the file cannot be opened and its name is of several lines. A filter that is set makes all flags the
same. -/
theorem run_logging (l l' : Libraries) {open? : Text → Option Source} (hopen : Legible open?)
    {args args' : List Text} {a a' : Arguments} (h : parse args = .ok a) (h' : parse args' = .ok a')
    (hfile : a'.file = a.file) {s s' : Setting} {environment environment' : Option Text}
    (hs : s.Written environment) (hs' : s'.Written environment') :
    let outcome := run l open? environment args
    let outcome' := run l' open? environment' args'
    let quiet := run l open? none [endOfFlags, a.file]
    let log := (Report.ofFile open? a.file).log
    let enabled (s : Setting) (a : Arguments) := log.filter fun r => s.enables a.level r
    outcome.exit = outcome'.exit ∧ outcome.stdout = outcome'.stdout ∧
    outcome.stderr = l.log (enabled s a) ++ quiet.stderr ∧
    outcome'.stderr = l'.log (enabled s' a') ++ quiet.stderr ∧
    (∀ l₀ args₀ a₀, parse args₀ = .ok a₀ → a₀.file = a.file → louderCount args₀ = 0 →
      run l₀ open? none args₀ = quiet) ∧
    (open? a.file = none → quiet = ⟨1, [], "Error: Can't open file ".toList ++ a.file ++ ['\n']⟩) ∧
    (('\n' ∈ a.file → open? a.file ≠ none) → Terse quiet) ∧
    ∀ text, run l open? (some text) args = run l open? (some text) args' := by
  intro outcome outcome' quiet log enabled
  have hparse := Arguments.parse_file (Arguments.file_ne_nil h)
  obtain ⟨file, verbosity⟩ := a
  obtain ⟨file', verbosity'⟩ := a'
  obtain rfl : file' = file := hfile
  have hquiet : quiet = (Report.ofFile open? file').plain := Report.run_of_quiet l open? hparse rfl
  have houtcome : outcome = _ :=
    (Report.run_eq_outcome l open? h environment).trans (Report.outcome_of_written hs l _ _)
  have houtcome' : outcome' = _ :=
    (Report.run_eq_outcome l' open? h' environment').trans (Report.outcome_of_written hs' l' _ _)
  have hdefault : ∀ l₀ args₀ a₀, parse args₀ = .ok a₀ → a₀.file = file' → louderCount args₀ = 0 →
      run l₀ open? none args₀ = (Report.ofFile open? file').plain := by
    rintro l₀ args₀ a₀ h₀ rfl hcount
    exact Report.run_of_quiet l₀ open? h₀ hcount
  have hset : ∀ text, run l open? (some text) args = run l open? (some text) args' := by
    intro text
    calc
      run l open? (some text) args = (Report.ofFile open? file').outcome l (.ofText l.pattern? text) :=
        Report.run_eq_outcome l open? h (some text)
      _ = run l open? (some text) args' := (Report.run_eq_outcome l open? h' (some text)).symm
  rw [houtcome, houtcome', hquiet]
  exact ⟨rfl, rfl, rfl, rfl, hdefault, Report.plain_of_unopened, Report.terse_plain hopen, hset⟩

/-- The diagnostic of a program stands behind the only record that is not too talkative, and alone if another
target is asked for. -/
theorem run_logging_failing :
    let program := Utf8.encode "push 1\npop\npop".toList
    let open? (file : Text) : Option Source := if file = "a.m".toList then some { bytes := program } else none
    let loud := run .stopped open? none ["-v".toList, "a.m".toList]
    let louder := run .stopped open? (some "other=TRACE".toList) ["a.m".toList, "-vv".toList]
    let diagnostic := "L3: can't pop an empty stack\n".toList
    Legible open? ∧ loud.exit = louder.exit ∧
      loud.stderr =
        "[2024-05-01T12:00:00Z INFO  monty::vm] halted after 3 lines: HaltedError\n".toList ++ diagnostic ∧
      louder.stderr = diagnostic := by
  intro program open? loud louder diagnostic
  have hopen : Legible open? := by
    intro file found hfound b hb
    dsimp only [open?] at hfound
    split at hfound
    · cases hfound
      cases hb
    · cases hfound
  have hloud : parse ["-v".toList, "a.m".toList] = .ok ⟨"a.m".toList, 1⟩ := by decide
  have hlouder : parse ["a.m".toList, "-vv".toList] = .ok ⟨"a.m".toList, 2⟩ := by decide
  have hother : (Setting.target "other".toList (some .trace)).Written (some "other=TRACE".toList) :=
    .target (by decide) (by decide) (by decide) (by rfl : Level.Names (some .trace) "TRACE".toList)
  obtain ⟨hexit, -, hstderr, hstderr', -⟩ :=
    run_logging .stopped .stopped hopen hloud hlouder rfl .unset hother
  refine ⟨hopen, hexit, hstderr.trans ?_, hstderr'.trans ?_⟩
  · decide
  · decide

/-- Where a file that cannot be opened has a name of several lines, the diagnostic has them too, and the last of
them can be one of a log. -/
theorem run_logging_newline :
    let r : Record := ⟨.info, Journal.target, "halted after 0 lines: HaltedOk".toList⟩
    let file := "a\n[2024-05-01T12:00:00Z INFO  monty::vm] halted after 0 lines: HaltedOk".toList
    let quiet (file : Text) := run .stopped (fun _ => none) none [file]
    parse ["a\nb".toList] = .ok ⟨"a\nb".toList, 0⟩ ∧
      quiet "a\nb".toList = ⟨1, [], "Error: Can't open file a\nb\n".toList⟩ ∧ ¬ Terse (quiet "a\nb".toList) ∧
      (quiet file).stderr = "Error: Can't open file a\n".toList ++ Libraries.stopped.shown 0 r := by
  intro r file quiet
  have hquiet : quiet "a\nb".toList = ⟨1, [], "Error: Can't open file a\nb\n".toList⟩ := by rfl
  refine ⟨by decide, hquiet, fun hterse => ?_, by decide +kernel⟩
  have hcount := hterse.count_newline_le
  rw [hquiet] at hcount
  exact absurd hcount (by decide)

end Command

end DequeMachine
