import DequeMachine.Interpreter
import DequeMachine.Command.Arguments
import DequeMachine.Command.FilterText

/-!
# The command

What the command prints and how it exits, given its arguments, the written filter of the
environment and a way to open files. Complaints about the filter come first, then the records of the
journal, then the diagnostic. What the libraries behind the command print is a parameter; what is
relied on of it is documented by them.
-/
namespace DequeMachine

namespace Arguments

def usage : Text := "USAGE: monty file".toList

/-- What is said of the program and of its arguments to those who ask for help. -/
def descriptions : List Text :=
  ["Run a Monty bytecode file".toList, "Bytecode file to interpret".toList,
    "Log more details to stderr (repeat for more)".toList]

def version : Text := "monty 0.1.0".toList

end Arguments

/-- What the command leaves to libraries. -/
structure Libraries where
  /-- Printed by the reader of arguments when it is asked for help. -/
  help : Text
  version : Text
  /-- How the logger shows the record that it writes after so many others. -/
  shown : Nat → Record → Text
  /-- The texts that a written pattern fits, or what is wrong with the pattern. -/
  pattern? : Text → Except Text (Text → Bool)

namespace Libraries

/-- A line for a record: the moment, the level padded to one width, the target and the text. -/
def line (moment : Text) (r : Record) : Text :=
  '[' :: moment ++ ' ' :: r.level.heading.rightpad 5 ' ' ++ ' ' :: r.target ++ "] ".toList ++
    r.text ++ ['\n']

structure Documented (l : Libraries) : Prop where
  help : ∀ t ∈ Arguments.descriptions, t <:+: l.help
  version : l.version = Arguments.version ++ ['\n']
  shown : ∀ n r, ∃ moment, l.shown n r = line moment r

/-- Records one after the other. -/
def log (l : Libraries) (rs : List Record) : Text := rs.zipIdx.flatMap fun (r, n) => l.shown n r

end Libraries

structure Outcome where
  exit : UInt32 := 0
  stdout : Bytes := []
  stderr : Text := []
  deriving DecidableEq, Repr

namespace Command

/-- A diagnostic on a line of its own, after what was printed and logged before it. -/
def failed (text : Text) (stdout : Bytes) (log : Text) : Outcome :=
  { exit := 1, stdout, stderr := log ++ text ++ ['\n'] }

/-- The text for a file that cannot be opened. -/
def unopened (file : Text) : Text := "Can't open file ".toList ++ file

/-- The filter of the environment replaces the one that the flags ask for. -/
def filter (l : Libraries) (environment : Option Text) (a : Arguments) : Journal.Filter.Written :=
  match environment with
  | some text => .ofText l.pattern? text
  | none => { filter := .upTo (some a.level) }

/-- A complaint about the filter, as a warning. -/
def warning (c : Journal.Complaint) : Text :=
  "warning: ".toList ++ c.message ++ ", ignoring it\n".toList

/-- Runs a program in a new interpreter. -/
def runSource (l : Libraries) (written : Journal.Filter.Written) (program : Source) : Outcome :=
  let (e, s) := Interpreter.run program { journal := { filter := written.filter } }
  let stdout := s.sink.kept.toList
  let log := written.complaints.flatMap warning ++ l.log s.journal.records.toList
  match e with
  | none => { stdout, stderr := log }
  | some e => failed e.message stdout log

def run (l : Libraries) (open? : Text → Option Source) (environment : Option Text)
    (args : List Text) : Outcome :=
  match Arguments.parse args with
  | .error .help => { stdout := Utf8.encode l.help }
  | .error .version => { stdout := Utf8.encode l.version }
  | .error .usage => failed Arguments.usage [] []
  | .ok a =>
    let written := filter l environment a
    match open? a.file with
    | none =>
      failed ("Error: ".toList ++ unopened a.file) [] (written.complaints.flatMap warning)
    | some program => runSource l written program

end Command

end DequeMachine
