import DequeMachine.Journal

/-!
# Arguments

The grammar that the reader of arguments documents for one file and three flags. The file comes with
any number of flags before and after it. Short flags share a dash, long flags are written out, and
two dashes alone end the flags. Arguments are read from left to right, and the first one that asks
for help or the version or makes no sense decides; whether a file was named is only asked at the
end.
-/
namespace DequeMachine

structure Arguments where
  file : Text
  verbosity : Nat
  deriving DecidableEq, Repr

namespace Arguments

/-- Why no file is run. -/
inductive Stop
  | help
  | version
  | usage
  deriving DecidableEq, Repr

/-- What the arguments read so far have said. -/
structure Progress where
  file : Option Text := none
  verbosity : Nat := 0
  deriving DecidableEq, Repr

def maxVerbosity : Nat := 255

def Progress.louder (p : Progress) : Progress :=
  { p with verbosity := min maxVerbosity (p.verbosity + 1) }

/-- The one file must have a name. -/
def Progress.takeFile (name : Text) (p : Progress) : Except Stop Progress :=
  if p.file.isSome || name.isEmpty then .error .usage else .ok { p with file := some name }

def Progress.finish (p : Progress) : Except Stop Arguments :=
  match p.file with
  | some file => .ok ⟨file, p.verbosity⟩
  | none => .error .usage

def shortFlag (p : Progress) : Char → Except Stop Progress
  | 'v' => .ok p.louder
  | 'h' => .error .help
  | 'V' => .error .version
  | _ => .error .usage

def longFlag (name : Text) (p : Progress) : Except Stop Progress :=
  if name = "verbose".toList then .ok p.louder
  else if name = "help".toList then .error .help
  else if name = "version".toList then .error .version
  else .error .usage

/-- One argument before the flags have ended. A dash alone is a file. -/
def takeArgument (p : Progress) : Text → Except Stop Progress
  | '-' :: '-' :: name => longFlag name p
  | '-' :: flag :: flags => (flag :: flags).foldlM shortFlag p
  | name => p.takeFile name

/-- Two dashes alone: every later argument is a file. -/
def endOfFlags : Text := ['-', '-']

def read : Progress → List Text → Except Stop Progress
  | p, [] => .ok p
  | p, a :: rest =>
    if a = endOfFlags then rest.foldlM (fun p name => p.takeFile name) p
    else do read (← takeArgument p a) rest

def parse (args : List Text) : Except Stop Arguments := do
  (← read {} args).finish

/-- The journal level that a verbosity asks for. -/
def level (a : Arguments) : Level :=
  match a.verbosity with
  | 0 => .warn
  | 1 => .info
  | 2 => .debug
  | _ => .trace

end Arguments

end DequeMachine
