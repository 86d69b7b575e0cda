import DequeMachine.Journal
import DequeMachine.Text.Basic

/-!
# Written filters

A written filter is a list of rules between commas, and after a slash a pattern for the texts of
records. A rule is a level for every target, in capital or small letters, or a target with its level
after an equals sign. A target alone admits all of its records. What cannot be read is left out with
a complaint.
-/
namespace DequeMachine

/-- A level, or `off` for none. -/
def Level.limit? (t : Text) : Option (Option Level) :=
  let t := t.map Char.toLower
  if t = "off".toList then some none
  else (Level.all.find? fun l => l.word = t).map some

namespace Journal

/-- What is left out of a written filter. -/
inductive Complaint
  | unreadableRule (text : Text)
  | manySlashes (filter : Text)
  | refusedPattern (reason : Text)
  deriving DecidableEq, Repr

def Complaint.message : Complaint → Text
  | unreadableRule t => "invalid logging spec '".toList ++ t ++ ['\'']
  | manySlashes t => "invalid logging spec '".toList ++ t ++ "' (too many '/'s)".toList
  | refusedPattern reason => "invalid regex filter - ".toList ++ reason

/-- A rule without white space around it. Of one with a target and a wrong level, the level alone is
complained of. -/
def Rule.ofText (t : Text) : Except Complaint Rule :=
  match t.splitOn '=' with
  | [word] =>
    match Level.limit? word with
    | some limit => .ok { limit }
    | none => .ok { target := some word, limit := some .trace }
  | [target, level] =>
    let level := Text.trim level
    if level.isEmpty then .ok { target := some target, limit := some .trace }
    else
      match Level.limit? level with
      | some limit => .ok { target := some target, limit }
      | none => .error (.unreadableRule level)
  | _ => .error (.unreadableRule t)

/-- A filter, and the complaints about what it was read from, in the order of the text. -/
structure Filter.Written where
  filter : Filter
  complaints : List Complaint := []

namespace Filter.Written

/-- Without any rules only errors are admitted. -/
def ofRules (rules : List Rule) : Filter :=
  { rules := if rules.isEmpty then [{ limit := some .error }] else rules }

def readRule (rules : List Rule × List Complaint) (t : Text) : List Rule × List Complaint :=
  match Rule.ofText t with
  | .ok r => (Rule.insertInto rules.1 r, rules.2)
  | .error c => (rules.1, rules.2 ++ [c])

def readRules (t : Text) : List Rule × List Complaint :=
  (((t.splitOn ',').map Text.trim).filter fun rule => !rule.isEmpty).foldl readRule ([], [])

/-- The patterns are read by `pattern?`, which gives the texts that a pattern fits or says what is
wrong with it. -/
def ofText (pattern? : Text → Except Text (Text → Bool)) (t : Text) : Written :=
  match t.splitOn '/' with
  | [rules] =>
    let (rules, complaints) := readRules rules
    ⟨ofRules rules, complaints⟩
  | [rules, pattern] =>
    let (rules, complaints) := readRules rules
    match pattern? pattern with
    | .ok pattern => ⟨{ ofRules rules with pattern }, complaints⟩
    | .error reason => ⟨ofRules rules, complaints ++ [.refusedPattern reason]⟩
  | _ => ⟨ofRules [], [.manySlashes t]⟩

end Filter.Written

end Journal

end DequeMachine
