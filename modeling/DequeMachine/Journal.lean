import DequeMachine.Text.Decimal

/-!
# The journal

A journal keeps the records that its filter admits at the moment they are made. Levels are ordered
from the gravest to the most talkative, and a filter admits a level and everything graver.
-/
namespace DequeMachine

inductive Level
  | error
  | warn
  | info
  | debug
  | trace
  deriving DecidableEq, Repr

namespace Level

def rank : Level → Nat
  | error => 1
  | warn => 2
  | info => 3
  | debug => 4
  | trace => 5

def word : Level → Text
  | error => "error".toList
  | warn => "warn".toList
  | info => "info".toList
  | debug => "debug".toList
  | trace => "trace".toList

def all : List Level := [error, warn, info, debug, trace]

/-- The form of a level in a record. -/
def heading (l : Level) : Text := l.word.map Char.toUpper

end Level

structure Record where
  level : Level
  target : Text
  text : Text
  deriving DecidableEq, Repr

namespace Journal

/-- A rule admits records up to a level, none without one, whose target begins as it says. A rule
without a target concerns every record, just as one that asks for an empty beginning. -/
structure Rule where
  target : Option Text := none
  limit : Option Level
  deriving DecidableEq, Repr

namespace Rule

def concerns (r : Rule) (target : Text) : Bool := (r.target.getD []).isPrefixOf target

/-- How much of a target the rule asks for. -/
def length (r : Rule) : Nat := (r.target.getD []).length

/-- Puts a rule in the place of the one with the same target, or after all others. -/
def insertInto : List Rule → Rule → List Rule
  | [], r => [r]
  | s :: rules, r => if s.target = r.target then r :: rules else s :: insertInto rules r

def allows (r : Rule) (level : Level) : Bool :=
  match r.limit with
  | some limit => level.rank ≤ limit.rank
  | none => false

end Rule

/-- Of the rules that concern a record, the one with the longest target decides, and the later one
of two as long. The text of the record must fit the pattern too. -/
structure Filter where
  rules : List Rule := []
  pattern : Text → Bool := fun _ => true

namespace Filter

/-- Admits records of every target up to a level. -/
def upTo (limit : Option Level) : Filter := { rules := [{ limit }] }

def silent : Filter := upTo none

def closer (best : Option Rule) (r : Rule) : Option Rule :=
  match best with
  | some b => if r.length < b.length then some b else some r
  | none => some r

def deciding? (f : Filter) (target : Text) : Option Rule :=
  (f.rules.filter fun r => r.concerns target).foldl closer none

def admits (f : Filter) (r : Record) : Bool :=
  (f.deciding? r.target).any (fun rule => rule.allows r.level) && f.pattern r.text

/-- A filter for every target looks at the level alone. -/
theorem admits_upTo (limit : Level) (r : Record) :
    (upTo (some limit)).admits r = decide (r.level.rank ≤ limit.rank) := by
  cases h : decide (r.level.rank ≤ limit.rank) <;>
    simp [admits, deciding?, upTo, closer, Rule.concerns, Rule.allows, h]

theorem admits_silent (r : Record) : silent.admits r = false := rfl

end Filter

end Journal

structure Journal where
  filter : Journal.Filter := .silent
  records : Array Record := #[]

namespace Journal

/-- The target of every record an interpreter makes. -/
def target : Text := "monty::vm".toList

def note (level : Level) (text : Text) (j : Journal) : Journal :=
  let record : Record := ⟨level, target, text⟩
  if j.filter.admits record then { j with records := j.records.push record } else j

end Journal

end DequeMachine
