import DequeMachine.Text.Decimal

namespace DequeMachine

/-- What an instruction can do wrong. -/
inductive Fault
  | unknownInstruction (token : Text)
  | pushUsage
  | popEmpty
  | pintEmpty
  | tooShort (opcode : Text)
  | divisionByZero
  | pcharEmpty
  | pcharOutOfRange
  deriving DecidableEq, Repr

def Fault.message : Fault → Text
  | unknownInstruction token => "unknown instruction ".toList ++ token
  | pushUsage => "usage: push integer".toList
  | popEmpty => "can't pop an empty stack".toList
  | pintEmpty => "can't pint, stack empty".toList
  | tooShort opcode => "can't ".toList ++ opcode ++ ", stack too short".toList
  | divisionByZero => "division by zero".toList
  | pcharEmpty => "can't pchar, stack empty".toList
  | pcharOutOfRange => "can't pchar, value out of range".toList

/-- What ends a run: a fault on a line, or a failure that belongs to no line. -/
inductive Error
  | atLine (line : Nat) (fault : Fault)
  | allocation
  | io (text : Text)
  | halted
  deriving DecidableEq, Repr

namespace Error

/-- The one line that is shown to the user. -/
def message : Error → Text
  | atLine line fault => Text.onLine line fault.message
  | allocation => "Error: malloc failed".toList
  | io text => "Error: ".toList ++ text
  | halted => "Error: interpreter has already halted".toList

def line? : Error → Option Nat
  | atLine line _ => some line
  | _ => none

end Error

end DequeMachine
