import DequeMachine.Deque
import DequeMachine.LineReader

/-!
# The machine

A machine holds a deque of values and a mode. Instructions act at the front; the mode only chooses
the end at which `push` inserts. A step answers the bytes it prints, or why it was refused, and the
machine afterwards; every check comes before the first change, and an instruction that prints changes
nothing.
-/
namespace DequeMachine

/-- Sums, differences and products of values wrap at 32 bits. Quotients are truncated and remainders have the
sign of the dividend; both refuse a divisor of zero. -/
abbrev Arithmetic.Operation := Int32 → Int32 → Except Fault Int32

namespace Arithmetic

def add : Operation := fun a b => .ok (a + b)

def sub : Operation := fun a b => .ok (a - b)

def mul : Operation := fun a b => .ok (a * b)

def div : Operation := fun a b => if b = 0 then .error .divisionByZero else .ok (a / b)

def mod : Operation := fun a b => if b = 0 then .error .divisionByZero else .ok (a % b)

end Arithmetic

namespace Printout

def endLine (b : Bytes) : Bytes := b ++ [10]

def value (v : Int32) : Bytes := endLine (Utf8.encode (Decimal.write v))

/-- Whether a value stands for a character. -/
def isAscii (v : Int32) : Bool := 0 ≤ v && v < 128

def byte (v : Int32) : UInt8 := UInt8.ofNat v.toInt.toNat

def character (v : Int32) : Bytes := endLine [byte v]

/-- A text ends before the first zero and before the first value that is no character. -/
def continuesText (v : Int32) : Bool := isAscii v && v != 0

def text (vs : List Int32) : Bytes := endLine ((vs.takeWhile continuesText).map byte)

end Printout

inductive Mode
  | stack
  | queue
  deriving DecidableEq, Repr

def Mode.name : Mode → Text
  | stack => "Stack".toList
  | queue => "Queue".toList

/-- Why a step is refused: the instruction is at fault, or there is no room for one value more. -/
inductive Refusal
  | fault (fault : Fault)
  | allocation
  deriving DecidableEq, Repr

/-- The error that a refusal on a line is. -/
def Refusal.onLine (line : Nat) : Refusal → Error
  | .fault f => .atLine line f
  | .allocation => .allocation

structure Machine where
  values : Deque := ∅
  mode : Mode := .stack
  deriving DecidableEq, Repr

namespace Machine

def pall (m : Machine) : Bytes := m.values.toList.flatMap Printout.value

def pint (m : Machine) : Except Refusal Bytes :=
  match m.values.front? with
  | none => .error (.fault .pintEmpty)
  | some v => .ok (Printout.value v)

def pchar (m : Machine) : Except Refusal Bytes :=
  match m.values.front? with
  | none => .error (.fault .pcharEmpty)
  | some v =>
    if Printout.isAscii v then .ok (Printout.character v) else .error (.fault .pcharOutOfRange)

def pstr (m : Machine) : Bytes := Printout.text m.values.toList

/-- Inserts a value where the mode says, and answers whether there was room for it. -/
def insert (v : Int32) : Machine → Bool × Machine
  | ⟨values, .stack⟩ => let (stored, values) := values.pushFront v; (stored, ⟨values, .stack⟩)
  | ⟨values, .queue⟩ => let (stored, values) := values.pushBack v; (stored, ⟨values, .queue⟩)

theorem insert_stack (v : Int32) (d : Deque) :
    insert v ⟨d, .stack⟩ = ((d.pushFront v).1, ⟨(d.pushFront v).2, .stack⟩) := rfl

theorem insert_queue (v : Int32) (d : Deque) :
    insert v ⟨d, .queue⟩ = ((d.pushBack v).1, ⟨(d.pushBack v).2, .queue⟩) := rfl

def push (argument : Option Text) (m : Machine) : Except Refusal Bytes × Machine :=
  match argument.bind Decimal.read? with
  | none => (.error (.fault .pushUsage), m)
  | some v =>
    match m.insert v with
    | (false, m) => (.error .allocation, m)
    | (true, m) => (.ok [], m)

def pop : Machine → Except Refusal Bytes × Machine
  | ⟨values, mode⟩ =>
    match values.popFront with
    | (none, values) => (.error (.fault .popEmpty), ⟨values, mode⟩)
    | (some _, values) => (.ok [], ⟨values, mode⟩)

def swap : Machine → Except Refusal Bytes × Machine
  | ⟨values, mode⟩ =>
    match values.swapFront with
    | (false, values) => (.error (.fault (.tooShort Opcode.swap.word)), ⟨values, mode⟩)
    | (true, values) => (.ok [], ⟨values, mode⟩)

/-- Replaces the two front values by the result of an operation, whose right operand is the front
value. -/
def combine (op : Opcode) (f : Arithmetic.Operation) : Machine → Except Refusal Bytes × Machine
  | ⟨values, mode⟩ =>
    match values.frontPair? with
    | none => (.error (.fault (.tooShort op.word)), ⟨values, mode⟩)
    | some (front, second) =>
      match f second front with
      | .error fault => (.error (.fault fault), ⟨values, mode⟩)
      | .ok v => (.ok [], ⟨values.collapse v, mode⟩)

def step (i : Instruction) (m : Machine) : Except Refusal Bytes × Machine :=
  match i.op with
  | .push => m.push i.argument
  | .pop => m.pop
  | .pall => (.ok m.pall, m)
  | .pint => (m.pint, m)
  | .swap => m.swap
  | .add => m.combine .add Arithmetic.add
  | .sub => m.combine .sub Arithmetic.sub
  | .mul => m.combine .mul Arithmetic.mul
  | .div => m.combine .div Arithmetic.div
  | .mod => m.combine .mod Arithmetic.mod
  | .pchar => (m.pchar, m)
  | .pstr => (.ok m.pstr, m)
  | .rotl => (.ok [], { m with values := m.values.rotateLeft })
  | .rotr => (.ok [], { m with values := m.values.rotateRight })
  | .stack => (.ok [], { m with mode := .stack })
  | .queue => (.ok [], { m with mode := .queue })
  | .nop => (.ok [], m)

/-- Gives up the values; the mode stays. -/
def release (m : Machine) : Machine := { m with values := m.values.release }

end Machine

end DequeMachine
