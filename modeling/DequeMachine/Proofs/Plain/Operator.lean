import DequeMachine.Machine

namespace DequeMachine.Plain

/-- The operators over the integers, which on values are reduced to 32 bits. -/
inductive Operator
  | add
  | sub
  | mul
  | div
  | mod
  deriving DecidableEq, Repr

namespace Operator

def opcode : Operator → Opcode
  | add => .add
  | sub => .sub
  | mul => .mul
  | div => .div
  | mod => .mod

def divides : Operator → Bool
  | div | mod => true
  | _ => false

/-- The left operand is the dividend, the right one the divisor. -/
def exact (op : Operator) (a b : Int) : Int :=
  match op with
  | add => a + b
  | sub => a - b
  | mul => a * b
  | div => a.tdiv b
  | mod => a.tmod b

def apply (op : Operator) (a b : Int32) : Int32 := Int32.ofInt (op.exact a.toInt b.toInt)

theorem div_eq_apply (a b : Int32) : a / b = div.apply a b := by
  apply Int32.toInt_inj.mp
  have h : (a.toInt.tdiv b.toInt).bmod Int32.size = (a.toInt.tdiv b.toInt).bmod (2 ^ 32) := rfl
  rw [Int32.toInt_div, apply, Int32.toInt_ofInt, exact, h]

theorem mod_eq_apply (a b : Int32) : a % b = mod.apply a b := by
  have h := Int32.ofInt_toInt (a % b)
  rw [Int32.toInt_mod] at h
  exact h.symm

/-- The operation that the machine performs for the operator. -/
def operation : Operator → Arithmetic.Operation
  | add => Arithmetic.add
  | sub => Arithmetic.sub
  | mul => Arithmetic.mul
  | div => Arithmetic.div
  | mod => Arithmetic.mod

theorem operation_eq (op : Operator) (a b : Int32) :
    op.operation a b =
      if op.divides ∧ b = 0 then .error .divisionByZero else .ok (op.apply a b) := by
  cases op with
  | add => simp [operation, Arithmetic.add, divides, apply, exact]
  | sub => simp [operation, Arithmetic.sub, divides, apply, exact]
  | mul => simp [operation, Arithmetic.mul, divides, apply, exact]
  | div => simp [operation, Arithmetic.div, divides, div_eq_apply]
  | mod => simp [operation, Arithmetic.mod, divides, mod_eq_apply]

end Operator

end DequeMachine.Plain
