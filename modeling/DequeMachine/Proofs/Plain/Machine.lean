import DequeMachine.Machine
import DequeMachine.Proofs.Plain.Deque
import DequeMachine.Proofs.Plain.Integer
import DequeMachine.Proofs.Plain.Operator

/-!
# Plain machines

A plain machine is a list of values, front first, and a mode. A step prints a text and leaves a
machine, or is refused with a fault.
-/
namespace DequeMachine.Plain

structure Machine where
  values : List Int32 := []
  mode : Mode := .stack
  deriving DecidableEq, Repr

/-- Whether a value is the code point of an ASCII character. -/
def IsAscii (v : Int32) : Prop := 0 ≤ v.toInt ∧ v.toInt < 128

instance (v : Int32) : Decidable (IsAscii v) := inferInstanceAs (Decidable (_ ∧ _))

def character (v : Int32) : Char := Char.ofNat v.toInt.toNat

/-- The characters of the values up to the first zero or the first value that is no character. -/
def spelled : List Int32 → Text
  | [] => []
  | v :: xs => if IsAscii v ∧ v ≠ 0 then character v :: spelled xs else []

def writtenLines (xs : List Int32) : Text := xs.flatMap fun v => Decimal.write v ++ ['\n']

/-- A printed text and the machine afterwards, or a fault. -/
abbrev Outcome := Except Fault (Text × Machine)

namespace Machine

variable (m : Machine)

def leave (values : List Int32) : Outcome := .ok ([], { m with values })

def print (text : Text) : Outcome := .ok (text, m)

def push (argument : Option Text) : Outcome :=
  match argument.bind integer?, m.mode with
  | none, _ => .error .pushUsage
  | some v, .stack => m.leave (v :: m.values)
  | some v, .queue => m.leave (m.values ++ [v])

def pop : Outcome :=
  match m.values with
  | [] => .error .popEmpty
  | _ :: xs => m.leave xs

def pint : Outcome :=
  match m.values with
  | [] => .error .pintEmpty
  | v :: _ => m.print (writtenLines [v])

def swap : Outcome :=
  match m.values with
  | a :: b :: xs => m.leave (b :: a :: xs)
  | _ => .error (.tooShort Opcode.swap.word)

/-- The front value is the right operand. Too few values are reported before a divisor of zero. -/
def combine (op : Operator) : Outcome :=
  match m.values with
  | front :: second :: xs =>
    if op.divides ∧ front = 0 then .error .divisionByZero
    else m.leave (op.apply second front :: xs)
  | _ => .error (.tooShort op.opcode.word)

def pchar : Outcome :=
  match m.values with
  | [] => .error .pcharEmpty
  | v :: _ => if IsAscii v then m.print [character v, '\n'] else .error .pcharOutOfRange

def step (i : Instruction) : Outcome :=
  match i.op with
  | .push => m.push i.argument
  | .pop => m.pop
  | .pall => m.print (writtenLines m.values)
  | .pint => m.pint
  | .swap => m.swap
  | .add => m.combine .add
  | .sub => m.combine .sub
  | .mul => m.combine .mul
  | .div => m.combine .div
  | .mod => m.combine .mod
  | .pchar => m.pchar
  | .pstr => m.print (spelled m.values ++ ['\n'])
  | .rotl => m.leave (rotateLeft m.values)
  | .rotr => m.leave (rotateRight m.values)
  | .stack => .ok ([], { m with mode := .stack })
  | .queue => .ok ([], { m with mode := .queue })
  | .nop => m.leave m.values

end Machine

theorem isAscii_eq (v : Int32) : Printout.isAscii v = decide (IsAscii v) := by
  rw [Bool.eq_iff_iff, decide_eq_true_iff]
  simp [Printout.isAscii, IsAscii, Int32.le_iff_toInt_le, Int32.lt_iff_toInt_lt]

theorem encode_ascii {n : Nat} (hn : n < 128) : Utf8.encode [Char.ofNat n] = [UInt8.ofNat n] := by
  have hvalid : n.isValidChar := .inl (by omega)
  have hval : (Char.ofNat n).val.toNat = n := by
    rw [Char.ofNat, dif_pos hvalid]
    rfl
  simp only [Utf8.encode, List.flatMap_cons, List.flatMap_nil, List.append_nil]
  rw [String.utf8EncodeChar, hval, if_pos (by omega)]

theorem encode_character {v : Int32} (h : IsAscii v) :
    Utf8.encode [character v] = [Printout.byte v] := by
  obtain ⟨hpos, hlt⟩ := h
  exact encode_ascii (by omega)

theorem encode_newline : Utf8.encode ['\n'] = [10] := rfl

theorem encode_writtenLines (xs : List Int32) :
    Utf8.encode (writtenLines xs) = xs.flatMap Printout.value := by
  induction xs with
  | nil => rfl
  | cons v xs ih =>
    have hcons : writtenLines (v :: xs) = (Decimal.write v ++ ['\n']) ++ writtenLines xs := rfl
    rw [hcons, Utf8.encode_append, ih, Utf8.encode_append, encode_newline]
    rfl

theorem encode_spelled (xs : List Int32) :
    Utf8.encode (spelled xs) = (xs.takeWhile Printout.continuesText).map Printout.byte := by
  induction xs with
  | nil => rfl
  | cons v xs ih =>
    by_cases h : IsAscii v ∧ v ≠ 0
    · have hcontinues : Printout.continuesText v := by
        simpa [Printout.continuesText, isAscii_eq] using h
      rw [spelled, if_pos h, List.takeWhile_cons_of_pos hcontinues, List.map_cons, ← ih,
        ← List.singleton_append, Utf8.encode_append, encode_character h.1]
      rfl
    · have hstops : ¬Printout.continuesText v := by
        simpa [Printout.continuesText, isAscii_eq] using h
      rw [spelled, if_neg h, List.takeWhile_cons_of_neg hstops]
      rfl

end DequeMachine.Plain
